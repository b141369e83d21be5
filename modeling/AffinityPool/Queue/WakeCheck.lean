import AffinityPool.Queue.Storage

/-!
# The gated wake check of a push

A push gives up without a signal when it reads `parked ≤ notified`, at the unlocked
comparison or again under `park`.  The two counters are read one after the other, so the
comparison is about two moments.  `WakeCheck` bridges them: while a push sits between its
two unlocked loads and its runnable is still in the queue it was inserted into, the value of
`parked` it has read bounds the workers that have slept and those that have passed this queue
in an armed scan.  With the credit bound of the handshake it follows that a push that gives
up leaves no waiter unsignalled and no armed worker that has passed its queue
(`wake_check_sound`).
-/

namespace AffinityPool

open Transition System

variable {q : Shape} {P R : Type}

/-- The worker has passed the queue `v` in its armed section without a runnable: in its
current pass, or in the pass that has ended before its test of the shutdown flag. -/
def Pc.past (v : Victim q) : Pc q R → ℕ
  | .sweep s => if v ∈ s.clear then 1 else 0
  | .checkShutdown | .wait => 1
  | _ => 0

/-- The bound a push in progress carries. -/
def WakeCheck [Fintype P] (s : State q P R) : Prop :=
  ∀ t k x p, s.pc t = .push k x (.loadNotified p) → x.item ∈ s.mem.store.queue x.into →
    tally Pc.slept s.pc + tally (Pc.past x.into) s.pc ≤ p

section Measure

lemma Pc.past_sweep_le (v : Victim q) (s : Scan q) : (Pc.sweep s : Pc q R).past v ≤ 1 := by
  show (if v ∈ s.clear then 1 else 0) ≤ 1
  split <;> omega

/-- Workers that have passed a queue are armed. -/
lemma Pc.slept_add_past_le (v : Victim q) (pc : Pc q R) : pc.slept + pc.past v ≤ pc.armed := by
  have hsweep := @Pc.past_sweep_le q R v
  rcases pc with _ | _ | _ | _ | _ | _ | _ | s | _ | _ | _ | _ | ⟨_ | _ | _, _ | _ | _ | _⟩ | _ <;>
    simp_all [Pc.slept, Pc.past, Pc.armed]

/-- Whoever has passed a queue in its armed section holds `park`, and neither loads the
counters nor signals. -/
lemma Pc.past_add_le_held (v : Victim q) (pc : Pc q R) :
    pc.past v + pc.rechecks + pc.notifies ≤ pc.held := by
  have hsweep := @Pc.past_sweep_le q R v
  rcases pc with _ | ⟨_, _, _ | _ | _ | _ | _ | _ | _ | _⟩ | _ | _ | _ | _ | _ | s | _ | _ | _ | _ |
    _ | _ <;> simp_all [Pc.past, Pc.rechecks, Pc.notifies, Pc.held]

/-- Whoever signals is at its `notify_one`. -/
lemma Pc.exists_of_notifies_pos {pc : Pc q R} (h : 0 < pc.notifies) :
    ∃ k x, pc = .push k x .notifyOne := by
  rcases pc with _ | ⟨k, x, _ | _ | _ | _ | _ | _ | _ | _⟩ | _ | _ | _ | _ | _ | _ | _ | _ | _ | _ |
    _ | _ <;> simp_all [Pc.notifies]

variable [Fintype P]

/-- The armed workers bound those that have slept or passed a queue. -/
lemma tally_slept_add_past_le (s : State q P R) (v : Victim q) :
    tally Pc.slept s.pc + tally (Pc.past v) s.pc ≤ tally Pc.armed s.pc := by
  rw [← tally_add]
  exact tally_le_tally fun t => (s.pc t).slept_add_past_le v

/-- One thread at most is past a queue, loads the counters under `park` or signals. -/
lemma Handshake.past_add_le_one {s : State q P R} (h : Handshake s) (v : Victim q) :
    tally (Pc.past v) s.pc + tally Pc.rechecks s.pc + tally Pc.notifies s.pc ≤ 1 := by
  have hle : tally (fun pc : Pc q R => pc.past v + pc.rechecks + pc.notifies) s.pc ≤
      tally Pc.held s.pc := tally_le_tally fun t => (s.pc t).past_add_le_held v
  have hone : s.mem.park.toNat ≤ 1 := Bool.toNat_le _
  rw [tally_add, tally_add, h.park] at hle
  exact hle.trans hone

/-- The value loaded under `park` is the value of `parked`. -/
lemma Handshake.recheck_eq [DecidableEq P] {s : State q P R} (h : Handshake s) {t : Thread q P}
    {k : Caller R} {x : Pushed q R} {p : ℕ} (ht : s.pc t = .push k x (.recheckNotified p)) :
    p = s.mem.parked := by
  have hone := h.past_add_le_one x.into
  have hcount := tally_update Pc.rechecks s.pc t (.out k)
  have hvalue := tally_update Pc.rechecked s.pc t (.out k)
  rw [ht] at hcount hvalue
  simp only [Pc.rechecks, Pc.rechecked] at hcount hvalue
  have hzero := tally_rechecked_eq_zero
    (⟨s.mem, Function.update s.pc t (.out k)⟩ : State q P R) (by dsimp only; omega)
  have hrecheck := h.recheck (by omega)
  dsimp only at hzero
  omega

/-- Where the notifications outnumber the workers that have slept or passed the queue `v`, no
armed worker has passed `v`, and the only waiter left is one about to be signalled. -/
lemma Handshake.quiet {s : State q P R} (hh : Handshake s) {v : Victim q}
    (hle : tally Pc.slept s.pc + tally (Pc.past v) s.pc ≤ s.mem.notified) :
    tally (Pc.past v) s.pc = 0 ∧ s.mem.waiters.card ≤ tally Pc.notifies s.pc := by
  have hcredit := hh.credit
  have hone := hh.past_add_le_one v
  omega

end Measure

/-! ## The step -/

section Step

variable [DecidableEq P] {t : Thread q P} {c : Choice q P R} {m m' : Mem q P R} {pc pc' : Pc q R}

/-- No worker passes a queue that has a runnable. -/
lemma Move.past_le (hm : Move t c m pc m' pc') {v : Victim q} (hv : ¬ m.store.Blank v)
    (hown : ∀ w, t = .inl w → pc.drained = true → v ≠ .peer w)
    (hcovers : ∀ w sc, t = .inl w → pc = .sweep sc → sc.Covers w) :
    pc'.past v ≤ pc.past v := by
  cases hm
  case sweepMore w o sc sc' st ht ho h =>
    have hadv := h.advances (hcovers w sc ht rfl)
    simp only [Pc.past]
    by_cases hmem : v ∈ sc'.clear
    · rcases hadv.2 v hmem with ⟨hmem', -⟩ | hblank
      · rw [if_pos hmem, if_pos hmem']
      · exact absurd hblank hv
    · rw [if_neg hmem]
      exact Nat.zero_le _
  case sweepEmpty w o sc st ht ho h =>
    have hadv := h.advances (hcovers w sc ht rfl)
    cases sc with
    | own => cases h
    | visit p =>
      rcases hadv.2 v (hown w ht rfl) with hmem | hblank
      · simp only [Pc.past]
        rw [if_pos hmem]
      · exact absurd hblank hv
  case arm => simp [Pc.past, Scan.clear]
  all_goals simp [Pc.past]

/-- A worker falls asleep only after it has passed every queue. -/
lemma Move.slept_le (hm : Move t c m pc m' pc') (v : Victim q) :
    pc'.slept + pc'.past v ≤ pc.slept + max (pc.past v) (pc'.past v) := by
  cases hm
  case consume e h | pass e h | lower e | unpark e => cases e <;> simp [Pc.slept, Pc.past]
  all_goals simp [Pc.slept, Pc.past]

/-- A push that has loaded `parked` has loaded its value. -/
lemma Move.loadNotified_eq {k : Caller R} {x : Pushed q R} {p : ℕ}
    (hm : Move t c m pc m' (.push k x (.loadNotified p))) :
    p = m.parked ∧ m' = m ∧ pc = .push k x .loadParked := by
  generalize hpc : (Pc.push k x (.loadNotified p) : Pc q R) = pc' at hm
  cases hm
  all_goals cases hpc
  exact ⟨rfl, rfl, rfl⟩

end Step

section Runs

variable [DecidableEq P] [Fintype P] {s : State q P R}

/-- A runnable that is where a push in progress has put it has been there all the time. -/
lemma Storage.mem_queue_of_step (h : Storage s) {t u : Thread q P} {c : Choice q P R}
    {m' : Mem q P R} {pc' : Pc q R} (hm : Move t c s.mem (s.pc t) m' pc') (hut : u ≠ t)
    {k : Caller R} {x : Pushed q R} {st : PushStage} (hu : s.pc u = .push k x st)
    (hx : x.item ∈ m'.store.queue x.into) : x.item ∈ s.mem.store.queue x.into := by
  obtain ⟨hpushed, hown, hfor⟩ := h.pushing u k x st hu
  rcases hm.mem_queue hx with hmem | ⟨hpc, rfl, -, hitem⟩ | ⟨ht, -, -, -, hinto, -⟩
  · exact hmem
  · rcases hm.push_cases with ⟨u', hpush⟩ | ⟨⟨-, -, -, hfresh⟩, -⟩
    · rw [hpc] at hpush
      cases hpush
    · rw [hitem] at hpushed
      exact absurd hpushed hfresh
  · cases u with
    | inl i =>
      have hi := (hown i rfl).symm.trans hinto
      rw [Victim.peer.inj hi, ← ht] at hut
      exact absurd rfl hut
    | inr f =>
      obtain ⟨i, hi⟩ := hfor f rfl
      rw [hinto] at hi
      cases hi

/-- No worker passes a queue that has a runnable. -/
lemma Storage.past_le (h : Storage s) {t : Thread q P} {c : Choice q P R} {m' : Mem q P R}
    {pc' : Pc q R} (hm : Move t c s.mem (s.pc t) m' pc') {v : Victim q} {r : R}
    (hr : r ∈ s.mem.store.queue v) : pc'.past v ≤ (s.pc t).past v := by
  refine hm.past_le (fun hblank => ?_) (fun w ht hdr hv => ?_) fun w sc ht hsc => ?_
  · rw [h.queue_eq_nil hblank] at hr
    cases hr
  · have hnil := h.drained w (ht ▸ hdr)
    rw [hv, Store.queue_peer, hnil] at hr
    cases hr
  · exact h.covers w sc (ht ▸ hsc)

/-- **Step lemma.**  A step keeps the bound of every push in progress. -/
theorem WakeCheck.step (hw : WakeCheck s) (hh : Handshake s) (hs : Storage s)
    {t : Thread q P} {c : Choice q P R} {m' : Mem q P R} {pc' : Pc q R}
    (hm : Move t c s.mem (s.pc t) m' pc') : WakeCheck ⟨m', Function.update s.pc t pc'⟩ := by
  intro u k x p hu hx
  rcases update_cases hu with ⟨rfl, rfl⟩ | ⟨hut, hpush⟩
  · -- the push has just read `parked`, which counts every armed worker
    obtain ⟨rfl, rfl, hpc⟩ := hm.loadNotified_eq
    have hslept := tally_update Pc.slept s.pc u (.push k x (.loadNotified s.mem.parked))
    have hpast := tally_update (Pc.past x.into) s.pc u (.push k x (.loadNotified s.mem.parked))
    rw [hpc] at hslept hpast
    simp only [Pc.slept, Pc.past, Nat.add_zero] at hslept hpast
    dsimp only
    rw [hslept, hpast, hh.parked]
    exact tally_slept_add_past_le s x.into
  · have hmem := hs.mem_queue_of_step hm hut hpush hx
    have hold := hw u k x p hpush hmem
    have hstep := hs.past_le hm hmem
    have hsleep := hm.slept_le x.into
    have hslept := tally_update Pc.slept s.pc t pc'
    have hpast := tally_update (Pc.past x.into) s.pc t pc'
    dsimp only
    omega

/-- The bound of every push in progress holds in every run. -/
theorem WakeCheck.of_reachable [DecidableEq R] (h : (machine q P R).Reachable s) :
    WakeCheck s := by
  refine h.invariant ?_ ?_
  · rintro _ rfl (w | f) k x p ht
    · cases ht
    · cases ht
  · intro s a s' hr hw _ hstep
    obtain ⟨m, pc, hm, rfl⟩ := State.step_cases hstep
    exact hw.step (.of_reachable hr) (.of_reachable hr) hm

end Runs

/-! ## Giving up -/

/-- The push of `x` ends without a signal: at the unlocked comparison, or at the check under
`park`. -/
def Pc.GivesUp (x : Pushed q R) (pc pc' : Pc q R) : Prop :=
  ∃ k p, pc = .push k x (.loadNotified p) ∧ pc' = .out k ∨
    pc = .push k x (.recheckNotified p) ∧ pc' = .push k x .unlock

section GivingUp

variable [DecidableEq P] {t : Thread q P} {c : Choice q P R} {m m' : Mem q P R} {pc pc' : Pc q R}
  {x : Pushed q R}

/-- A push that gives up has compared the two counters. -/
lemma Move.givesUp (hm : Move t c m pc m' pc') (hg : pc.GivesUp x pc') :
    m' = m ∧ ∃ k p, p ≤ m.notified ∧
      (pc = .push k x (.loadNotified p) ∨ pc = .push k x (.recheckNotified p)) := by
  obtain ⟨k, p, ⟨rfl, rfl⟩ | ⟨rfl, rfl⟩⟩ := hg
  · cases hm
    case skip h => exact ⟨rfl, k, p, h, Or.inl rfl⟩
  · cases hm
    case decline h => exact ⟨rfl, k, p, h, Or.inr rfl⟩

variable [Fintype P] {s : State q P R}

/-- The notifications outnumber them when a push gives up. -/
lemma WakeCheck.le_notified (hw : WakeCheck s) (hh : Handshake s) {p : ℕ} {k : Caller R}
    (hp : p ≤ s.mem.notified) (hx : x.item ∈ s.mem.store.queue x.into)
    (ht : s.pc t = .push k x (.loadNotified p) ∨ s.pc t = .push k x (.recheckNotified p)) :
    tally Pc.slept s.pc + tally (Pc.past x.into) s.pc ≤ s.mem.notified := by
  rcases ht with ht | ht
  · exact (hw t k x p ht hx).trans hp
  · have hle := tally_slept_add_past_le s x.into
    rw [← hh.parked, ← hh.recheck_eq ht] at hle
    exact hle.trans hp

/-- After a push has given up no armed worker has passed its queue, and the only waiter left
is one about to be signalled. -/
lemma WakeCheck.quiet (hw : WakeCheck s) (hh : Handshake s)
    (hh' : Handshake ⟨m', Function.update s.pc t pc'⟩) (hm : Move t c s.mem (s.pc t) m' pc')
    (hg : (s.pc t).GivesUp x pc') (hx : x.item ∈ s.mem.store.queue x.into) :
    tally (Pc.past x.into) (Function.update s.pc t pc') = 0 ∧
      m'.waiters.card ≤ tally Pc.notifies (Function.update s.pc t pc') := by
  obtain ⟨rfl, k, p, hp, ht⟩ := hm.givesUp hg
  have hle := hw.le_notified hh hp hx ht
  -- the pushing thread itself has neither slept nor passed a queue
  have hle' : tally Pc.slept (Function.update s.pc t pc') +
      tally (Pc.past x.into) (Function.update s.pc t pc') ≤ s.mem.notified := by
    have hslept := tally_update Pc.slept s.pc t pc'
    have hpast := tally_update (Pc.past x.into) s.pc t pc'
    obtain ⟨k', p', ⟨-, rfl⟩ | ⟨-, rfl⟩⟩ := hg <;> simp only [Pc.slept, Pc.past] at hslept hpast <;>
      omega
  exact hh'.quiet hle'

/-- **Soundness of the wake check.**  When a push gives up and its runnable is still in the
queue it was inserted into, every waiter has been signalled, or the only other one is about to
be signalled by a push that holds `park`; and no armed worker has passed this queue. -/
theorem wake_check_sound [DecidableEq R] {s' : State q P R}
    (h : (machine q P R).Reachable s) (hs : (machine q P R).step s (t, c) = some s')
    (hg : (s.pc t).GivesUp x (s'.pc t)) (hx : x.item ∈ s'.mem.store.queue x.into) :
    (s'.mem.waiters = ∅ ∨
      ∃ w u k y, s'.mem.waiters = {w} ∧ s'.pc u = .push k y .notifyOne) ∧
    ∀ w, (∀ sc, s'.pc w = .sweep sc → x.into ∉ sc.clear) ∧
      s'.pc w ≠ .checkShutdown ∧ s'.pc w ≠ .wait := by
  have hh' := Handshake.of_reachable (h.step trivial hs)
  obtain ⟨m, pc, hm, rfl⟩ := State.step_cases hs
  simp only [Function.update_self] at hg
  dsimp only at hm hh' ⊢
  have hmem := (hm.givesUp hg).1
  obtain ⟨hpast, hcard⟩ := (WakeCheck.of_reachable h).quiet (.of_reachable h) hh' hm hg
    (hmem ▸ hx)
  have hone := hh'.past_add_le_one x.into
  refine ⟨?_, fun w => ?_⟩
  · rcases Nat.eq_zero_or_pos m.waiters.card with hzero | hpos
    · exact Or.inl (Finset.card_eq_zero.mp hzero)
    · dsimp only at hone
      have hcardone : m.waiters.card = 1 := by omega
      obtain ⟨w, hw⟩ := Finset.card_eq_one.mp hcardone
      obtain ⟨u, hu⟩ := exists_pos_of_tally_pos (lt_of_lt_of_le hpos hcard)
      obtain ⟨k, y, hy⟩ := Pc.exists_of_notifies_pos hu
      exact Or.inr ⟨w, u, k, y, hw, hy⟩
  · have hzero := tally_eq_zero_iff.mp hpast w
    refine ⟨fun sc hsc hmem => ?_, fun hpc => ?_, fun hpc => ?_⟩
    · rw [hsc] at hzero
      simp [Pc.past, hmem] at hzero
    · rw [hpc] at hzero
      cases hzero
    · rw [hpc] at hzero
      cases hzero

end GivingUp

/-- A worker sleeps and is signalled by one push; the next push is about to give up. -/
def secondPushRun : List (Thread solo Unit × Choice solo Unit ℕ) :=
  goes solo.worker 21 ++ [(.inr (), .spawn 0 0 none)] ++ goes (.inr ()) 6 ++
    [(.inr (), .pick solo.worker)] ++ goes (.inr ()) 1 ++ [(.inr (), .spawn 1 0 none)] ++
    goes (.inr ()) 1

/-- The state after `secondPushRun`. -/
def secondPush : State solo Unit ℕ :=
  (machine solo Unit ℕ).final (.start solo Unit ℕ) secondPushRun (by decide)

/-- The state after the second push has given up. -/
def gaveUp : State solo Unit ℕ :=
  ((machine solo Unit ℕ).step secondPush (.inr (), .go)).get (by decide)

/-- The second push gives up while its runnable is in the injector. -/
theorem wake_check_sound_gaveUp :
    gaveUp.mem.waiters = ∅ ∨
      ∃ w u k y, gaveUp.mem.waiters = {w} ∧ gaveUp.pc u = .push k y .notifyOne := by
  have hstep : (machine solo Unit ℕ).step secondPush (.inr (), .go) = some gaveUp :=
    (Option.some_get _).symm
  have hg : (secondPush.pc (.inr ())).GivesUp ⟨1, .injector 0⟩ (gaveUp.pc (.inr ())) :=
    ⟨.foreign, 1, Or.inl ⟨by decide, by decide⟩⟩
  exact (wake_check_sound (Reachable.final rfl _) hstep hg (by decide)).1

end AffinityPool
