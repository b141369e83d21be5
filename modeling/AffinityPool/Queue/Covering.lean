import AffinityPool.Queue.Delivery

/-!
# What an armed pass can have missed

While a worker sweeps, a runnable may still come into a queue it has already cleared: a push
inserts it there, or a thief moves it there.  `Covered` says that such a runnable has a push
that will not give up: it has read, or will read, more armed workers than notifications, and
so goes for `park`.  The invariant is relative to a set of queues `scope`; a thief can break it
only by moving a runnable from a queue the sweep has not cleared to one it has (`Hop`), and
never for the injectors, into which nothing is moved.
-/

namespace AffinityPool

open Transition System

variable {q : Shape} {P R : Type}

/-- The worker has cleared the queue `v` in an armed pass without contention, or has ended such
a pass. -/
def Pc.Cleared (v : Victim q) : Pc q R → Prop
  | .sweep s => s.contended = false ∧ v ∈ s.clear
  | .checkShutdown | .wait => True
  | _ => False

instance Pc.Cleared.decidable (v : Victim q) : ∀ pc : Pc q R, Decidable (pc.Cleared v)
  | .sweep s => inferInstanceAs (Decidable (s.contended = false ∧ v ∈ s.clear))
  | .checkShutdown | .wait => isTrue trivial
  | .out _ | .push _ _ _ | .close _ _ | .boot | .cheap _ _ | .lock | .arm | .waiting | .spurious
  | .leave _ _ | .finished => isFalse id

/-- The push is one of the runnable `r`, and into `v` if `v` is an injector. -/
def Pushed.Serves (x : Pushed q R) (v : Victim q) (r : R) : Prop :=
  x.item = r ∧ ∀ i, v = .injector i → x.into = v

/-- A wake check of `r` on its way to `park`, where `n` workers have slept. -/
def Pc.Presses (n : ℕ) (v : Victim q) (r : R) : Pc q R → Prop
  | .push _ x .loadParked | .push _ x .lock => x.Serves v r
  | .push _ x (.loadNotified p) => x.Serves v r ∧ n < p
  | _ => False

/-- Every runnable in a cleared queue of the scope has a push that presses for it. -/
def Covered [Fintype P] (scope : Victim q → Prop) (s : State q P R) : Prop :=
  ∀ t v r, scope v → (s.pc t).Cleared v → r ∈ s.mem.store.queue v →
    ∃ u, (s.pc u).Presses (tally Pc.slept s.pc) v r

/-- The worker `w` steals from `v` more than the runnable it returns: the others move to its own
deque. -/
def State.Hauls (s : State q P R) (w : q.Worker) (v : Victim q)
    (a : Thread q P × Choice q P R) : Prop :=
  a.1 = .inl w ∧ (s.pc (.inl w)).stealing = some v ∧
    match a.2 with
    | .steal (.batch n) => 1 < ((s.mem.store.queue v).take n).length
    | _ => False

instance State.Hauls.decidable [DecidableEq P] (s : State q P R) (w : q.Worker) (v : Victim q) :
    ∀ a, Decidable (s.Hauls w v a)
  | (t, .steal (.batch n)) =>
    inferInstanceAs (Decidable (t = .inl w ∧ (s.pc (.inl w)).stealing = some v ∧
      1 < ((s.mem.store.queue v).take n).length))
  | (_, .steal .empty) | (_, .steal .retry) | (_, .go) | (_, .spawn _ _ _) | (_, .ret)
  | (_, .close) | (_, .spurious) | (_, .pick _) => isFalse fun h => h.2.2

/-- Whenever a step moves runnables into a queue of the scope that some worker has cleared,
they come from one that it has cleared as well. -/
def State.Contained (scope : Victim q → Prop) (s : State q P R)
    (a : Thread q P × Choice q P R) : Prop :=
  ∀ w v, s.Hauls w v a → scope (.peer w) →
    scope v ∧ ∀ t, (s.pc t).Cleared (.peer w) → (s.pc t).Cleared v

section Measure

/-- A worker that has cleared a queue has passed it. -/
lemma Pc.Cleared.past_eq {v : Victim q} {pc : Pc q R} (h : pc.Cleared v) : pc.past v = 1 := by
  cases pc <;> first | exact if_pos h.2 | rfl | cases h

/-- A worker that has cleared a queue holds `park`, and has not slept. -/
lemma Pc.Cleared.held_eq {v : Victim q} {pc : Pc q R} (h : pc.Cleared v) :
    pc.held = 1 ∧ pc.slept = 0 := by
  cases pc <;> first | exact ⟨rfl, rfl⟩ | cases h

/-- The moved runnables serve a deque as well. -/
lemma Pc.Presses.to_peer {n : ℕ} {v : Victim q} {r : R} {pc : Pc q R} (h : pc.Presses n v r)
    (w : q.Worker) : pc.Presses n (.peer w) r := by
  have hserves : ∀ x : Pushed q R, x.Serves v r → x.Serves (.peer w) r :=
    fun x hx => ⟨hx.1, fun i hi => by cases hi⟩
  rcases pc with _ | ⟨k, x, _ | p | _ | _ | _ | _ | _ | _⟩ | _ | _ | _ | _ | _ | _ | _ | _ | _ | _ |
    _ | _
  all_goals first | exact hserves x h | exact ⟨hserves x h.1, h.2⟩ | cases h

/-- Whoever presses is at its wake check. -/
lemma Pc.Presses.exists_push {n : ℕ} {v : Victim q} {r : R} {pc : Pc q R}
    (h : pc.Presses n v r) : ∃ k x u, pc = .push k x u ∧ x.Serves v r := by
  rcases pc with _ | ⟨k, x, _ | p | _ | _ | _ | _ | _ | _⟩ | _ | _ | _ | _ | _ | _ | _ | _ | _ | _ |
    _ | _
  all_goals first | exact ⟨k, x, _, rfl, h⟩ | exact ⟨k, x, _, rfl, h.1⟩ | cases h

end Measure

section Step

variable [DecidableEq P] {t : Thread q P} {c : Choice q P R} {m m' : Mem q P R} {pc pc' : Pc q R}

/-- A queue is cleared where no runnable was seen in it. -/
lemma Move.cleared_cases (hm : Move t c m pc m' pc') {v : Victim q} (hv : pc'.Cleared v)
    (hcovers : ∀ w sc, t = .inl w → pc = .sweep sc → sc.Covers w) :
    pc.Cleared v ∨ m.store.Blank v ∨ ∃ w, t = .inl w ∧ pc.drained = true ∧ v = .peer w := by
  cases hm
  case sweepMore w o sc sc' st ht ho h =>
    obtain ⟨hcontended, hmem⟩ := hv
    rcases (h.advances (hcovers w sc ht rfl)).2 v hmem with ⟨hmem', hmono⟩ | hblank
    · refine Or.inl ⟨?_, hmem'⟩
      cases hc : sc.contended with
      | false => rfl
      | true => rw [hmono hc] at hcontended; cases hcontended
    · exact Or.inr (Or.inl hblank)
  case sweepEmpty w o sc st ht ho h =>
    have hadv := h.advances (hcovers w sc ht rfl)
    cases sc with
    | own => cases h
    | visit p =>
      by_cases hw : v = .peer w
      · exact Or.inr (Or.inr ⟨w, ht, rfl, hw⟩)
      · rcases hadv.2 v hw with hmem | hblank
        · exact Or.inl ⟨hadv.1, hmem⟩
        · exact Or.inr (Or.inl hblank)
  case arm => cases hv.2
  case stay h => exact Or.inl trivial
  all_goals cases hv

/-- While another thread holds `park` nobody falls asleep or wakes up. -/
lemma Move.slept_eq (hm : Move t c m pc m' pc') (hpark : m.park = true) (hheld : pc.held = 0) :
    pc'.slept = pc.slept := by
  cases hm
  case wake hw hp | relock hp => rw [hpark] at hp; cases hp
  case stir => rfl
  all_goals first | rfl | cases hheld

/-- A push that presses goes on pressing while another thread holds `park`, as long as it
reads more armed workers than have slept and there are no more notifications than that. -/
lemma Move.presses (hm : Move t c m pc m' pc') {n : ℕ} {v : Victim q} {r : R}
    (h : pc.Presses n v r) (hpark : m.park = true) (hparked : n < m.parked)
    (hnotified : m.notified ≤ n) : pc'.Presses n v r := by
  cases hm
  case loadParked k x => exact ⟨h, hparked⟩
  case contend k x p hp => exact h.1
  case skip k x p hp => exact absurd (lt_of_lt_of_le h.2 hp) (Nat.not_lt.mpr hnotified)
  case pushLock k x hp => rw [hpark] at hp; cases hp
  all_goals cases h

/-- A step of a thread that has cleared a queue brings no runnable into any. -/
lemma Move.mem_queue_of_cleared (hm : Move t c m pc m' pc') {v u : Victim q} {r : R}
    (hv : pc'.Cleared v) (hr : r ∈ m'.store.queue u) : r ∈ m.store.queue u := by
  rcases hm.mem_queue hr with hmem | ⟨-, rfl, -, -⟩ | ⟨-, -, -, ⟨x, rfl⟩ | ⟨x, rfl⟩, -, -⟩
  · exact hmem
  · cases hv
  · cases hv
  · cases hv

variable [Fintype P] {s : State q P R} {scope : Victim q → Prop}

/-- What a pressing push relies on while some worker has cleared a queue. -/
lemma Handshake.of_cleared (hh : Handshake s) {b : Thread q P} {v : Victim q}
    (hb : (s.pc b).Cleared v) :
    s.mem.park = true ∧ tally Pc.slept s.pc < s.mem.parked ∧
      s.mem.notified ≤ tally Pc.slept s.pc ∧ ∀ t, t ≠ b → (s.pc t).held = 0 := by
  have hpast := le_tally (Pc.past v) s.pc b
  rw [hb.past_eq] at hpast
  have harmed := tally_slept_add_past_le s v
  have hone := hh.past_add_le_one v
  have hcredit := hh.credit
  have hparked := hh.parked
  refine ⟨hh.park_eq_true hb.held_eq.1, by omega, by omega, ?_⟩
  exact fun t ht => hh.held_eq_zero hb.held_eq.1 ht

/-- While a worker has cleared a queue, whoever presses goes on pressing. -/
lemma Handshake.presses_step (hh : Handshake s) (hm : Move t c s.mem (s.pc t) m' pc')
    {b : Thread q P} {v₀ : Victim q} (hb : (s.pc b).Cleared v₀)
    (hslept : pc'.slept = (s.pc t).slept) {v : Victim q} {r : R}
    (h : ∃ u, (s.pc u).Presses (tally Pc.slept s.pc) v r) :
    ∃ u, (Function.update s.pc t pc' u).Presses
      (tally Pc.slept (Function.update s.pc t pc')) v r := by
  obtain ⟨hpark, hparked, hnotified, -⟩ := hh.of_cleared hb
  have hsame := tally_update Pc.slept s.pc t pc'
  rw [hslept, Nat.add_right_cancel_iff] at hsame
  obtain ⟨u, hu⟩ := h
  refine ⟨u, ?_⟩
  rw [hsame]
  by_cases hut : u = t
  · subst hut
    rw [Function.update_self]
    exact hm.presses hu hpark hparked hnotified
  · rwa [Function.update_of_ne hut]

/-- **Step lemma.**  A step that moves nothing past a sweep keeps the runnables in cleared
queues covered. -/
theorem Covered.step (hc : Covered scope s) (hh : Handshake s) (hs : Storage s)
    (hm : Move t c s.mem (s.pc t) m' pc') (hcontained : s.Contained scope (t, c)) :
    Covered scope ⟨m', Function.update s.pc t pc'⟩ := by
  intro b v r hscope hb hr
  by_cases hbt : b = t
  · -- the worker itself moves: it clears only queues without runnables
    subst hbt
    simp only [Function.update_self] at hb
    have hmem := hm.mem_queue_of_cleared hb hr
    rcases hm.cleared_cases hb fun w sc hw hpc => hs.covers w sc (hw ▸ hpc) with
      hold | hblank | ⟨w, hw, hdr, rfl⟩
    · have hslept : pc'.slept = (s.pc b).slept := hb.held_eq.2.trans hold.held_eq.2.symm
      exact hh.presses_step hm hold hslept (hc b v r hscope hold hmem)
    · rw [hs.queue_eq_nil hblank] at hmem
      cases hmem
    · have hnil := hs.drained w (hw ▸ hdr)
      rw [Store.queue_peer, hnil] at hmem
      cases hmem
  · -- another thread moves: a runnable that comes into a cleared queue is pushed or moved there
    simp only [Function.update_of_ne hbt] at hb
    obtain ⟨hpark, -, -, hheld⟩ := hh.of_cleared hb
    have hslept := hm.slept_eq hpark (hheld t (Ne.symm hbt))
    rcases hm.mem_queue hr with
      hmem | @⟨k, x, hpc, rfl, rfl, rfl⟩ | @⟨w, v, n, rfl, rfl, hpc, -, rfl, hmem⟩
    · exact hh.presses_step hm hb hslept (hc b v r hscope hb hmem)
    · refine ⟨t, ?_⟩
      simp only [Function.update_self]
      exact ⟨rfl, fun i hi => rfl⟩
    · have hlength : 1 < ((s.mem.store.queue v).take n).length := by
        have hpos := List.length_pos_of_mem hmem
        rw [List.length_tail] at hpos
        omega
      obtain ⟨hscope', hcleared⟩ := hcontained w v ⟨rfl, hpc, hlength⟩ hscope
      obtain ⟨u, hu⟩ := hc b v r hscope' (hcleared b hb)
        (List.mem_of_mem_take (List.mem_of_mem_tail hmem))
      exact hh.presses_step hm hb hslept ⟨u, hu.to_peer w⟩

end Step

section Runs

variable [DecidableEq P] [DecidableEq R] [Fintype P] {s : State q P R}
  {scope : Victim q → Prop} {ok : State q P R → Thread q P × Choice q P R → Prop}

/-- The runnables in cleared queues are covered in every run whose steps move nothing past a
sweep. -/
theorem Covered.of_reach (hok : ∀ s a, (machine q P R).Reachable s → ok s a →
      s.Contained scope a) (h : (machine q P R).Reach ok s) : Covered scope s := by
  refine h.invariant ?_ ?_
  · rintro _ rfl t v r - - hr
    cases v <;> cases hr
  · intro s a s' hr hc hk hs
    obtain ⟨m, pc, hm, rfl⟩ := State.step_cases hs
    exact hc.step (.of_reachable hr.reachable) (.of_reachable hr.reachable) hm
      (hok s a hr.reachable hk)

/-- The injectors are covered in every run: nothing is moved into them. -/
theorem Covered.injectors_of_reachable (h : (machine q P R).Reachable s) :
    Covered (fun v => ∃ i, v = .injector i) s := by
  refine Covered.of_reach (fun s a _ _ => ?_) h
  rintro w v - ⟨i, hi⟩
  cases hi

end Runs

end AffinityPool
