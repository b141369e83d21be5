import AffinityPool.Foundation.Potential
import AffinityPool.Pool.ThreadCount

/-!
# A pool comes to rest

From outside come the release of the last owner and the unwinding of workers.  Everything else that
the threads of a pool do uses up work (`endWork`): the steps of the sentries, of the
replacements they start, and of `Threadpool::drop`, which has one handle more to join for every
thread started before it takes the list.

Left to itself a pool that is owned comes back to its full strength, and every live worker is then
on the list the drop will join (`strength_restored`).  A pool whose drop has begun comes to an end:
the drop returns or panics, the data are released and no thread is left, those included which the
drop does not join (`drop_ends`).
-/

namespace AffinityPool

namespace Lifecycle

open Transition System

variable {s s' t : State} {a : Action} {workers : ℕ}

/-- What the surroundings decide: the release of the last owner and the unwinding of a worker. -/
def Action.isGiven : Action → Bool
  | .begin _ | .unwind _ => true
  | _ => false

/-- The steps a thread has before it, with those of the replacement it starts and the join of that
one. -/
def Status.work : Status → ℕ
  | .unborn | .terminated => 0
  | .ending => 1
  | .running => 2
  | .storing _ => 3
  | .spawning => 6
  | .counting => 7
  | .unwinding => 8

/-- The steps of `Threadpool::drop` that are left, without the joins of stored handles. -/
def Dropper.work : Dropper → ℕ
  | .idle | .released => 0
  | .returned _ | .panicked _ => 1
  | .joining _ hs => hs.length + 2
  | .shut _ => 3
  | .begun _ => 4

/-- The work before the threads of a pool. -/
def endWork (s : State) : ℕ :=
  s.total Status.work + s.data.threadHandles.length + s.dropper.work

/-- What a step of one started thread changes. -/
lemma endWork_update {k : ℕ} {x : Status} (hk : k < s.next)
    (hstatus : s'.status = Function.update s.status k x) (hnext : s'.next = s.next)
    (hdropper : s'.dropper = s.dropper) :
    endWork s' + (s.status k).work + s.data.threadHandles.length =
      endWork s + x.work + s'.data.threadHandles.length := by
  have htotal := tallyBelow_update hk Status.work s.status x
  unfold endWork State.total
  rw [hstatus, hnext, hdropper]
  omega

/-- A step by which one thread has less before it. -/
lemma uses_up {k : ℕ} {x : Status} (hk : k < s.next)
    (hstatus : s'.status = Function.update s.status k x) (hnext : s'.next = s.next)
    (hdropper : s'.dropper = s.dropper)
    (hless : x.work + s'.data.threadHandles.length + 1 ≤
      (s.status k).work + s.data.threadHandles.length) : endWork s' + 1 ≤ endWork s := by
  have hthread := endWork_update hk hstatus hnext hdropper
  omega

/-- A thread with another status has been started. -/
lemma Balanced.lt_of_status {n k : ℕ} {x : Status} (h : Balanced n s) (hk : s.status k = x)
    (hx : x ≠ .unborn) : k < s.next :=
  h.lt (by rw [hk]; exact hx)

/-- **Step lemma.**  Every step uses up work, but the release of the last owner and the unwinding of
a worker. -/
theorem endWork_potential :
    Potential (machine workers) (fun _ _ => True) Action.isGiven endWork 7 := by
  intro s a s' h _ hstep
  have hb := Balanced.of_reachable h
  cases Move.of_step hstep with
  | begin hi he =>
    simp only [endWork, hi, Dropper.work, Action.isGiven, if_true, State.total]
    omega
  | shutdown hd | drain hd | join hd | panic hd | reset hd | release hd | abandon hd =>
    simp only [endWork, hd, Dropper.work, Action.isGiven, State.total, List.length_nil,
      List.length_cons]
    omega
  | unwind hk =>
    have hstarted := hb.lt_of_status hk.1 (by simp)
    have hunwound := @endWork_update s (s.setStatus _ .unwinding) _ _ hstarted rfl rfl rfl
    rw [hk.1] at hunwound
    simp only [Status.work, State.setStatus, Action.isGiven, if_true] at hunwound ⊢
    omega
  | exit hk hs =>
    refine uses_up (hb.lt_of_status hk.1 (by simp)) rfl rfl rfl ?_
    rw [hk.1]
    simp only [Status.work, State.setStatus]
    omega
  | upgrade hk hs | orphan hk hs | count hk | terminate hk =>
    refine uses_up (hb.lt_of_status hk (by simp)) rfl rfl rfl ?_
    rw [hk]
    simp only [Status.work, State.setStatus, Data.count]
    omega
  | store hk =>
    refine uses_up (hb.lt_of_status hk (by simp)) rfl rfl rfl ?_
    rw [hk]
    simp only [Status.work, Data.store, List.length_append, List.length_singleton]
    omega
  | spawn hk =>
    have htotal := total_spawn (hb.lt_of_status hk (by simp)) Status.work .running (.storing s.next)
    rw [hk] at htotal
    simp only [Status.work] at htotal
    simp only [endWork, Action.isGiven, Bool.false_eq_true, if_false, State.setStatus] at htotal ⊢
    omega

/-! ## Handles belong to threads -/

/-- A thread that has been started stays so. -/
lemma Move.started (hm : Move s a s') {k : ℕ} (hk : s.status k ≠ .unborn) :
    s'.status k ≠ .unborn := by
  have hupdate : ∀ (f : ℕ → Status) (j : ℕ) (x : Status), x ≠ .unborn → f k ≠ .unborn →
      Function.update f j x k ≠ .unborn := by
    intro f j x hx hf
    by_cases hjk : k = j
    · rw [hjk, Function.update_self]
      exact hx
    · rw [Function.update_of_ne hjk]
      exact hf
  cases hm
  case begin | shutdown | drain | join | panic | reset | release | abandon => exact hk
  case spawn => exact hupdate _ _ _ (by simp) (hupdate _ _ _ (by simp) hk)
  all_goals exact hupdate _ _ _ (by simp) hk

/-- The handles on the list, those the drop has taken and those about to be stored belong to
threads that have been started; until the list is taken, every started thread is on it or about to
be. -/
structure Listed (s : State) : Prop where
  born : ∀ k < s.next, s.status k ≠ .unborn
  stored : ∀ h ∈ s.data.threadHandles, s.status h ≠ .unborn
  taken : ∀ e hs, s.dropper = .joining e hs → ∀ h ∈ hs, s.status h ≠ .unborn
  storing : ∀ k h, s.status k = .storing h → s.status h ≠ .unborn
  complete : s.dropper = .idle → ∀ k, s.status k ≠ .unborn →
    k ∈ s.data.threadHandles ∨ ∃ j, s.status j = .storing k

/-- A step of a thread that is through with the store of a handle or has none to store. -/
lemma Listed.update (h : Listed s) {k : ℕ} {x : Status} (hm : Move s a s')
    (hold : s.status k ≠ .unborn) (hx : ∀ m, x ≠ .storing m)
    (hstatus : s'.status = Function.update s.status k x) (hnext : s'.next = s.next)
    (hdropper : s'.dropper = s.dropper)
    (hkeep : ∀ m ∈ s.data.threadHandles, m ∈ s'.data.threadHandles)
    (hmore : ∀ m ∈ s'.data.threadHandles, m ∈ s.data.threadHandles ∨ s.status k = .storing m)
    (hdone : ∀ m, s.status k = .storing m → m ∈ s'.data.threadHandles) : Listed s' := by
  have hother : ∀ j, j ≠ k → s'.status j = s.status j := fun j hj => by
    rw [hstatus, Function.update_of_ne hj]
  have hself : s'.status k = x := by
    rw [hstatus, Function.update_self]
  constructor
  · intro j hj
    exact hm.started (h.born j (hnext ▸ hj))
  · intro m hm'
    refine hm.started ?_
    rcases hmore m hm' with hmem | hstoring
    · exact h.stored m hmem
    · exact h.storing k m hstoring
  · intro e hs hd m hm'
    exact hm.started (h.taken e hs (hdropper ▸ hd) m hm')
  · intro j m hj
    by_cases hjk : j = k
    · subst hjk
      exact absurd (hself.symm.trans hj) (hx m)
    · exact hm.started (h.storing j m (hother j hjk ▸ hj))
  · intro hd j hj
    have hborn : s.status j ≠ .unborn := by
      by_cases hjk : j = k
      · rwa [hjk]
      · rwa [hother j hjk] at hj
    rcases h.complete (hdropper ▸ hd) j hborn with hmem | ⟨i, hi⟩
    · exact Or.inl (hkeep j hmem)
    · by_cases hik : i = k
      · exact Or.inl (hdone j (hik ▸ hi))
      · exact Or.inr ⟨i, (hother i hik).trans hi⟩

/-- **Step lemma.** -/
theorem Listed.step {n : ℕ} (h : Listed s) (hb : Balanced n s) (hm : Move s a s') : Listed s' := by
  have hm' := hm
  cases hm with
  | begin hi he =>
    refine ⟨h.born, h.stored, ?_, h.storing, ?_⟩
    · rintro e hs ⟨⟩
    · rintro ⟨⟩
  | shutdown hd | panic hd | reset hd | release hd | abandon hd =>
    refine ⟨h.born, h.stored, ?_, h.storing, ?_⟩
    · rintro e hs ⟨⟩
    · rintro ⟨⟩
  | drain hd =>
    refine ⟨h.born, ?_, ?_, h.storing, ?_⟩
    · rintro m ⟨⟩
    · rintro e hs ⟨⟩
      exact h.stored
    · rintro ⟨⟩
  | join hd he ht =>
    refine ⟨h.born, h.stored, ?_, h.storing, ?_⟩
    · rintro e hs ⟨⟩ m hmem
      exact h.taken _ _ hd m (List.mem_cons_of_mem _ hmem)
    · rintro ⟨⟩
  | exit hk hs =>
    exact h.update hm' (by rw [hk.1]; simp) (by simp) rfl rfl rfl (fun _ => id) (fun _ => Or.inl)
      (by rw [hk.1]; simp)
  | unwind hk =>
    exact h.update hm' (by rw [hk.1]; simp) (by simp) rfl rfl rfl (fun _ => id) (fun _ => Or.inl)
      (by rw [hk.1]; simp)
  | upgrade hk hs | orphan hk hs | count hk | terminate hk =>
    exact h.update hm' (by rw [hk]; simp) (by simp) rfl rfl rfl (fun _ => id) (fun _ => Or.inl)
      (by rw [hk]; simp)
  | @store k m hk =>
    refine h.update (x := .ending) hm' (by rw [hk]; simp) (by simp) rfl rfl rfl
      (fun i hi => List.mem_append_left _ hi) (fun i hi => ?_) (fun i hi => ?_)
    · refine (List.mem_append.mp hi).imp_right fun hnew => ?_
      rw [hk, List.mem_singleton.mp hnew]
    · rw [hk] at hi
      cases hi
      exact List.mem_append_right _ (List.mem_singleton_self _)
  | @spawn k hk =>
    have hne : k ≠ s.next := (hb.lt (by rw [hk]; simp)).ne
    have hunborn : s.status s.next = .unborn := hb.numbered s.next le_rfl
    have hstarted : ∀ j, s.status j ≠ .unborn → _ := fun j hj => hm'.started hj
    have hself : Function.update (Function.update s.status s.next Status.running) k
        (.storing s.next) k = .storing s.next := Function.update_self _ _ _
    have hnext : Function.update (Function.update s.status s.next Status.running) k
        (.storing s.next) s.next = .running := by
      rw [Function.update_of_ne hne.symm, Function.update_self]
    have hother : ∀ j, j ≠ k → j ≠ s.next →
        Function.update (Function.update s.status s.next Status.running) k (.storing s.next) j =
          s.status j := by
      intro j hjk hjn
      rw [Function.update_of_ne hjk, Function.update_of_ne hjn]
    refine ⟨?_, fun m hmem => hstarted m (h.stored m hmem),
      fun e hs hd m hmem => hstarted m (h.taken e hs hd m hmem), ?_, ?_⟩
    · intro j hj
      dsimp only at hj
      by_cases hjn : j = s.next
      · subst hjn
        intro hnone
        cases hnext.symm.trans hnone
      · exact hstarted j (h.born j (by omega))
    · intro j m hj
      by_cases hjk : j = k
      · subst hjk
        cases hself.symm.trans hj
        intro hnone
        cases hnext.symm.trans hnone
      · by_cases hjn : j = s.next
        · subst hjn
          cases hnext.symm.trans hj
        · exact hstarted m (h.storing j m ((hother j hjk hjn).symm.trans hj))
    · intro hd j hj
      by_cases hjn : j = s.next
      · subst hjn
        exact Or.inr ⟨k, hself⟩
      · have hborn : s.status j ≠ .unborn := by
          by_cases hjk : j = k
          · rw [hjk, hk]
            simp
          · exact fun hnone => hj ((hother j hjk hjn).trans hnone)
        refine (h.complete hd j hborn).imp_right ?_
        rintro ⟨i, hi⟩
        have hik : i ≠ k := by
          rintro rfl
          cases hk.symm.trans hi
        have hin : i ≠ s.next := by
          rintro rfl
          cases hunborn.symm.trans hi
        exact ⟨i, (hother i hik hin).trans hi⟩

/-- Every handle belongs to a thread in every run. -/
theorem Listed.of_reachable (h : (machine workers).Reachable s) : Listed s := by
  refine h.invariant ?_ ?_
  · rintro _ rfl
    have hstart : ∀ k, (State.start workers).status k =
        if k < clamp workers 1 MAX_THREADS then .running else .unborn := fun _ => rfl
    refine ⟨fun k hk => ?_, fun k hk => ?_, fun e hs hd => ?_, fun k m hk => ?_,
      fun _ k hk => Or.inl ?_⟩
    · have hlt : k < clamp workers 1 MAX_THREADS := hk
      rw [hstart, if_pos hlt]
      simp
    · rw [hstart, if_pos (List.mem_range.mp hk)]
      simp
    · cases hd
    · rw [hstart] at hk
      split at hk <;> cases hk
    · refine List.mem_range.mpr ?_
      by_contra hge
      exact hk (if_neg hge)
  · intro s a s' hr hs _ hstep
    exact hs.step (.of_reachable hr) (.of_step hstep)

/-! ## What is left when a pool comes to rest -/

/-- Where only the surroundings can act, no thread is at work but in its loop. -/
lemma status_of_settled (hs : Settled (machine workers) (fun _ _ => True) Action.isGiven s)
    (k : ℕ) : s.status k = .unborn ∨ s.status k = .running ∨ s.status k = .terminated := by
  have hnone : s.advance k = none := hs (.advance k) trivial rfl
  unfold State.advance at hnone
  cases hk : s.status k with
  | unborn | running | terminated => simp
  | unwinding =>
    simp only [hk] at hnone
    split at hnone <;> cases hnone
  | counting | spawning | storing m | ending =>
    simp only [hk] at hnone
    cases hnone

/-- After shutdown a worker that is still in its loop executes the drop. -/
lemma executes_of_settled (hs : Settled (machine workers) (fun _ _ => True) Action.isGiven s)
    (hset : s.shutdown = true) {k : ℕ} (hk : s.status k = .running) :
    s.dropper.executes k = true := by
  by_contra hnot
  have hnone : s.step (.exit k) = none := hs (.exit k) trivial rfl
  have hloop : s.inLoop k := ⟨hk, Bool.eq_false_of_not_eq_true hnot⟩
  simp [State.step, hloop, hset] at hnone

/-- Where only the surroundings can act, the drop has not begun, is over, or waits for a handle. -/
lemma dropper_of_settled (hs : Settled (machine workers) (fun _ _ => True) Action.isGiven s) :
    s.dropper = .idle ∨ s.dropper = .released ∨
      ∃ e h hs, s.dropper = .joining e (h :: hs) ∧ e ≠ some h ∧ s.status h ≠ .terminated := by
  have hnone : s.dropStep = none := hs .drop trivial rfl
  unfold State.dropStep at hnone
  cases hd : s.dropper with
  | idle => exact Or.inl rfl
  | released => exact Or.inr (Or.inl rfl)
  | begun e | shut e | panicked k | returned e =>
    simp only [hd] at hnone
    cases hnone
  | joining e hs =>
    cases hs with
    | nil =>
      simp only [hd] at hnone
      cases hnone
    | cons h hs =>
      simp only [hd] at hnone
      split at hnone
      · cases hnone
      · split at hnone
        · cases hnone
        · exact Or.inr (Or.inr ⟨e, h, hs, rfl, ‹_›, ‹_›⟩)

/-- Only the release of the last owner begins a drop. -/
lemma Move.idle_iff (hm : Move s a s') (ha : a.isGiven = false) :
    s.dropper = .idle ↔ s'.dropper = .idle := by
  cases hm
  case begin => cases ha
  case shutdown hd | drain hd | join hd _ _ | panic hd | reset hd | release hd | abandon hd =>
    simp [hd]
  all_goals exact Iff.rfl

/-- The drop of a pool left to itself does not begin. -/
lemma idle_of_alone
    (hl : (machine workers).Leads (alone (fun _ _ => True) Action.isGiven) s t) :
    s.dropper = .idle ↔ t.dropper = .idle := by
  induction hl with
  | refl => exact Iff.rfl
  | tail _ hok hstep ih => exact ih.trans ((Move.of_step hstep).idle_iff hok.2)

/-- Nothing owns the data of a dropped pool whose threads have ended. -/
lemma Balanced.strong_of_ended {n : ℕ} (hb : Balanced n t) (hd : t.dropper = .released)
    (hended : ∀ k, t.status k = .unborn ∨ t.status k = .terminated) : t.strong = 0 := by
  have howners : t.total Status.owns = 0 := by
    unfold State.total tallyBelow
    refine Finset.sum_eq_zero fun k _ => ?_
    rcases hended k with hk | hk
    all_goals
      rw [hk]
      rfl
  rw [hb.strong, hd, howners]
  rfl

/-- **Lost workers are replaced.**  From every state of a pool that is owned, whatever workers have
unwound and however far their sentries have come, the pool left to itself comes to rest within
a bounded number of steps; and whichever steps it takes, it has then as many live workers as
it was built with, and all of them are on the list of the handles. -/
theorem strength_restored (h : (machine workers).Reachable s) (hd : s.dropper = .idle) :
    (∃ t, (machine workers).Leads (alone (fun _ _ => True) Action.isGiven) s t ∧
      Settled (machine workers) (fun _ _ => True) Action.isGiven t) ∧
    (∀ as t, (machine workers).Meets (alone (fun _ _ => True) Action.isGiven) s as →
      (machine workers).exec s as = some t → as.length ≤ endWork s) ∧
    ∀ t, (machine workers).Leads (alone (fun _ _ => True) Action.isGiven) s t →
      Settled (machine workers) (fun _ _ => True) Action.isGiven t →
      t.live = clamp workers 1 MAX_THREADS ∧
        ∀ k, t.status k = .running → k ∈ t.data.threadHandles := by
  refine ⟨exists_settled endWork_potential h, fun as t hm hexec => ?_, fun t hl ht => ?_⟩
  · exact exec_length_le_of_alone endWork_potential h hm hexec
  · have hreach := h.leads hl.of_alone
    have hidle := (idle_of_alone hl).mp hd
    have hb := Balanced.of_reachable hreach
    have hsettled : t.Settled := fun k hk => by
      rcases status_of_settled ht k with hnone | hstatus
      · exact absurd hnone ((Listed.of_reachable hreach).born k hk)
      · exact hstatus
    refine ⟨hsettled.total_eq.1.symm.trans (hb.mans (hb.idle hidle)), fun k hk => ?_⟩
    refine ((Listed.of_reachable hreach).complete hidle k (by rw [hk]; simp)).resolve_right ?_
    rintro ⟨j, hj⟩
    rcases status_of_settled ht j with hstatus | hstatus | hstatus
    all_goals
      rw [hj] at hstatus
      cases hstatus

/-- A pool whose drop has begun and that has come to rest is gone: what the drop would wait for is
a worker in its loop, which can leave it. -/
theorem released_of_settled (h : (machine workers).Reachable t) (hd : t.dropper ≠ .idle)
    (ht : Settled (machine workers) (fun _ _ => True) Action.isGiven t) :
    t.dropper = .released ∧ ∀ k, t.status k = .unborn ∨ t.status k = .terminated := by
  have hb := Balanced.of_reachable h
  rcases dropper_of_settled ht with hidle | hreleased | ⟨e, k, hs, hjoin, he, hk⟩
  · exact absurd hidle hd
  · have hset := hb.shut_of_drop (by simp [hreleased]) (by simp [hreleased])
    refine ⟨hreleased, fun k => ?_⟩
    rcases status_of_settled ht k with hstatus | hstatus | hstatus
    · exact Or.inl hstatus
    · have hexecutes := executes_of_settled ht hset hstatus
      rw [hreleased] at hexecutes
      cases hexecutes
    · exact Or.inr hstatus
  · have hset := hb.shut_of_drop (by simp [hjoin]) (by simp [hjoin])
    have hstarted := (Listed.of_reachable h).taken e _ hjoin k List.mem_cons_self
    have hrunning : t.status k = .running := by
      rcases status_of_settled ht k with hstatus | hstatus | hstatus
      · exact absurd hstatus hstarted
      · exact hstatus
      · exact absurd hstatus hk
    have hexecutes := executes_of_settled ht hset hrunning
    rw [hjoin] at hexecutes
    exact absurd (by simpa [Dropper.executes] using hexecutes) he

/-- **The drop ends.**  From every state in which the drop of the pool has begun, the pool left to
itself comes to rest within a bounded number of steps; and whichever steps it takes, then the
data are released and every thread the pool ever started has terminated. -/
theorem drop_ends (h : (machine workers).Reachable s) (hd : s.dropper ≠ .idle) :
    (∃ t, (machine workers).Leads (alone (fun _ _ => True) Action.isGiven) s t ∧
      Settled (machine workers) (fun _ _ => True) Action.isGiven t) ∧
    (∀ as t, (machine workers).Meets (alone (fun _ _ => True) Action.isGiven) s as →
      (machine workers).exec s as = some t → as.length ≤ endWork s) ∧
    ∀ t, (machine workers).Leads (alone (fun _ _ => True) Action.isGiven) s t →
      Settled (machine workers) (fun _ _ => True) Action.isGiven t →
      t.dropper = .released ∧ t.strong = 0 ∧
        ∀ k, t.status k = .unborn ∨ t.status k = .terminated := by
  refine ⟨exists_settled endWork_potential h, fun as t hm hexec => ?_, fun t hl ht => ?_⟩
  · exact exec_length_le_of_alone endWork_potential h hm hexec
  · have hreach := h.leads hl.of_alone
    have hbegun : t.dropper ≠ .idle := fun hidle => hd ((idle_of_alone hl).mpr hidle)
    obtain ⟨hreleased, hended⟩ := released_of_settled hreach hbegun ht
    have hstrong := (Balanced.of_reachable hreach).strong_of_ended hreleased hended
    exact ⟨hreleased, hstrong, hended⟩

/-- One of two workers has unwound and its sentry has counted the replacement. -/
def halfReplaced : State :=
  (machine 2).final (.start 2) ([.unwind 0] ++ List.replicate 2 (.advance 0)) (by decide)

lemma halfReplaced_reachable : (machine 2).Reachable halfReplaced := .final rfl _

/-- One worker is left there; the pool comes back to two. -/
theorem strength_restored_replaced :
    halfReplaced.live = 1 ∧ halfReplaced.status 0 = .spawning ∧
      (∃ t, (machine 2).Leads (alone (fun _ _ => True) Action.isGiven) halfReplaced t ∧
        Settled (machine 2) (fun _ _ => True) Action.isGiven t) ∧
      ∀ t, (machine 2).Leads (alone (fun _ _ => True) Action.isGiven) halfReplaced t →
        Settled (machine 2) (fun _ _ => True) Action.isGiven t → t.live = 2 := by
  obtain ⟨hexists, -, hends⟩ := strength_restored halfReplaced_reachable (by decide)
  exact ⟨by decide, by decide, hexists, fun t hl ht => (hends t hl ht).1⟩

/-- The same pool when its last owner is released and the list of handles has been taken. -/
def halfDropped : State :=
  (machine 2).final halfReplaced [.begin none, .drop, .drop] (by decide)

/-- The drop does not join the replacement, which terminates all the same. -/
theorem drop_ends_replaced :
    halfDropped.dropper = .joining none [0, 1] ∧ halfDropped.next = 2 ∧
      ∀ t, (machine 2).Leads (alone (fun _ _ => True) Action.isGiven) halfDropped t →
        Settled (machine 2) (fun _ _ => True) Action.isGiven t →
        t.dropper = .released ∧ ∀ k, t.status k = .unborn ∨ t.status k = .terminated := by
  have hreach : (machine 2).Reachable halfDropped :=
    halfReplaced_reachable.leads (.of_exec (meets_true _ _) (exec_final _ _ _))
  obtain ⟨-, -, hends⟩ := drop_ends hreach (by decide)
  refine ⟨by decide, by decide, fun t hl ht => ?_⟩
  obtain ⟨hreleased, -, hended⟩ := hends t hl ht
  exact ⟨hreleased, hended⟩

end Lifecycle

end AffinityPool
