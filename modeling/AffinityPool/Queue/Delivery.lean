import AffinityPool.Queue.Counters
import AffinityPool.Queue.WakeCheck

/-!
# Exactly-once delivery

The runnables pushed so far are those returned, those stored and those a worker has taken in
its armed scan and is about to return; the middle of a steal never shows.  And the wake
checks deliver: as long as an injector holds a runnable, its push is still at its wake check,
or some push is about to signal, or some worker is on its way to this injector (`Attended`).
So a queue whose workers are all asleep is empty (`delivered`).
-/

namespace AffinityPool

open Transition System

variable {q : Shape} {P R : Type}

namespace State

/-- The runnables taken in an armed scan and not returned yet. -/
def inHand [Fintype P] (s : State q P R) : Multiset R := tally Pc.inHand s.pc

/-- No push is in progress, and every worker is in the wait without a signal. -/
def Quiescent (s : State q P R) : Prop :=
  (∀ t, (s.pc t).isPush = false) ∧ ∀ w, .inl w ∈ s.mem.waiters

/-- The push of `r` into the injector `i` has not finished its wake check. -/
def Checking (s : State q P R) (i : q.Shard) (r : R) : Prop :=
  ∃ t k u, s.pc t = .push k ⟨r, .injector i⟩ u ∧ u ≠ .unlock

/-- The worker `w` is awake or signalled, and still has to pass the injector `i`. -/
def Attends (s : State q P R) (i : q.Shard) (w : q.Worker) : Prop :=
  .inl w ∉ s.mem.waiters ∧ (s.pc (.inl w)).past (.injector i) = 0

end State

/-- Every runnable in an injector has a wake check or a worker to come. -/
def Attended [Fintype P] (s : State q P R) : Prop :=
  ∀ i, ∀ r ∈ s.mem.store.injectors i,
    s.Checking i r ∨ 0 < tally Pc.notifies s.pc ∨ ∃ w, s.Attends i w

section Step

variable [DecidableEq P] {t : Thread q P} {c : Choice q P R} {m m' : Mem q P R} {pc pc' : Pc q R}

/-- A thread enters the wait set by its own step only. -/
lemma Move.mem_waiters (hm : Move t c m pc m' pc') {u : Thread q P} (hu : u ∈ m'.waiters) :
    u ∈ m.waiters ∨ u = t ∧ pc = .wait := by
  cases hm
  case wait =>
    rcases Finset.mem_insert.mp hu with rfl | hu
    · exact Or.inr ⟨rfl, rfl⟩
    · exact Or.inl hu
  case notifyOne k x v hv => exact Or.inl (Finset.mem_of_mem_erase hu)
  case notifyAll k => cases hu
  case stir hw => exact Or.inl (Finset.mem_of_mem_erase hu)
  all_goals exact Or.inl hu

/-- A push that signals takes one waiter out of the wait set, if there is one. -/
lemma Move.notify_next {k : Caller R} {x : Pushed q R}
    (hm : Move t c m (.push k x .notifyOne) m' pc') :
    pc' = .push k x .unlock ∧ (m.waiters = ∅ ∧ m' = m ∨
      ∃ w ∈ m.waiters, m' = { m with waiters := m.waiters.erase w }) := by
  cases hm
  case notifyNone h => exact ⟨rfl, Or.inl ⟨h, rfl⟩⟩
  case notifyOne w h => exact ⟨rfl, Or.inr ⟨w, h, rfl⟩⟩

/-- A wake check goes on, gives up or signals. -/
lemma Move.push_next {k : Caller R} {x : Pushed q R} {u : PushStage}
    (hm : Move t c m (.push k x u) m' pc') (hu : u ≠ .unlock) :
    (∃ u', pc' = .push k x u' ∧ u' ≠ .unlock) ∨ (Pc.push k x u : Pc q R).GivesUp x pc' ∨
      u = .notifyOne := by
  cases hm
  case skip p h => exact Or.inr (Or.inl ⟨k, p, Or.inl ⟨rfl, rfl⟩⟩)
  case decline p h => exact Or.inr (Or.inl ⟨k, p, Or.inr ⟨rfl, rfl⟩⟩)
  case notifyNone h | notifyOne w h => exact Or.inr (Or.inr rfl)
  case pushUnlock => exact absurd rfl hu
  all_goals exact Or.inl ⟨_, rfl, by simp⟩

end Step

section Preservation

variable {s : State q P R} {t : Thread q P} {c : Choice q P R} {m' : Mem q P R} {pc' : Pc q R}

/-- A step keeps every other thread's wake check. -/
lemma State.Checking.step [DecidableEq P] {i : q.Shard} {r : R} {u : Thread q P} {k : Caller R}
    {st : PushStage}
    (hu : s.pc u = .push k ⟨r, .injector i⟩ st) (hst : st ≠ .unlock) (hut : u ≠ t) :
    State.Checking (⟨m', Function.update s.pc t pc'⟩ : State q P R) i r :=
  ⟨u, k, st, by rw [← hu]; exact Function.update_of_ne hut _ _, hst⟩

variable [Fintype P]

/-- Where nobody has passed an injector and nobody waits, every worker attends to it. -/
lemma State.exists_attends {i : q.Shard} (hpast : tally (Pc.past (.injector i)) s.pc = 0)
    (hw : s.mem.waiters = ∅) : ∃ w, s.Attends i w := by
  obtain ⟨w⟩ := (inferInstance : Nonempty q.Worker)
  refine ⟨w, ?_, tally_eq_zero_iff.mp hpast (.inl w)⟩
  rw [hw]
  exact Finset.notMem_empty _

variable [DecidableEq P]

/-- A worker that attends to an injector with a runnable goes on attending. -/
lemma State.Attends.step (hs : Storage s) (hm : Move t c s.mem (s.pc t) m' pc') {i : q.Shard}
    {w : q.Worker} {r : R} (hr : r ∈ s.mem.store.injectors i) (hw : s.Attends i w) :
    State.Attends (⟨m', Function.update s.pc t pc'⟩ : State q P R) i w := by
  obtain ⟨hwait, hpast⟩ := hw
  refine ⟨fun hmem => ?_, ?_⟩
  · rcases hm.mem_waiters hmem with hold | ⟨rfl, hpc⟩
    · exact hwait hold
    · rw [hpc] at hpast
      cases hpast
  · by_cases hwt : (.inl w : Thread q P) = t
    · subst hwt
      simp only [Function.update_self]
      have hr' : r ∈ s.mem.store.queue (.injector i) := hr
      exact Nat.le_zero.mp (hpast ▸ hs.past_le hm hr')
    · simp only [Function.update_of_ne hwt]
      exact hpast

/-- A push that is about to signal leaves a worker that attends to every injector. -/
lemma Handshake.attends_of_notify (hh : Handshake s) (hk : Kinds s) {k : Caller R}
    {x : Pushed q R} (hpc : s.pc t = .push k x .notifyOne) (hm : Move t c s.mem (s.pc t) m' pc')
    (i : q.Shard) : ∃ w, State.Attends (⟨m', Function.update s.pc t pc'⟩ : State q P R) i w := by
  rw [hpc] at hm
  obtain ⟨hpc', ⟨hnone, rfl⟩ | ⟨u, hu, rfl⟩⟩ := hm.notify_next
  · refine State.exists_attends ?_ hnone
    have hone := hh.past_add_le_one (.injector i)
    have hnotifies := le_tally Pc.notifies s.pc t
    have hpast := tally_update (Pc.past (.injector i)) s.pc t pc'
    rw [hpc] at hnotifies hpast
    subst hpc'
    simp only [Pc.notifies, Pc.past] at hnotifies hpast
    dsimp only
    omega
  · have hwait := hh.waiting u hu
    obtain ⟨w, rfl⟩ := hh.exists_worker hk hu
    have hut : (.inl w : Thread q P) ≠ t := by
      rintro rfl
      rw [hwait] at hpc
      cases hpc
    refine ⟨w, Finset.notMem_erase _ _, ?_⟩
    simp only [Function.update_of_ne hut]
    rw [hwait]
    rfl

/-- **Step lemma.**  A step keeps every runnable in an injector attended. -/
theorem Attended.step (ha : Attended s) (hk : Kinds s) (hh : Handshake s) (hw : WakeCheck s)
    (hs : Storage s) (hm : Move t c s.mem (s.pc t) m' pc')
    (hh' : Handshake ⟨m', Function.update s.pc t pc'⟩) :
    Attended ⟨m', Function.update s.pc t pc'⟩ := by
  intro i r hr
  have hr' : r ∈ m'.store.queue (.injector i) := hr
  rcases hm.mem_queue hr' with hold | @⟨k, x, hpc, rfl, hinto, hitem⟩ | ⟨-, -, -, -, hv, -⟩
  · rcases ha i r hold with ⟨u, k, st, hu, hst⟩ | hnotifies | ⟨w, hw⟩
    · by_cases hut : u = t
      · subst hut
        have hnext := hm
        rw [hu] at hnext
        rcases hnext.push_next hst with ⟨st', rfl, hst'⟩ | hg | rfl
        · exact Or.inl ⟨u, k, st', Function.update_self _ _ _, hst'⟩
        · -- the push gives up: nobody has passed the injector
          rw [← hu] at hg
          obtain ⟨hpast, hcard⟩ := hw.quiet hh hh' hm hg hold
          rcases Nat.eq_zero_or_pos (tally Pc.notifies (Function.update s.pc u pc')) with hn | hn
          · rw [hn, Nat.le_zero, Finset.card_eq_zero] at hcard
            exact Or.inr (Or.inr (State.exists_attends hpast hcard))
          · exact Or.inr (Or.inl hn)
        · exact Or.inr (Or.inr (hh.attends_of_notify hk hu hm i))
      · exact Or.inl (State.Checking.step hu hst hut)
    · obtain ⟨u, hu⟩ := exists_pos_of_tally_pos hnotifies
      obtain ⟨k, x, hpc⟩ := Pc.exists_of_notifies_pos hu
      by_cases hut : u = t
      · subst hut
        exact Or.inr (Or.inr (hh.attends_of_notify hk hpc hm i))
      · refine Or.inr (Or.inl (lt_of_lt_of_le hu ?_))
        have hle := le_tally Pc.notifies (Function.update s.pc t pc') u
        rwa [Function.update_of_ne hut] at hle
    · exact Or.inr (Or.inr ⟨w, hw.step hs hm hold⟩)
  · subst hitem
    refine Or.inl ⟨t, k, .loadParked, ?_, by simp⟩
    simp only [Function.update_self]
    rw [hinto]
  · cases hv

end Preservation

/-! ## Runs -/

section Quiescence

variable [Fintype P] {s : State q P R}

/-- A quiescent queue is empty. -/
lemma Attended.queue_eq_nil (ha : Attended s) (hh : Handshake s) (hs : Storage s)
    (hq : s.Quiescent) (v : Victim q) : s.mem.store.queue v = [] := by
  cases v with
  | injector i =>
    refine List.eq_nil_iff_forall_not_mem.mpr fun r hr => ?_
    rcases ha i r hr with ⟨t, k, u, ht, -⟩ | hn | ⟨w, hw⟩
    · have hpush := hq.1 t
      rw [ht] at hpush
      cases hpush
    · obtain ⟨t, ht⟩ := exists_pos_of_tally_pos hn
      obtain ⟨k, x, hpc⟩ := Pc.exists_of_notifies_pos ht
      have hpush := hq.1 t
      rw [hpc] at hpush
      cases hpush
    · exact hw.1 (hq.2 w)
  | peer w =>
    refine hs.drained w ?_
    rw [hh.waiting _ (hq.2 w)]
    rfl

/-- Only workers have a runnable in hand. -/
lemma Kinds.inHand_eq_zero (hk : Kinds s) (h : ∀ w, (s.pc (.inl w)).inHand = 0) :
    s.inHand = 0 := by
  refine tally_eq_zero ?_
  rintro (w | p)
  · exact h w
  · have hkind := hk (.inr p)
    revert hkind
    cases s.pc (.inr p) <;> first | exact fun _ => rfl | exact fun h => by cases h

/-- No runnable is returned twice. -/
lemma Storage.returned_nodup (hs : Storage s) : s.mem.returned.Nodup := by
  have hle : (s.mem.returned : Multiset R) ≤ s.mem.pushed := by
    rw [hs.conserved, add_assoc]
    exact Multiset.le_add_right _ _
  exact Multiset.coe_nodup.mp (Multiset.nodup_of_le hle (Multiset.coe_nodup.mpr hs.nodup))

/-- Where nothing is stored and nothing in hand, everything has been returned. -/
lemma Storage.pushed_perm (hs : Storage s) (hempty : ∀ v, s.mem.store.queue v = [])
    (hhand : s.inHand = 0) : s.mem.pushed.Perm s.mem.returned := by
  have hitems : s.mem.store.items = 0 := by
    refine Multiset.eq_zero_of_forall_notMem fun r hr => ?_
    obtain ⟨v, hv⟩ := Store.mem_items.mp hr
    rw [hempty v] at hv
    cases hv
  have hconserved : (s.mem.pushed : Multiset R) =
      s.mem.returned + s.mem.store.items + s.inHand := hs.conserved
  refine Multiset.coe_eq_coe.mp ?_
  rw [hconserved, hitems, hhand, add_zero, add_zero]

end Quiescence

section Runs

variable [Fintype P] [DecidableEq P] [DecidableEq R] {s : State q P R}

/-- In every run the runnables in the injectors are attended. -/
theorem Attended.of_reachable (h : (machine q P R).Reachable s) : Attended s := by
  refine h.invariant ?_ ?_
  · rintro _ rfl i r hr
    cases hr
  · intro s a s' hr ha hok hs
    have hh' := Handshake.of_reachable (hr.step hok hs)
    obtain ⟨m, pc, hm, rfl⟩ := State.step_cases hs
    exact ha.step (.of_reachable hr) (.of_reachable hr) (.of_reachable hr) (.of_reachable hr) hm hh'

/-- **Exactly-once delivery.**  In every reachable state the runnables pushed are those
returned, those stored and those in hand, and none is returned twice; in a quiescent state
nothing is stored and every runnable pushed has been returned. -/
theorem delivered_exactly_once (h : (machine q P R).Reachable s) :
    (s.mem.pushed : Multiset R) = s.mem.returned + s.mem.store.items + s.inHand ∧
    s.mem.returned.Nodup ∧
    (s.Quiescent →
      (∀ v, s.mem.store.queue v = []) ∧ s.mem.pushed.Perm s.mem.returned) := by
  have hk := Kinds.of_reachable h
  have hh := Handshake.of_reachable h
  have hs := Storage.of_reachable h
  refine ⟨hs.conserved, hs.returned_nodup, fun hq => ?_⟩
  have hempty := (Attended.of_reachable h).queue_eq_nil hh hs hq
  refine ⟨hempty, hs.pushed_perm hempty (hk.inHand_eq_zero fun w => ?_)⟩
  rw [hh.waiting _ (hq.2 w)]
  rfl

end Runs

/-! ## A runnable in hand -/

/-- A worker arms, a push inserts a runnable, the armed scan steals it. -/
def inHandRun : List (Thread solo Unit × Choice solo Unit ℕ) :=
  goes solo.worker 17 ++ [(.inr (), .spawn 0 0 none), (solo.worker, .go),
    (solo.worker, .steal (.batch 1))]

/-- The state after `inHandRun`. -/
def taken : State solo Unit ℕ :=
  (machine solo Unit ℕ).final (.start solo Unit ℕ) inHandRun (by decide)

/-- Between the steal and the return of `pop_blocking` a runnable is neither stored nor
returned. -/
theorem taken_not_stored :
    ¬ ∀ s, (machine solo Unit ℕ).Reach (fun _ a => a.2 ≠ .close) s →
      (s.mem.pushed : Multiset ℕ) = s.mem.returned + s.mem.store.items := by
  intro hall
  have heq := hall taken (Reach.final rfl (by decide) _)
  exact absurd heq (by decide)

/-- A push, its runnable run to the end, and the worker asleep again. -/
def servedRun : List (Thread solo Unit × Choice solo Unit ℕ) :=
  [(.inr (), .spawn 0 0 none)] ++ goes (.inr ()) 2 ++ goes solo.worker 3 ++
    [(solo.worker, .steal (.batch 1)), (solo.worker, .ret)] ++ goes solo.worker 20

/-- The state after `servedRun`. -/
def served : State solo Unit ℕ :=
  (machine solo Unit ℕ).final (.start solo Unit ℕ) servedRun (by decide)

/-- In that state the runnable has been returned. -/
theorem delivered_of_served :
    served.mem.pushed = [0] ∧ served.mem.pushed.Perm served.mem.returned := by
  have hquiet : served.Quiescent := ⟨by decide, by decide⟩
  exact ⟨by decide, ((delivered_exactly_once (Reachable.final rfl _)).2.2 hquiet).2⟩

end AffinityPool
