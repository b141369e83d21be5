import AffinityPool.Queue.Drain

/-!
# Shutdown leaves no sleeper

`Queue::shutdown` stores the flag before it takes `park`, and a worker reads the flag while it
holds `park` and goes on to wait without releasing it.  So a worker that has decided to wait
is in the wait set when the broadcast runs, and a worker that has not will read the flag
(`Closing`).  From the broadcast on the wait set is empty and stays empty (`Awake`).
-/

namespace AffinityPool

open Transition System

variable {q : Shape} {P R : Type}

/-- The flag is set, nobody is in the wait set and nobody is about to enter it. -/
structure Awake (s : State q P R) : Prop where
  shutdown : s.mem.shutdown = true
  waiters : s.mem.waiters = ∅
  wait : ∀ u, s.pc u ≠ .wait

/-- A shutdown call past its store has set the flag, and past its broadcast it has woken every
worker. -/
structure Closing (s : State q P R) : Prop where
  shutdown : ∀ t k cs, s.pc t = .close k cs → s.mem.shutdown = true
  awake : ∀ t k, s.pc t = .close k .unlock → Awake s

section Step

variable [DecidableEq P] {t : Thread q P} {c : Choice q P R} {m m' : Mem q P R} {pc pc' : Pc q R}

/-- A worker decides to wait when it reads the flag unset. -/
lemma Move.eq_wait (hm : Move t c m pc m' pc') (h : pc' = .wait) : m.shutdown = false := by
  cases hm
  case stay hs => exact hs
  all_goals cases h

/-- A worker enters the condvar wait from its decision to wait. -/
lemma Move.eq_waiting (hm : Move t c m pc m' pc') (h : pc' = .waiting) : pc = .wait := by
  cases hm
  case wait => rfl
  all_goals cases h

/-- The wait set grows by a worker that enters the wait. -/
lemma Move.waiters_subset (hm : Move t c m pc m' pc') : pc = .wait ∨ m'.waiters ⊆ m.waiters := by
  cases hm
  case wait => exact Or.inl rfl
  case notifyOne k x u hu => exact Or.inr (Finset.erase_subset _ _)
  case notifyAll k => exact Or.inr (Finset.empty_subset _)
  case stir hw => exact Or.inr (Finset.erase_subset _ _)
  all_goals exact Or.inr (Finset.Subset.refl _)

/-- A shutdown call goes from its store to the mutex, to the broadcast and to the release. -/
lemma Move.close_cases {k : Caller R} {cs : CloseStage} (hm : Move t c m pc m' pc')
    (h : pc' = .close k cs) :
    (m'.shutdown = true ∧ cs = .lock) ∨
      (∃ cs', pc = .close k cs' ∧ m'.shutdown = m.shutdown) ∧
        (cs = .unlock → pc = .close k .notifyAll ∧ m'.waiters = ∅) := by
  cases hm
  case close k' hc =>
    cases h
    exact Or.inl ⟨rfl, rfl⟩
  case closeLock k' hp =>
    cases h
    exact Or.inr ⟨⟨.lock, rfl, rfl⟩, nofun⟩
  case notifyAll k' =>
    cases h
    exact Or.inr ⟨⟨.notifyAll, rfl, rfl⟩, fun _ => ⟨rfl, rfl⟩⟩
  all_goals cases h

variable {s : State q P R}

/-- **Step lemma.**  Once every worker is woken, a step puts nobody to sleep. -/
theorem Awake.step (h : Awake s) (hm : Move t c s.mem (s.pc t) m' pc') :
    Awake ⟨m', Function.update s.pc t pc'⟩ := by
  refine ⟨?_, ?_, ?_⟩
  · rcases hm.shutdown_eq with heq | ⟨-, hset, -⟩
    · exact heq.trans h.shutdown
    · exact hset
  · rcases hm.waiters_subset with hwait | hsub
    · exact absurd hwait (h.wait t)
    · rw [h.waiters] at hsub
      exact Finset.subset_empty.mp hsub
  · intro u hu
    rcases update_cases hu with ⟨-, hpc⟩ | ⟨-, hold⟩
    · have hopen := hm.eq_wait hpc
      rw [h.shutdown] at hopen
      cases hopen
    · exact h.wait u hold

/-- **Step lemma.**  A step keeps what a shutdown call has achieved. -/
theorem Closing.step [Fintype P] (hh : Handshake s) (h : Closing s)
    (hm : Move t c s.mem (s.pc t) m' pc') : Closing ⟨m', Function.update s.pc t pc'⟩ := by
  have hkeep : s.mem.shutdown = true → m'.shutdown = true := by
    intro hset
    rcases hm.shutdown_eq with heq | ⟨-, hset', -⟩
    · exact heq.trans hset
    · exact hset'
  refine ⟨fun v k cs hv => ?_, fun v k hv => ?_⟩
  · rcases update_cases hv with ⟨rfl, hpc⟩ | ⟨-, hold⟩
    · rcases hm.close_cases hpc with ⟨hset, -⟩ | ⟨⟨cs', hold, -⟩, -⟩
      · exact hset
      · exact hkeep (h.shutdown v k cs' hold)
    · exact hkeep (h.shutdown v k cs hold)
  · rcases update_cases hv with ⟨rfl, hpc⟩ | ⟨-, hold⟩
    · rcases hm.close_cases hpc with ⟨-, hcs⟩ | ⟨⟨cs', hold, -⟩, hbroadcast⟩
      · cases hcs
      · obtain ⟨hnotify, hempty⟩ := hbroadcast rfl
        refine ⟨hkeep (h.shutdown v k cs' hold), hempty, fun u hu => ?_⟩
        rcases update_cases hu with ⟨-, hwait⟩ | ⟨huv, hwait⟩
        · rw [hpc] at hwait
          cases hwait
        · -- a worker that is about to wait would hold `park` besides the caller
          have hzero := hh.held_eq_zero (t := v) (by rw [hnotify]; rfl) huv
          rw [hwait] at hzero
          cases hzero
    · exact (h.awake v k hold).step hm

end Step

section Runs

variable [DecidableEq P] [DecidableEq R] {s s' u : State q P R}

/-- The invariant holds in every run. -/
theorem Closing.of_reachable [Fintype P] (h : (machine q P R).Reachable s) : Closing s := by
  refine h.invariant ?_ ?_
  · rintro _ rfl
    constructor
    · rintro (w | p) k cs ht <;> cases ht
    · rintro (w | p) k ht <;> cases ht
  · intro s a s' hr hc _ hs
    obtain ⟨m, pc, hm, rfl⟩ := State.step_cases hs
    exact hc.step (Handshake.of_reachable hr) hm

/-- Once every worker is woken, nobody sleeps again. -/
theorem Awake.leads (h : (machine q P R).Reachable s) (ha : Awake s)
    (hl : (machine q P R).Leads (fun _ _ => True) s u) : Awake u := by
  refine hl.stable h ?_ ha
  intro u a u' _ hu _ hs
  obtain ⟨m, pc, hm, rfl⟩ := State.step_cases hs
  exact hu.step hm

/-- **Shutdown leaves no sleeper.**  After a shutdown call has returned, no worker is in the
condvar wait without a signal, and no step takes a worker into the wait. -/
theorem no_sleeper_after_shutdown [Fintype P] (h : (machine q P R).Reachable s) {t : Thread q P}
    {k : Caller R} {c : Choice q P R} (hpc : s.pc t = .close k .unlock)
    (hs : (machine q P R).step s (t, c) = some s')
    (hl : (machine q P R).Leads (fun _ _ => True) s' u) :
    u.mem.waiters = ∅ ∧ ∀ a u', (machine q P R).step u a = some u' →
      ∀ v, u'.pc v = .waiting → u.pc v = .waiting := by
  have hreturned : Awake s' := by
    obtain ⟨m, pc, hm, rfl⟩ := State.step_cases hs
    exact ((Closing.of_reachable h).awake t k hpc).step hm
  have hawake : Awake u := hreturned.leads (h.step trivial hs) hl
  refine ⟨hawake.waiters, fun a u' hu v hv => ?_⟩
  obtain ⟨m, pc, hm, rfl⟩ := State.step_cases hu
  rcases update_cases hv with ⟨-, hwaiting⟩ | ⟨-, hold⟩
  · exact absurd (hm.eq_waiting hwaiting) (hawake.wait a.1)
  · exact hold

end Runs

/-- The worker falls asleep; a shutdown call broadcasts and is about to return. -/
def closeRun : List (Thread solo Unit × Choice solo Unit ℕ) :=
  goes solo.worker 21 ++ [(.inr (), .close)] ++ goes (.inr ()) 2

/-- The state after `closeRun`. -/
def closing : State solo Unit ℕ :=
  (machine solo Unit ℕ).final (.start solo Unit ℕ) closeRun (by decide)

/-- The state in which that call has returned. -/
def closed : State solo Unit ℕ :=
  ((machine solo Unit ℕ).step closing (.inr (), .go)).get (by decide)

/-- The worker is still in the condvar wait there, with a signal, and it does not come back to
the wait. -/
theorem no_sleeper_after_close :
    closed.pc solo.worker = .waiting ∧ closed.mem.waiters = ∅ ∧
      ∀ a u, (machine solo Unit ℕ).step closed a = some u →
        ∀ v, u.pc v = .waiting → closed.pc v = .waiting := by
  have hpc : closing.pc (.inr ()) = .close .foreign .unlock := by decide
  have hs : (machine solo Unit ℕ).step closing (.inr (), .go) = some closed :=
    (Option.some_get _).symm
  exact ⟨by decide, no_sleeper_after_shutdown (Reachable.final rfl _) hpc hs .refl⟩

end AffinityPool
