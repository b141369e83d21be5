import AffinityPool.Local.DropBlocking

/-!
# Workers that wait for each other

A worker that drops a polled `SpawnFuture` from inside a closure blocks until the runnable
of that future has stopped, and a runnable that is still queued stops only when a worker
takes it.  A peer can do that, but not a peer that is blocked in the same way: when every
worker waits for a queued runnable, the pool is deadlocked, whatever its size
(`deadlock_reachable`).  A deadlock begins with the drop that blocks the last worker, and
with nothing else (`deadlock_from_last_drop`).
-/

namespace AffinityPool

open Transition System

variable {q : Shape} {P R : Type}

/-- The runnable is in an injector or in a deque. -/
def Store.Queued (st : Store q R) (r : R) : Prop := ∃ v, r ∈ st.queue v

/-- The queues are the injectors and the deques. -/
lemma Store.queued_iff {st : Store q R} {r : R} :
    ((∃ i, r ∈ st.injectors i) ∨ ∃ w, r ∈ st.deques w) ↔ st.Queued r := by
  constructor
  · rintro (⟨i, hi⟩ | ⟨w, hw⟩)
    · exact ⟨.injector i, hi⟩
    · exact ⟨.peer w, hw⟩
  · rintro ⟨i | w, hr⟩
    · exact Or.inl ⟨i, hr⟩
    · exact Or.inr ⟨w, hr⟩

instance Store.Queued.decidable [DecidableEq R] (st : Store q R) (r : R) :
    Decidable (st.Queued r) :=
  decidable_of_iff _ Store.queued_iff

/-- A runnable that was pushed before does not come back into a queue. -/
lemma Store.Queued.of_step [DecidableEq P] [DecidableEq R] {s b : State q P R}
    {a : Thread q P × Choice q P R} (hs : s.step a = some b) {r : R} (hr : r ∈ s.mem.pushed)
    (h : b.mem.store.Queued r) : s.mem.store.Queued r := by
  obtain ⟨m, pc, hm, rfl⟩ := State.step_cases hs
  obtain ⟨v, hv⟩ := h
  rcases hm.mem_queue hv with hold | ⟨hpc, rfl, -, hitem⟩ | ⟨-, -, -, -, -, hmoved⟩
  · exact ⟨v, hold⟩
  · rcases hm.push_cases with ⟨u, hpush⟩ | ⟨⟨-, -, -, hnew⟩, -⟩
    · rw [hpc] at hpush
      cases hpush
    · rw [← hitem] at hnew
      exact absurd hr hnew
  · exact ⟨_, List.mem_of_mem_take (List.mem_of_mem_tail hmoved)⟩

namespace Local

namespace State

/-- The worker is blocked in `SpawnFuture::drop` on a runnable that is still queued. -/
def Stuck (s : State q P R) (w : q.Worker) : Prop :=
  match s.act (.inl w) with
  | .cancelling r _ => s.base.mem.store.Queued r
  | _ => False

/-- Every worker is blocked in `SpawnFuture::drop` on a runnable that is still queued. -/
def Deadlocked (s : State q P R) : Prop := ∀ w, s.Stuck w

/-- Some worker is not stuck. -/
def Alive (s : State q P R) : Prop := ∃ w, ¬ s.Stuck w

/-- A worker drops a future whose runnable is still queued only while some other worker is not
blocked on a queued runnable. -/
def SparesPeer (s : State q P R) (a : Thread q P × Choice q P R) : Prop :=
  match a with
  | (.inl w, .drop r) => s.base.mem.store.Queued r → ∃ w', w' ≠ w ∧ ¬ s.Stuck w'
  | _ => True

instance Stuck.decidable [DecidableEq R] (s : State q P R) (w : q.Worker) :
    Decidable (s.Stuck w) := by
  unfold Stuck
  cases s.act (.inl w) with
  | cancelling r parked => exact inferInstanceAs (Decidable (s.base.mem.store.Queued r))
  | _ => exact inferInstanceAs (Decidable False)

instance Deadlocked.decidable [DecidableEq R] (s : State q P R) : Decidable s.Deadlocked :=
  inferInstanceAs (Decidable (∀ w, s.Stuck w))

instance SparesPeer.decidable [DecidableEq R] (s : State q P R) :
    ∀ a, Decidable (s.SparesPeer a)
  | (.inl w, .drop r) => inferInstanceAs
      (Decidable (s.base.mem.store.Queued r → ∃ w', w' ≠ w ∧ ¬ s.Stuck w'))
  | (.inl _, .queue _) | (.inl _, .create _) | (.inl _, .poll _ _ _) | (.inl _, .attempt _)
  | (.inl _, .unpark) | (.inl _, .cancel _) | (.inl _, .begin) | (.inl _, .finish _)
  | (.inr _, _) => inferInstanceAs (Decidable True)

lemma stuck_iff {s : State q P R} {w : q.Worker} :
    s.Stuck w ↔ ∃ r parked, s.act (.inl w) = .cancelling r parked ∧
      s.base.mem.store.Queued r := by
  unfold Stuck
  cases s.act (.inl w) with
  | cancelling r parked =>
    constructor
    · intro h
      exact ⟨r, parked, rfl, h⟩
    · rintro ⟨r', parked', ⟨⟩, h⟩
      exact h
  | _ =>
    constructor
    · nofun
    · rintro ⟨r, parked, ⟨⟩, -⟩

end State

section Step

variable [DecidableEq P] [DecidableEq R] {s s' : State q P R} {t : Thread q P}
  {c : Choice q P R}

/-- A thread is inside `block_on_cancel` since a drop of its own. -/
lemma Move.cancelling_cases (hm : Move s t c s') {u : Thread q P} {r : R} {parked : Bool}
    (hact : s'.act u = .cancelling r parked) :
    (∃ parked', s.act u = .cancelling r parked') ∨ u = t ∧ c = .drop r ∧ s'.base = s.base := by
  cases hm
  case close x f hcall hf hrun htask =>
    rcases update_cases hact with ⟨hu, ha⟩ | ⟨-, hold⟩
    · cases ha
      exact Or.inr ⟨hu, rfl, rfl⟩
    · exact Or.inl ⟨_, hold⟩
  case park x ha | unpark x ha =>
    rcases update_cases hact with ⟨rfl, ha'⟩ | ⟨-, hold⟩
    · cases ha'
      exact Or.inl ⟨_, ha⟩
    · exact Or.inl ⟨_, hold⟩
  case schedule | poll | ready | pending | stopped =>
    rcases update_cases hact with ⟨-, ha⟩ | ⟨-, hold⟩
    · cases ha
    · exact Or.inl ⟨_, hold⟩
  all_goals exact Or.inl ⟨_, hact⟩

/-- A runnable that was pushed before does not come back into a queue. -/
lemma Move.queued_of (hm : Move s t c s') {r : R} (hr : r ∈ s.base.mem.pushed)
    (h : s'.base.mem.store.Queued r) : s.base.mem.store.Queued r := by
  rcases hm.base_eq with hb | ⟨c', hb⟩
  · rwa [hb] at h
  · exact h.of_step hb hr

/-- A worker is stuck since before, or since its own drop of a queued runnable. -/
lemma Sound.stuck_cases (h : Sound s) (hm : Move s t c s') {w : q.Worker} (hw : s'.Stuck w) :
    s.Stuck w ∨ t = .inl w ∧ ∃ r, c = .drop r ∧ s.base.mem.store.Queued r := by
  obtain ⟨r, parked, hact, hqueued⟩ := State.stuck_iff.mp hw
  rcases hm.cancelling_cases hact with ⟨parked', hold⟩ | ⟨ht, hc, hbase⟩
  · have hpushed := (h.cancelling _ r parked' hold).2
    exact Or.inl (State.stuck_iff.mpr ⟨r, parked', hold, hm.queued_of hpushed hqueued⟩)
  · rw [hbase] at hqueued
    exact Or.inr ⟨ht.symm, r, hc, hqueued⟩

/-- The drop of a future whose runnable is queued blocks. -/
lemma Sound.stuck_of_drop [Fintype P] (h : Sound s) (hs : Storage s.base) {w : q.Worker} {r : R}
    (hr : s.base.mem.store.Queued r) (hstep : s.step (.inl w, .drop r) = some s') :
    s'.Stuck w ∧ s'.base = s.base ∧ ∀ u, u ≠ .inl w → s'.act u = s.act u := by
  have hover : (s.task r).exec.isOver = false := by
    by_contra hne
    obtain ⟨v, hv⟩ := hr
    exact (h.quiet hs (Bool.eq_true_of_not_eq_false hne)).unqueued v hv
  have hpushed : r ∈ s.base.mem.pushed := by
    by_contra hnew
    obtain ⟨v, hv⟩ := hr
    exact (hs.absent (Or.inr hnew)).1 v hv
  cases Move.of_step hstep with
  | discard hcall hf hrun => exact absurd hpushed ((h.task r).fresh _ hf hrun).1
  | close hcall hf hrun htask =>
    refine ⟨?_, rfl, fun u hu => Function.update_of_ne hu _ _⟩
    refine State.stuck_iff.mpr ⟨r, false, ?_, hr⟩
    simp [State.setAct]
  | forget hcall hf hrun htask =>
    have hout := (h.task r).resolved _ hf hrun htask
    rw [(h.task r).settled hout] at hover
    cases hover

end Step

section Runs

variable [DecidableEq P] [DecidableEq R] [Fintype P]

/-- While every blocking drop spares a peer, some worker is not stuck. -/
lemma alive_of_reach {s : State q P R} (h : (machine q P R).Reach State.SparesPeer s) :
    s.Alive := by
  refine h.invariant ?_ ?_
  · rintro _ rfl
    obtain ⟨w⟩ := (inferInstance : Nonempty q.Worker)
    exact ⟨w, id⟩
  · rintro s ⟨t, c⟩ s' hr ⟨w, hw⟩ hok hs
    have hsound := Sound.of_reachable hr.reachable
    have hm := Move.of_step hs
    by_contra hnone
    have hall : ∀ w, s'.Stuck w := fun w => not_exists_not.mp hnone w
    rcases hsound.stuck_cases hm (hall w) with hold | ⟨rfl, r, rfl, hqueued⟩
    · exact hw hold
    · obtain ⟨w', hne, hw'⟩ := hok hqueued
      rcases hsound.stuck_cases hm (hall w') with hold | ⟨heq, -⟩
      · exact hw' hold
      · exact hne (Sum.inl_injective heq).symm

/-- **Deadlocks.**  In a run whose blocking drops all spare a peer, no reachable state is
deadlocked; and a drop that spares none leads into a deadlock. -/
theorem deadlock_from_last_drop :
    (∀ s, (machine q P R).Reach State.SparesPeer s → ¬ s.Deadlocked) ∧
      ∀ s a s', (machine q P R).Reachable s → ¬ s.SparesPeer a →
        (machine q P R).step s a = some s' → s'.Deadlocked := by
  constructor
  · intro s h hdead
    obtain ⟨w, hw⟩ := alive_of_reach h
    exact hw (hdead w)
  · rintro s ⟨t, c⟩ s' h hok hs
    have hsound := Sound.of_reachable h
    have hstorage := Storage.of_reachable (base_reachable h)
    unfold State.SparesPeer at hok
    split at hok
    · rename_i w r ha
      cases ha
      obtain ⟨hqueued, hpeers⟩ := Classical.not_imp.mp hok
      obtain ⟨hstuck, hbase, hact⟩ := hsound.stuck_of_drop hstorage hqueued hs
      intro w'
      by_cases hne : w' = w
      · rw [hne]
        exact hstuck
      · have hold : s.Stuck w' := by
          by_contra hw'
          exact hpeers ⟨w', hne, hw'⟩
        obtain ⟨r', parked, hcancel, hr'⟩ := State.stuck_iff.mp hold
        refine State.stuck_iff.mpr ⟨r', parked, ?_, ?_⟩
        · rw [hact _ fun heq => hne (Sum.inl_injective heq)]
          exact hcancel
        · rw [hbase]
          exact hr'
    · exact absurd trivial hok

end Runs

/-! ## A deadlock of two workers -/

/-- The worker polls a new future and drops it; its runnable stays in the worker's own deque. -/
def pollThenDrop (t : Thread q P) (r : R) : List (Thread q P × Choice q P R) :=
  [(t, .create r), (t, .poll r 0 none)] ++ goes t 2 ++
    [(t, .attempt false), (t, .drop r), (t, .attempt false)]

/-- Both workers run a closure of a foreign thread, and worker 0 polls and drops a future. -/
def halfRun : List (Thread duo Unit × Choice duo Unit ℕ) :=
  [(.inr (), .queue (.spawn 1 0 none))] ++ goes (.inr ()) 2 ++
    [(.inr (), .queue (.spawn 2 0 none))] ++ goes (.inr ()) 2 ++
    goes (duo.worker 0 Nat.two_pos) 3 ++
    [(duo.worker 0 Nat.two_pos, .queue (.steal (.batch 1))), (duo.worker 0 Nat.two_pos, .begin)] ++
    goes (duo.worker 1 Nat.one_lt_two) 3 ++
    [(duo.worker 1 Nat.one_lt_two, .queue (.steal (.batch 1))),
      (duo.worker 1 Nat.one_lt_two, .begin)] ++
    pollThenDrop (duo.worker 0 Nat.two_pos) 10

/-- The state after `halfRun`. -/
def half : State duo Unit ℕ :=
  (machine duo Unit ℕ).final (.start duo Unit ℕ) halfRun (by decide +kernel)

/-- Worker 0 is stuck there, worker 1 is not. -/
theorem not_deadlocked_half : half.Stuck ⟨0, by decide⟩ ∧ ¬ half.Deadlocked :=
  ⟨by decide +kernel, deadlock_from_last_drop.1 half (Reach.final rfl (by decide +kernel) _)⟩

/-- Worker 1 polls and drops a future too. -/
def deadlock : State duo Unit ℕ :=
  (machine duo Unit ℕ).final (.start duo Unit ℕ)
    (halfRun ++ pollThenDrop (duo.worker 1 Nat.one_lt_two) 20) (by decide +kernel)

/-- A pool of two workers can deadlock. -/
theorem deadlock_reachable :
    ¬ ∀ (q : Shape) (s : State q Unit ℕ), 2 ≤ q.numWorkers → (machine q Unit ℕ).Reachable s →
      ¬ s.Deadlocked := by
  intro hall
  exact hall duo deadlock (by decide) (Reachable.final rfl _) (by decide +kernel)

end Local

end AffinityPool
