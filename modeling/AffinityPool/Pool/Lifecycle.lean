import AffinityPool.Foundation.TransitionSystem
import AffinityPool.Pool.SpinUp

/-!
# The threads of a pool

The life of a pool from the end of `Threadpool::new` on.  Its worker threads are numbered in
the order in which they are started, and a join handle is the number of its thread.  A worker
may unwind out of `Runnable::run` at any time; its `Sentry` then upgrades its weak reference
and calls `spin_up`, here in separate steps: the count, the start of the replacement, the
store of its handle.  Once the queue is shut down a worker may also leave its loop, which
cancels its sentry.

The last owner of the pool may be released on any thread.  `Threadpool::drop` then shuts the
queue down, takes the stored handles and joins them one after the other, and sets the count
to zero; afterwards the pool gives up its reference to the data.  A thread that joins itself
panics, as the documentation of `JoinHandle::join` has it for the systems that report the
deadlock: the drop unwinds, which drops the handles that are left and the reference to the data.

All thread creations succeed; what happens when they fail is the subject of `spinUp`.
-/

namespace AffinityPool

namespace Lifecycle

open Transition

/-- Where a worker thread is. -/
inductive Status
  /-- The thread has not been started. -/
  | unborn
  /-- In its worker loop. -/
  | running
  /-- Unwinding, before its sentry upgrades the weak reference. -/
  | unwinding
  /-- In `spin_up`, before `thread_count.fetch_add`. -/
  | counting
  /-- In `spin_up`, before `builder.spawn`. -/
  | spawning
  /-- In `spin_up`, before it stores the handle of the replacement. -/
  | storing (h : ℕ)
  /-- Past its sentry. -/
  | ending
  | terminated
  deriving DecidableEq

/-- Where `Threadpool::drop` is, and the worker that executes it, if one does. -/
inductive Dropper
  /-- The pool is owned. -/
  | idle
  | begun (e : Option ℕ)
  /-- The queue is shut down. -/
  | shut (e : Option ℕ)
  /-- The handles that are left to join. -/
  | joining (e : Option ℕ) (hs : List ℕ)
  /-- The drop unwinds out of the join of the thread that executes it. -/
  | panicked (k : ℕ)
  | returned (e : Option ℕ)
  /-- The reference to the data is released too. -/
  | released
  deriving DecidableEq

/-- A state of the pool. -/
structure State where
  data : Data ℕ
  status : ℕ → Status
  /-- The number of threads started so far. -/
  next : ℕ
  /-- The shutdown flag of the queue. -/
  shutdown : Bool
  /-- The owners of the data: the pool and the calls of `spin_up`. -/
  strong : ℕ
  dropper : Dropper

/-- The steps of a pool. -/
inductive Action
  /-- The last owner is released on a worker or on another thread. -/
  | begin (e : Option ℕ)
  /-- The next step of `Threadpool::drop`. -/
  | drop
  /-- The worker's `pop_blocking` returns `None`. -/
  | exit (k : ℕ)
  /-- The worker unwinds out of `Runnable::run`. -/
  | unwind (k : ℕ)
  /-- The next step of a worker that has left its loop. -/
  | advance (k : ℕ)
  deriving DecidableEq

/-- The worker is busy executing `Threadpool::drop`. -/
def Dropper.executes (k : ℕ) : Dropper → Bool
  | .begun e | .shut e | .joining e _ => e = some k
  | .panicked j => j = k
  | _ => false

namespace State

/-- Replace the status of one thread. -/
def setStatus (s : State) (k : ℕ) (x : Status) : State :=
  { s with status := Function.update s.status k x }

/-- The worker is in its loop and not executing `Threadpool::drop`. -/
def inLoop (s : State) (k : ℕ) : Prop := s.status k = .running ∧ s.dropper.executes k = false

instance (s : State) (k : ℕ) : Decidable (s.inLoop k) := inferInstanceAs (Decidable (_ ∧ _))

/-- One step of `Threadpool::drop`. -/
def dropStep (s : State) : Option State :=
  match s.dropper with
  | .idle | .released => none
  | .begun e => some { s with shutdown := true, dropper := .shut e }
  | .shut e =>
    some { s with
      data := { s.data with threadHandles := [] }, dropper := .joining e s.data.threadHandles }
  | .joining e (h :: hs) =>
    if e = some h then some { s with dropper := .panicked h }
    else if s.status h = .terminated then some { s with dropper := .joining e hs }
    else none
  | .joining e [] =>
    some { s with data := { s.data with threadCount := 0 }, dropper := .returned e }
  | .returned _ | .panicked _ => some { s with strong := s.strong - 1, dropper := .released }

/-- One step of a worker thread that has left its loop. -/
def advance (s : State) (k : ℕ) : Option State :=
  match s.status k with
  | .unborn | .running | .terminated => none
  | .unwinding =>
    -- `Weak::upgrade`
    if 0 < s.strong then some { s.setStatus k .counting with strong := s.strong + 1 }
    else some (s.setStatus k .ending)
  | .counting => some { s.setStatus k .spawning with data := s.data.count }
  | .spawning =>
    some { (s.setStatus s.next .running).setStatus k (.storing s.next) with next := s.next + 1 }
  | .storing h =>
    some { s.setStatus k .ending with data := s.data.store h, strong := s.strong - 1 }
  | .ending => some (s.setStatus k .terminated)

/-- One step of the pool. -/
def step (s : State) : Action → Option State
  | .begin e =>
    if s.dropper = .idle ∧ ∀ k ∈ e, s.status k = .running then some { s with dropper := .begun e }
    else none
  | .drop => s.dropStep
  | .exit k => if s.inLoop k ∧ s.shutdown then some (s.setStatus k .ending) else none
  | .unwind k => if s.inLoop k then some (s.setStatus k .unwinding) else none
  | .advance k => s.advance k

/-- The pool `Threadpool::new` returns: one thread for every index, all of them counted and
stored. -/
def start (workers : ℕ) : State where
  data :=
    { name := none, stackSize := none, threadCount := clamp workers 1 MAX_THREADS,
      threadHandles := List.range (clamp workers 1 MAX_THREADS) }
  status k := if k < clamp workers 1 MAX_THREADS then .running else .unborn
  next := clamp workers 1 MAX_THREADS
  shutdown := false
  strong := 1
  dropper := .idle

end State

/-- The life of a pool of the given size as a transition system. -/
def machine (workers : ℕ) : System State Action where
  init s := s = State.start workers
  step := State.step

/-- `Threadpool::new` clamps the number of its workers. -/
lemma clamp_workers (workers : ℕ) :
    0 < clamp workers 1 MAX_THREADS ∧ clamp workers 1 MAX_THREADS ≤ MAX_THREADS := by
  unfold clamp MAX_THREADS
  split
  · omega
  · split <;> omega

/-- Starting the threads of the indices from `k` on. -/
lemma spinUpAll_range (data : Data ℕ) (n : ℕ) (hn : data.threadCount + n < usizeBound) :
    spinUpAll data ((List.range' data.threadCount n).map fun k => (k, k)) =
      some { data with
        threadCount := data.threadCount + n
        threadHandles := data.threadHandles ++ List.range' data.threadCount n } := by
  induction n generalizing data with
  | zero => simp [spinUpAll]
  | succ n ih =>
    have hcount : fetchAdd data.threadCount = data.threadCount + 1 := by
      unfold fetchAdd
      rw [Nat.mod_eq_of_lt (by omega)]
    have hnext := ih (data.count.store data.threadCount) (by
      simp only [Data.store, Data.count, hcount]
      omega)
    simp only [Data.store, Data.count, hcount] at hnext
    rw [List.range'_succ, List.map_cons]
    simp only [spinUpAll, spinUp, Option.bind_some, Data.store, Data.count, hcount]
    rw [hnext]
    simp [Nat.add_assoc, Nat.add_comm 1 n]

/-- The data of a new pool are what the calls of `spin_up` in `Threadpool::new` make of it. -/
theorem start_data (workers : ℕ) :
    spinUpAll ⟨none, none, 0, []⟩
        ((List.range (clamp workers 1 MAX_THREADS)).map fun k => (k, k)) =
      some (State.start workers).data := by
  have hle := (clamp_workers workers).2
  have husize : usizeBound = 18446744073709551616 := rfl
  have hmax : MAX_THREADS = 512 := rfl
  have hrun := spinUpAll_range ⟨none, none, 0, []⟩ (clamp workers 1 MAX_THREADS) (by
    dsimp only
    omega)
  simpa [State.start, List.range_eq_range'] using hrun

/-! ## What one step can do -/

/-- The steps of a pool, with what each of them has found. -/
inductive Move (s : State) : Action → State → Prop
  | begin {e : Option ℕ} (hi : s.dropper = .idle) (he : ∀ k ∈ e, s.status k = .running) :
    Move s (.begin e) { s with dropper := .begun e }
  | shutdown {e : Option ℕ} (hd : s.dropper = .begun e) :
    Move s .drop { s with shutdown := true, dropper := .shut e }
  | drain {e : Option ℕ} (hd : s.dropper = .shut e) :
    Move s .drop
      { s with
        data := { s.data with threadHandles := [] }, dropper := .joining e s.data.threadHandles }
  | join {e : Option ℕ} {h : ℕ} {hs : List ℕ} (hd : s.dropper = .joining e (h :: hs))
      (he : e ≠ some h) (ht : s.status h = .terminated) :
    Move s .drop { s with dropper := .joining e hs }
  | panic {h : ℕ} {hs : List ℕ} (hd : s.dropper = .joining (some h) (h :: hs)) :
    Move s .drop { s with dropper := .panicked h }
  | reset {e : Option ℕ} (hd : s.dropper = .joining e []) :
    Move s .drop { s with data := { s.data with threadCount := 0 }, dropper := .returned e }
  | release {e : Option ℕ} (hd : s.dropper = .returned e) :
    Move s .drop { s with strong := s.strong - 1, dropper := .released }
  /-- The unwinding drop releases the data too. -/
  | abandon {k : ℕ} (hd : s.dropper = .panicked k) :
    Move s .drop { s with strong := s.strong - 1, dropper := .released }
  | exit {k : ℕ} (hk : s.inLoop k) (hs : s.shutdown = true) :
    Move s (.exit k) (s.setStatus k .ending)
  | unwind {k : ℕ} (hk : s.inLoop k) : Move s (.unwind k) (s.setStatus k .unwinding)
  | upgrade {k : ℕ} (hk : s.status k = .unwinding) (hs : 0 < s.strong) :
    Move s (.advance k) { s.setStatus k .counting with strong := s.strong + 1 }
  /-- The weak reference cannot be upgraded any more. -/
  | orphan {k : ℕ} (hk : s.status k = .unwinding) (hs : s.strong = 0) :
    Move s (.advance k) (s.setStatus k .ending)
  | count {k : ℕ} (hk : s.status k = .counting) :
    Move s (.advance k) { s.setStatus k .spawning with data := s.data.count }
  | spawn {k : ℕ} (hk : s.status k = .spawning) :
    Move s (.advance k)
      { (s.setStatus s.next .running).setStatus k (.storing s.next) with next := s.next + 1 }
  | store {k h : ℕ} (hk : s.status k = .storing h) :
    Move s (.advance k)
      { s.setStatus k .ending with data := s.data.store h, strong := s.strong - 1 }
  | terminate {k : ℕ} (hk : s.status k = .ending) : Move s (.advance k) (s.setStatus k .terminated)

/-- **Inversion.**  Every step is one of the listed ones. -/
theorem Move.of_step {s s' : State} {a : Action} (h : s.step a = some s') : Move s a s' := by
  cases a with
  | begin e =>
    simp only [State.step] at h
    split at h
    · cases h
      exact .begin (And.left ‹_›) (And.right ‹_›)
    · cases h
  | drop =>
    replace h : s.dropStep = some s' := h
    unfold State.dropStep at h
    split at h
    · cases h
    · cases h
    · cases h
      exact .shutdown ‹_›
    · cases h
      exact .drain ‹_›
    · split at h
      · rename_i hd he
        cases h
        subst he
        exact .panic hd
      · split at h
        · cases h
          exact .join ‹_› ‹_› ‹_›
        · cases h
    · cases h
      exact .reset ‹_›
    · cases h
      exact .release ‹_›
    · cases h
      exact .abandon ‹_›
  | exit k =>
    simp only [State.step] at h
    split at h
    · cases h
      exact .exit (And.left ‹_›) (And.right ‹_›)
    · cases h
  | unwind k =>
    simp only [State.step] at h
    split at h
    · cases h
      exact .unwind ‹_›
    · cases h
  | advance k =>
    replace h : s.advance k = some s' := h
    unfold State.advance at h
    split at h
    · cases h
    · cases h
    · cases h
    · split at h
      · cases h
        exact .upgrade ‹_› ‹_›
      · cases h
        exact .orphan ‹_› (Nat.eq_zero_of_not_pos ‹_›)
    · cases h
      exact .count ‹_›
    · cases h
      exact .spawn ‹_›
    · cases h
      exact .store ‹_›
    · cases h
      exact .terminate ‹_›

end Lifecycle

end AffinityPool
