import AffinityPool.Foundation.TransitionSystem
import AffinityPool.Queue.Cpu
import AffinityPool.Queue.Scan
import Mathlib.Data.Finset.Insert
import Mathlib.Data.Finset.Erase

/-!
# The queue as a transition system

The threads are the workers of the queue and any number of foreign threads.  Each thread
has a program counter, and one step of the system is one step of one thread: one atomic
access, one operation on the mutex `park` or the condvar `notify`, one pop of the own deque,
or one visit of a scan.  The interleaving is sequentially consistent, so the fences of the
source are no steps of their own.

* `Queue::push` inserts a runnable (`Pc.out`) and then runs its wake check (`Pc.push`).  A
  worker of the queue pushes to its own deque, every other thread to an injector.
* `Queue::pop_blocking` scans cheaply (`Pc.cheap`), arms (`Pc.lock`, `Pc.arm`), sweeps
  strictly (`Pc.sweep`), reads the shutdown flag and waits.  Its three exits from the armed
  section share the sequence `Pc.leave`.
* `Queue::shutdown` stores the flag and then broadcasts (`Pc.close`).

A waiter that `notify_one` or `notify_all` signals leaves the set `waiters` and is then at
`Pc.waiting` outside that set; a waiter that returns spuriously is at `Pc.spurious`.  Both
still have to take `park` again.

`Move` lists what one step can do; `Move.of_move` is the inversion every invariant uses.
-/

namespace AffinityPool

open Transition

variable {q : Shape} {P R : Type}

/-- The threads: the workers of the queue and the foreign threads. -/
abbrev Thread (q : Shape) (P : Type) : Type := q.Worker ⊕ P

/-- What a thread does while it is not inside a function of the queue. -/
inductive Caller (R : Type)
  /-- A thread that is no worker of the queue. -/
  | foreign
  /-- A worker inside `Runnable::run`. -/
  | running (r : R)
  deriving DecidableEq

/-- A runnable and the queue it was inserted into. -/
structure Pushed (q : Shape) (R : Type) where
  item : R
  into : Victim q
  deriving DecidableEq

/-- The wake check of `Queue::push`. -/
inductive PushStage
  | loadParked
  | loadNotified (p : ℕ)
  | lock
  | recheckParked
  | recheckNotified (p : ℕ)
  | fetchAdd
  | notifyOne
  | unlock
  deriving DecidableEq

/-- `Queue::shutdown` after its store. -/
inductive CloseStage
  | lock
  | notifyAll
  | unlock
  deriving DecidableEq

/-- The three ways out of the armed section of `pop_blocking`. -/
inductive Exit (R : Type)
  /-- The strict scan found a runnable. -/
  | got (r : R)
  /-- Shutdown was signalled. -/
  | shut
  /-- The wait returned. -/
  | woken
  deriving DecidableEq

/-- The common end of the armed section: consume a notification if there is one, disarm,
release `park`. -/
inductive LeaveStage
  | loadNotified
  | fetchSub
  | unpark
  | unlock
  deriving DecidableEq

/-- Program counters. -/
inductive Pc (q : Shape) (R : Type)
  | out (k : Caller R)
  | push (k : Caller R) (x : Pushed q R) (u : PushStage)
  | close (k : Caller R) (c : CloseStage)
  | boot
  | cheap (round : ℕ) (s : Scan q)
  | lock
  | arm
  | sweep (s : Scan q)
  | checkShutdown
  | wait
  | waiting
  | spurious
  | leave (e : Exit R) (l : LeaveStage)
  | finished
  deriving DecidableEq

/-- The shared memory of the queue, with the histories of insertions and returns. -/
structure Mem (q : Shape) (P R : Type) where
  store : Store q R
  /-- Whether the mutex `park` is held. -/
  park : Bool
  /-- The wait set of the condvar `notify`. -/
  waiters : Finset (Thread q P)
  parked : ℕ
  notified : ℕ
  shutdown : Bool
  /-- The runnables inserted so far, in order. -/
  pushed : List R
  /-- The runnables `pop_blocking` has returned so far, in order. -/
  returned : List R

/-- A state: the shared memory and the program counter of every thread. -/
structure State (q : Shape) (P R : Type) where
  mem : Mem q P R
  pc : Thread q P → Pc q R

/-- What a thread is asked to do, where the source leaves a choice. -/
inductive Choice (q : Shape) (P R : Type)
  /-- The only next step. -/
  | go
  /-- Push a runnable, with the routing state of the pushing thread. -/
  | spawn (r : R) (hash : ℕ) (cell : Option ProducerRoute)
  /-- Return from `Runnable::run`. -/
  | ret
  /-- Call `Queue::shutdown`. -/
  | close
  /-- Attempt a steal with the given report. -/
  | steal (o : Steal)
  /-- Return from the wait without a signal. -/
  | spurious
  /-- Let `notify_one` choose this waiter. -/
  | pick (t : Thread q P)
  deriving DecidableEq

/-- `AtomicUsize::fetch_add(1)`. -/
def fetchAdd (n : ℕ) : ℕ := (n + 1) % usizeBound

/-- `AtomicUsize::fetch_sub(1)`. -/
def fetchSub (n : ℕ) : ℕ := (n + (usizeBound - 1)) % usizeBound

/-- `Queue::register_worker`: a fresh deque, its stealer and a fresh random stream. -/
def Store.register (st : Store q R) (w : q.Worker) : Store q R where
  injectors := st.injectors
  deques := Function.update st.deques w []
  stealers := Function.update st.stealers w true
  rng := Function.update st.rng w (rngSeed w)

/-- Append a runnable to a queue. -/
def Store.insert (st : Store q R) (x : Pushed q R) : Store q R :=
  st.setQueue x.into (st.queue x.into ++ [x.item])

/-- Where a push goes: a worker of the queue takes the self-spawn path to its own deque, any
other thread the foreign path to the routed injector. -/
def pushTarget (hash : ℕ) (cell : Option ProducerRoute) : Thread q P → Victim q
  | .inl w => .peer w
  | .inr _ => .injector (q.target hash cell)

/-- The report of a scan step under a choice. -/
def Choice.report : Choice q P R → Option Steal
  | .go => some .empty
  | .steal o => some o
  | _ => none

/-- The state of `pop_blocking` after a step of its cheap scan number `round`. -/
def afterCheap (m : Mem q P R) (round : ℕ) (st : Store q R) :
    ScanResult q R → Mem q P R × Pc q R
  | .more s => ({ m with store := st }, .cheap round s)
  | .found r => ({ m with store := st, returned := m.returned ++ [r] }, .out (.running r))
  | .empty =>
    ({ m with store := st }, if round < SPIN_ROUNDS then .cheap (round + 1) .own else .lock)

/-- The state of `pop_blocking` after a step of its armed scan. -/
def afterSweep (m : Mem q P R) (st : Store q R) : ScanResult q R → Mem q P R × Pc q R
  | .more s => ({ m with store := st }, .sweep s)
  | .found r => ({ m with store := st }, .leave (.got r) .loadNotified)
  | .empty => ({ m with store := st }, .checkShutdown)

section Step

variable [DecidableEq P] [DecidableEq R]

/-- One step of the wake check of a push. -/
def pushMove (m : Mem q P R) (k : Caller R) (x : Pushed q R) :
    PushStage → Choice q P R → Option (Mem q P R × Pc q R)
  | .loadParked, .go => some (m, .push k x (.loadNotified m.parked))
  | .loadNotified p, .go => some (m, if m.notified < p then .push k x .lock else .out k)
  | .lock, .go => if m.park then none else some ({ m with park := true }, .push k x .recheckParked)
  | .recheckParked, .go => some (m, .push k x (.recheckNotified m.parked))
  | .recheckNotified p, .go =>
    some (m, .push k x (if m.notified < p then .fetchAdd else .unlock))
  | .fetchAdd, .go => some ({ m with notified := fetchAdd m.notified }, .push k x .notifyOne)
  | .notifyOne, .go => if m.waiters = ∅ then some (m, .push k x .unlock) else none
  | .notifyOne, .pick t =>
    if t ∈ m.waiters then some ({ m with waiters := m.waiters.erase t }, .push k x .unlock)
    else none
  | .unlock, .go => some ({ m with park := false }, .out k)
  | _, _ => none

/-- One step of a shutdown call after its store. -/
def closeMove (m : Mem q P R) (k : Caller R) : CloseStage → Option (Mem q P R × Pc q R)
  | .lock => if m.park then none else some ({ m with park := true }, .close k .notifyAll)
  | .notifyAll => some ({ m with waiters := ∅ }, .close k .unlock)
  | .unlock => some ({ m with park := false }, .out k)

/-- One step of the common end of the armed section. -/
def leaveMove (m : Mem q P R) (e : Exit R) : LeaveStage → Mem q P R × Pc q R
  | .loadNotified => (m, .leave e (if 0 < m.notified then .fetchSub else .unpark))
  | .fetchSub => ({ m with notified := fetchSub m.notified }, .leave e .unpark)
  | .unpark => ({ m with parked := fetchSub m.parked }, .leave e .unlock)
  | .unlock =>
    match e with
    | .got r => ({ m with park := false, returned := m.returned ++ [r] }, .out (.running r))
    | .shut => ({ m with park := false }, .finished)
    | .woken => ({ m with park := false }, .cheap 0 .own)

/-- One step of thread `t` at the given program counter. -/
def move (t : Thread q P) (m : Mem q P R) : Pc q R → Choice q P R → Option (Mem q P R × Pc q R)
  | .out k, .spawn r hash cell =>
    -- a `Runnable` is moved into `push`, so none is pushed twice
    if r ∈ m.pushed then none
    else
      let x : Pushed q R := ⟨r, pushTarget hash cell t⟩
      some ({ m with store := m.store.insert x, pushed := m.pushed ++ [r] }, .push k x .loadParked)
  | .out k, .close => some ({ m with shutdown := true }, .close k .lock)
  | .out (.running _), .ret => some (m, .cheap 0 .own)
  | .push k x u, c => pushMove m k x u c
  | .close k c, .go => closeMove m k c
  | .boot, .go =>
    match t with
    | .inl w => some ({ m with store := m.store.register w }, .cheap 0 .own)
    | .inr _ => none
  | .cheap round s, c =>
    match t, c.report with
    | .inl w, some o =>
      (scanMove m.store w .cheap o s).map fun (st, res) => afterCheap m round st res
    | _, _ => none
  | .lock, .go => if m.park then none else some ({ m with park := true }, .arm)
  | .arm, .go => some ({ m with parked := fetchAdd m.parked }, .sweep .own)
  | .sweep s, c =>
    match t, c.report with
    | .inl w, some o =>
      (scanMove m.store w .strict o s).map fun (st, res) => afterSweep m st res
    | _, _ => none
  | .checkShutdown, .go => some (m, if m.shutdown then .leave .shut .loadNotified else .wait)
  | .wait, .go => some ({ m with park := false, waiters := insert t m.waiters }, .waiting)
  | .waiting, .go =>
    if t ∈ m.waiters ∨ m.park then none
    else some ({ m with park := true }, .leave .woken .loadNotified)
  | .waiting, .spurious =>
    if t ∈ m.waiters then some ({ m with waiters := m.waiters.erase t }, .spurious) else none
  | .spurious, .go =>
    if m.park then none else some ({ m with park := true }, .leave .woken .loadNotified)
  | .leave e l, .go => some (leaveMove m e l)
  | _, _ => none

/-- One step of the system: a thread and its choice. -/
def State.step (s : State q P R) (a : Thread q P × Choice q P R) : Option (State q P R) :=
  (move a.1 s.mem (s.pc a.1) a.2).map fun (m, pc) => ⟨m, Function.update s.pc a.1 pc⟩

/-- The state of a new queue: nothing stored, the workers about to start. -/
def State.start (q : Shape) (P R : Type) : State q P R where
  mem :=
    { store :=
        { injectors := fun _ => [], deques := fun _ => [], stealers := fun _ => false,
          rng := fun _ => 0 },
      park := false, waiters := ∅, parked := 0, notified := 0, shutdown := false,
      pushed := [], returned := [] }
  pc
    | .inl _ => .boot
    | .inr _ => .out .foreign

/-- The queue as a transition system. -/
def machine (q : Shape) (P R : Type) [DecidableEq P] [DecidableEq R] :
    System (State q P R) (Thread q P × Choice q P R) where
  init s := s = State.start q P R
  step := State.step

end Step

/-! ## What one step can do -/

section Moves

variable [DecidableEq P] {t : Thread q P} {c : Choice q P R} {m m' : Mem q P R} {pc' : Pc q R}

/-- The steps of a thread, with what each of them read. -/
inductive Move (t : Thread q P) (c : Choice q P R) (m : Mem q P R) :
    Pc q R → Mem q P R → Pc q R → Prop
  | spawn {k : Caller R} {x : Pushed q R} {hash : ℕ} {cell : Option ProducerRoute}
      (hc : c = .spawn x.item hash cell) (hx : x.item ∉ m.pushed)
      (hown : ∀ w, t = .inl w → x.into = .peer w)
      (hfor : ∀ p, t = .inr p → ∃ s, x.into = .injector s) :
    Move t c m (.out k)
      { m with store := m.store.insert x, pushed := m.pushed ++ [x.item] } (.push k x .loadParked)
  | close (k : Caller R) (hc : c = .close) :
    Move t c m (.out k) { m with shutdown := true } (.close k .lock)
  | ret (r : R) (hc : c = .ret) : Move t c m (.out (.running r)) m (.cheap 0 .own)
  | loadParked (k : Caller R) (x : Pushed q R) :
    Move t c m (.push k x .loadParked) m (.push k x (.loadNotified m.parked))
  | contend {k : Caller R} {x : Pushed q R} {p : ℕ} (h : m.notified < p) :
    Move t c m (.push k x (.loadNotified p)) m (.push k x .lock)
  /-- The push ends at the unlocked comparison. -/
  | skip {k : Caller R} {x : Pushed q R} {p : ℕ} (h : p ≤ m.notified) :
    Move t c m (.push k x (.loadNotified p)) m (.out k)
  | pushLock (k : Caller R) (x : Pushed q R) (h : m.park = false) :
    Move t c m (.push k x .lock) { m with park := true } (.push k x .recheckParked)
  | recheckParked (k : Caller R) (x : Pushed q R) :
    Move t c m (.push k x .recheckParked) m (.push k x (.recheckNotified m.parked))
  | confirm {k : Caller R} {x : Pushed q R} {p : ℕ} (h : m.notified < p) :
    Move t c m (.push k x (.recheckNotified p)) m (.push k x .fetchAdd)
  /-- The push gives up at the check under `park`. -/
  | decline {k : Caller R} {x : Pushed q R} {p : ℕ} (h : p ≤ m.notified) :
    Move t c m (.push k x (.recheckNotified p)) m (.push k x .unlock)
  | raise (k : Caller R) (x : Pushed q R) :
    Move t c m (.push k x .fetchAdd) { m with notified := fetchAdd m.notified }
      (.push k x .notifyOne)
  | notifyNone (k : Caller R) (x : Pushed q R) (h : m.waiters = ∅) :
    Move t c m (.push k x .notifyOne) m (.push k x .unlock)
  | notifyOne {k : Caller R} {x : Pushed q R} {u : Thread q P} (h : u ∈ m.waiters) :
    Move t c m (.push k x .notifyOne) { m with waiters := m.waiters.erase u } (.push k x .unlock)
  | pushUnlock (k : Caller R) (x : Pushed q R) :
    Move t c m (.push k x .unlock) { m with park := false } (.out k)
  | closeLock (k : Caller R) (h : m.park = false) :
    Move t c m (.close k .lock) { m with park := true } (.close k .notifyAll)
  | notifyAll (k : Caller R) :
    Move t c m (.close k .notifyAll) { m with waiters := ∅ } (.close k .unlock)
  | closeUnlock (k : Caller R) : Move t c m (.close k .unlock) { m with park := false } (.out k)
  | boot {w : q.Worker} (ht : t = .inl w) :
    Move t c m .boot { m with store := m.store.register w } (.cheap 0 .own)
  | cheapMore {w : q.Worker} {o : Steal} {round : ℕ} {s s' : Scan q} {st : Store q R}
      (ht : t = .inl w) (ho : c.report = some o) (h : ScanMove w .cheap o m.store s st (.more s')) :
    Move t c m (.cheap round s) { m with store := st } (.cheap round s')
  | cheapFound {w : q.Worker} {o : Steal} {round : ℕ} {s : Scan q} {st : Store q R} {r : R}
      (ht : t = .inl w) (ho : c.report = some o) (h : ScanMove w .cheap o m.store s st (.found r)) :
    Move t c m (.cheap round s) { m with store := st, returned := m.returned ++ [r] }
      (.out (.running r))
  | cheapNext {w : q.Worker} {o : Steal} {round : ℕ} {s : Scan q} {st : Store q R}
      (ht : t = .inl w) (ho : c.report = some o) (hr : round < SPIN_ROUNDS)
      (h : ScanMove w .cheap o m.store s st .empty) :
    Move t c m (.cheap round s) { m with store := st } (.cheap (round + 1) .own)
  | cheapLast {w : q.Worker} {o : Steal} {round : ℕ} {s : Scan q} {st : Store q R}
      (ht : t = .inl w) (ho : c.report = some o) (hr : ¬ round < SPIN_ROUNDS)
      (h : ScanMove w .cheap o m.store s st .empty) :
    Move t c m (.cheap round s) { m with store := st } .lock
  | lock (h : m.park = false) : Move t c m .lock { m with park := true } .arm
  | arm : Move t c m .arm { m with parked := fetchAdd m.parked } (.sweep .own)
  | sweepMore {w : q.Worker} {o : Steal} {s s' : Scan q} {st : Store q R}
      (ht : t = .inl w) (ho : c.report = some o)
      (h : ScanMove w .strict o m.store s st (.more s')) :
    Move t c m (.sweep s) { m with store := st } (.sweep s')
  | sweepFound {w : q.Worker} {o : Steal} {s : Scan q} {st : Store q R} {r : R}
      (ht : t = .inl w) (ho : c.report = some o)
      (h : ScanMove w .strict o m.store s st (.found r)) :
    Move t c m (.sweep s) { m with store := st } (.leave (.got r) .loadNotified)
  | sweepEmpty {w : q.Worker} {o : Steal} {s : Scan q} {st : Store q R}
      (ht : t = .inl w) (ho : c.report = some o) (h : ScanMove w .strict o m.store s st .empty) :
    Move t c m (.sweep s) { m with store := st } .checkShutdown
  | seeShutdown (h : m.shutdown = true) : Move t c m .checkShutdown m (.leave .shut .loadNotified)
  | stay (h : m.shutdown = false) : Move t c m .checkShutdown m .wait
  | wait :
    Move t c m .wait { m with park := false, waiters := insert t m.waiters } .waiting
  | wake (hw : t ∉ m.waiters) (h : m.park = false) :
    Move t c m .waiting { m with park := true } (.leave .woken .loadNotified)
  | stir (hw : t ∈ m.waiters) :
    Move t c m .waiting { m with waiters := m.waiters.erase t } .spurious
  | relock (h : m.park = false) :
    Move t c m .spurious { m with park := true } (.leave .woken .loadNotified)
  | consume (e : Exit R) (h : 0 < m.notified) :
    Move t c m (.leave e .loadNotified) m (.leave e .fetchSub)
  | pass (e : Exit R) (h : m.notified = 0) :
    Move t c m (.leave e .loadNotified) m (.leave e .unpark)
  | lower (e : Exit R) :
    Move t c m (.leave e .fetchSub) { m with notified := fetchSub m.notified } (.leave e .unpark)
  | unpark (e : Exit R) :
    Move t c m (.leave e .unpark) { m with parked := fetchSub m.parked } (.leave e .unlock)
  | giveBack (r : R) :
    Move t c m (.leave (.got r) .unlock) { m with park := false, returned := m.returned ++ [r] }
      (.out (.running r))
  | quit : Move t c m (.leave .shut .unlock) { m with park := false } .finished
  | again : Move t c m (.leave .woken .unlock) { m with park := false } (.cheap 0 .own)

/-- Every step of a wake check is one of the listed ones. -/
lemma Move.of_pushMove {k : Caller R} {x : Pushed q R} {u : PushStage}
    (h : pushMove m k x u c = some (m', pc')) : Move t c m (.push k x u) m' pc' := by
  cases u <;> cases c <;> simp only [pushMove, Option.some.injEq, Prod.mk.injEq, reduceCtorEq] at h
  case loadParked.go =>
    obtain ⟨rfl, rfl⟩ := h
    exact .loadParked k x
  case loadNotified.go p =>
    obtain ⟨rfl, rfl⟩ := h
    split
    · exact .contend ‹_›
    · exact .skip (Nat.le_of_not_lt ‹_›)
  case lock.go =>
    cases hp : m.park <;> simp only [hp, Bool.false_eq_true, if_false, if_true, reduceCtorEq,
      Option.some.injEq, Prod.mk.injEq] at h
    obtain ⟨rfl, rfl⟩ := h
    exact .pushLock k x hp
  case recheckParked.go =>
    obtain ⟨rfl, rfl⟩ := h
    exact .recheckParked k x
  case recheckNotified.go p =>
    obtain ⟨rfl, rfl⟩ := h
    split
    · exact .confirm ‹_›
    · exact .decline (Nat.le_of_not_lt ‹_›)
  case fetchAdd.go =>
    obtain ⟨rfl, rfl⟩ := h
    exact .raise k x
  case notifyOne.go =>
    split at h
    · simp only [Option.some.injEq, Prod.mk.injEq] at h
      obtain ⟨rfl, rfl⟩ := h
      exact .notifyNone k x ‹_›
    · cases h
  case notifyOne.pick u =>
    split at h
    · simp only [Option.some.injEq, Prod.mk.injEq] at h
      obtain ⟨rfl, rfl⟩ := h
      exact .notifyOne ‹_›
    · cases h
  case unlock.go =>
    obtain ⟨rfl, rfl⟩ := h
    exact .pushUnlock k x

/-- Every step of a shutdown call is one of the listed ones. -/
lemma Move.of_closeMove {k : Caller R} {cs : CloseStage}
    (h : closeMove m k cs = some (m', pc')) : Move t c m (.close k cs) m' pc' := by
  cases cs with
  | lock =>
    cases hp : m.park <;> simp only [closeMove, hp, Bool.false_eq_true, if_false, if_true,
      reduceCtorEq, Option.some.injEq, Prod.mk.injEq] at h
    obtain ⟨rfl, rfl⟩ := h
    exact .closeLock k hp
  | notifyAll =>
    simp only [closeMove, Option.some.injEq, Prod.mk.injEq] at h
    obtain ⟨rfl, rfl⟩ := h
    exact .notifyAll k
  | unlock =>
    simp only [closeMove, Option.some.injEq, Prod.mk.injEq] at h
    obtain ⟨rfl, rfl⟩ := h
    exact .closeUnlock k

/-- Every step of the common end of the armed section is one of the listed ones. -/
lemma Move.of_leaveMove (e : Exit R) (l : LeaveStage) :
    Move t c m (.leave e l) (leaveMove m e l).1 (leaveMove m e l).2 := by
  cases l with
  | loadNotified =>
    simp only [leaveMove]
    split
    · exact .consume e ‹_›
    · exact .pass e (Nat.eq_zero_of_not_pos ‹_›)
  | fetchSub => exact .lower e
  | unpark => exact .unpark e
  | unlock =>
    cases e with
    | got r => exact .giveBack r
    | shut => exact .quit
    | woken => exact .again

/-- A choice to push is taken where a push begins, with a new runnable. -/
lemma move_spawn [DecidableEq R] {pc : Pc q R} {r : R} {hash : ℕ} {cell : Option ProducerRoute}
    (h : move t m pc (.spawn r hash cell) = some (m', pc')) :
    ∃ k, pc = .out k ∧ r ∉ m.pushed ∧
      m' = { m with
        store := m.store.insert ⟨r, pushTarget hash cell t⟩
        pushed := m.pushed ++ [r] } ∧
      pc' = .push k ⟨r, pushTarget hash cell t⟩ .loadParked := by
  cases pc with
  | out k =>
    by_cases hr : r ∈ m.pushed
    · simp [move, hr] at h
    · simp only [move, hr, if_false, Option.some.injEq, Prod.mk.injEq] at h
      obtain ⟨rfl, rfl⟩ := h
      exact ⟨k, rfl, hr, rfl, rfl⟩
  | push k x u => cases u <;> simp [move, pushMove] at h
  | cheap round s => cases t <;> simp [move, Choice.report] at h
  | sweep s => cases t <;> simp [move, Choice.report] at h
  | _ => simp [move] at h

/-- **Inversion.**  Every step of a thread is one of the listed ones. -/
theorem Move.of_move [DecidableEq R] {pc : Pc q R}
    (h : move t m pc c = some (m', pc')) : Move t c m pc m' pc' := by
  cases pc with
  | push k x u => exact .of_pushMove h
  | close k cs =>
    cases c <;> simp only [move, reduceCtorEq] at h
    exact .of_closeMove h
  | leave e l =>
    cases c <;> simp only [move, reduceCtorEq, Option.some.injEq] at h
    have hmove : Move t .go m (.leave e l) _ _ := .of_leaveMove e l
    rwa [h] at hmove
  | out k =>
    cases c with
    | spawn r hash cell =>
      obtain ⟨k', hk, hr, rfl, rfl⟩ := move_spawn h
      cases hk
      refine @Move.spawn q P R _ t _ m k ⟨r, pushTarget hash cell t⟩ hash cell rfl hr ?_ ?_
      · rintro w rfl
        rfl
      · rintro p rfl
        exact ⟨_, rfl⟩
    | close =>
      simp only [move, Option.some.injEq, Prod.mk.injEq] at h
      obtain ⟨rfl, rfl⟩ := h
      exact .close k rfl
    | ret =>
      cases k with
      | foreign => simp [move] at h
      | running r =>
        simp only [move, Option.some.injEq, Prod.mk.injEq] at h
        obtain ⟨rfl, rfl⟩ := h
        exact .ret r rfl
    | go => simp [move] at h
    | steal o => simp [move] at h
    | spurious => simp [move] at h
    | pick u => simp [move] at h
  | boot =>
    cases c <;> simp only [move, reduceCtorEq] at h
    cases t with
    | inr p => simp at h
    | inl w =>
      simp only [Option.some.injEq, Prod.mk.injEq] at h
      obtain ⟨rfl, rfl⟩ := h
      exact .boot rfl
  | cheap round s =>
    cases t with
    | inr p => simp [move] at h
    | inl w =>
      cases ho : c.report with
      | none => simp [move, ho] at h
      | some o =>
        simp only [move, ho, Option.map_eq_some_iff] at h
        obtain ⟨⟨st, res⟩, hscan, heq⟩ := h
        have hmove := ScanMove.of_scanMove hscan
        cases res with
        | more s' =>
          cases heq
          exact .cheapMore rfl ho hmove
        | found r =>
          cases heq
          exact .cheapFound rfl ho hmove
        | empty =>
          simp only [afterCheap, Prod.mk.injEq] at heq
          obtain ⟨rfl, rfl⟩ := heq
          split
          · exact .cheapNext rfl ho ‹_› hmove
          · exact .cheapLast rfl ho ‹_› hmove
  | sweep s =>
    cases t with
    | inr p => simp [move] at h
    | inl w =>
      cases ho : c.report with
      | none => simp [move, ho] at h
      | some o =>
        simp only [move, ho, Option.map_eq_some_iff] at h
        obtain ⟨⟨st, res⟩, hscan, heq⟩ := h
        have hmove := ScanMove.of_scanMove hscan
        cases res <;> cases heq
        · exact .sweepMore rfl ho hmove
        · exact .sweepFound rfl ho hmove
        · exact .sweepEmpty rfl ho hmove
  | lock =>
    cases c <;> simp only [move, reduceCtorEq] at h
    cases hp : m.park <;> simp only [hp, Bool.false_eq_true, if_false, if_true, reduceCtorEq,
      Option.some.injEq, Prod.mk.injEq] at h
    obtain ⟨rfl, rfl⟩ := h
    exact .lock hp
  | arm =>
    cases c <;> simp only [move, reduceCtorEq, Option.some.injEq, Prod.mk.injEq] at h
    obtain ⟨rfl, rfl⟩ := h
    exact .arm
  | checkShutdown =>
    cases c <;> simp only [move, reduceCtorEq, Option.some.injEq, Prod.mk.injEq] at h
    obtain ⟨rfl, rfl⟩ := h
    cases hs : m.shutdown with
    | true => exact .seeShutdown hs
    | false => exact .stay hs
  | wait =>
    cases c <;> simp only [move, reduceCtorEq, Option.some.injEq, Prod.mk.injEq] at h
    obtain ⟨rfl, rfl⟩ := h
    exact .wait
  | waiting =>
    cases c <;> simp only [move, reduceCtorEq] at h
    case go =>
      by_cases hw : t ∈ m.waiters ∨ m.park = true
      · simp [hw] at h
      · simp only [hw, if_false, Option.some.injEq, Prod.mk.injEq] at h
        obtain ⟨rfl, rfl⟩ := h
        rw [not_or, Bool.not_eq_true] at hw
        exact .wake hw.1 hw.2
    case spurious =>
      by_cases hw : t ∈ m.waiters
      · simp only [hw, if_true, Option.some.injEq, Prod.mk.injEq] at h
        obtain ⟨rfl, rfl⟩ := h
        exact .stir hw
      · simp [hw] at h
  | spurious =>
    cases c <;> simp only [move, reduceCtorEq] at h
    cases hp : m.park <;> simp only [hp, Bool.false_eq_true, if_false, if_true, reduceCtorEq,
      Option.some.injEq, Prod.mk.injEq] at h
    obtain ⟨rfl, rfl⟩ := h
    exact .relock hp
  | finished => cases c <;> simp [move] at h

/-- A step of the system replaces the program counter of one thread. -/
theorem State.step_cases [DecidableEq R] {s s' : State q P R} {a : Thread q P × Choice q P R}
    (h : s.step a = some s') :
    ∃ m pc, Move a.1 a.2 s.mem (s.pc a.1) m pc ∧ s' = ⟨m, Function.update s.pc a.1 pc⟩ := by
  obtain ⟨⟨m, pc⟩, hmove, rfl⟩ := Option.map_eq_some_iff.mp h
  exact ⟨m, pc, .of_move hmove, rfl⟩

end Moves

/-! ## Workers of small pools -/

/-- Worker `i` of the two. -/
abbrev duo.worker (i : ℕ) (h : i < 2) : Thread duo P := .inl ⟨i, h⟩

/-- Worker `i` of the three. -/
abbrev trio.worker (i : ℕ) (h : i < 3) : Thread trio P := .inl ⟨i, h⟩

/-- The worker of a pool with one worker. -/
abbrev solo.worker : Thread solo P := .inl ⟨0, solo.numWorkers_pos⟩

/-- The thread runs for `n` steps that leave it no choice. -/
def goes (t : Thread q P) (n : ℕ) : List (Thread q P × Choice q P R) := List.replicate n (t, .go)

end AffinityPool
