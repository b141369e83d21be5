import AffinityPool.Queue.Machine

/-!
# `SpawnFuture` over the queue

`Threadpool::spawn_local` makes a task and keeps its runnable back: the first
`SpawnFuture::poll` schedules it, and `SpawnFuture::drop` either drops it unscheduled or
cancels the task and blocks until it has stopped.  The machine of this file runs these
functions, and the tasks themselves, on top of the machine of the queue: every thread has,
beside its place in the code of the queue, an *act*, the call of `poll` or `drop` it is in.

Of `async-task` the machine takes what its documentation says.  Running a runnable executes
its future once, or drops it unexecuted if the task was cancelled before; dropping an unrun
runnable drops its future; a task or a cancellation that is polled may always report
`Pending`, reports `Ready` of a task only when its closure has returned or panicked, and of
a cancellation only when the runnable has finished running or has been dropped.  A parked
thread may wake at any time.

A worker that has taken a runnable, and any thread outside the pool, is free to call
whatever it likes: to create, poll and drop futures, to push with `Threadpool::spawn`, to
drop a `JoinHandle`.  The borrow checker's promises are guards: a future is polled or
dropped by one thread at a time, and only while it exists.
-/

namespace AffinityPool

namespace Local

open Transition

variable {q : Shape} {P R : Type}

/-- The fields of `SpawnFuture`: whether each option still holds its value. -/
structure SpawnFuture where
  runnable : Bool
  task : Bool
  deriving DecidableEq

/-- What the callers hold of a task. -/
inductive Handle
  /-- The task does not exist yet. -/
  | unborn
  /-- The `JoinHandle` of a task that `Threadpool::spawn` has scheduled. -/
  | join
  /-- The future of a task that `Threadpool::spawn_local` has made. -/
  | future (f : SpawnFuture)
  /-- A future inside the blocking part of its destructor. -/
  | closing
  /-- A future whose destructor has returned. -/
  | gone
  deriving DecidableEq

/-- The future inside a task, as `async-task` keeps it. -/
inductive Exec
  /-- Not executed yet. -/
  | idle
  | running
  | finished (panicked : Bool)
  /-- Dropped without being executed. -/
  | dropped
  deriving DecidableEq

/-- The runnable has finished running or has been dropped. -/
def Exec.isOver : Exec → Bool
  | .finished _ | .dropped => true
  | _ => false

/-- How a future has come to its end for its owner. -/
inductive Outcome
  /-- `poll` has returned `Ready`. -/
  | ready
  /-- `poll` has re-raised the panic of the closure. -/
  | raised
  /-- `drop` has returned. -/
  | dropped
  deriving DecidableEq

/-- The `match` on the result of the inner task: a value is returned, a payload re-raised. -/
def Outcome.ofResult (panicked : Bool) : Outcome := if panicked then .raised else .ready

/-- A task, with the history of its calls and executions. -/
structure Task where
  handle : Handle
  exec : Exec
  canceled : Bool
  /-- The future is mutably borrowed by a call. -/
  lent : Bool
  /-- `poll` has been called. -/
  polled : Bool
  outcome : Option Outcome
  /-- How often the closure has been entered. -/
  ran : ℕ
  deriving DecidableEq

/-- A task that does not exist yet. -/
def Task.unborn : Task where
  handle := .unborn
  exec := .idle
  canceled := false
  lent := false
  polled := false
  outcome := none
  ran := 0

/-- The call of a function of `SpawnFuture` a thread is in. -/
inductive Act (R : Type)
  | free
  /-- Inside `poll`. -/
  | polling (r : R)
  /-- Inside `block_on_cancel`. -/
  | cancelling (r : R) (parked : Bool)
  deriving DecidableEq

/-- A state: the queue, the tasks and what every thread is at. -/
structure State (q : Shape) (P R : Type) where
  base : AffinityPool.State q P R
  task : R → Task
  act : Thread q P → Act R

/-- What a thread does next. -/
inductive Choice (q : Shape) (P R : Type)
  /-- A step of the queue; a push is one of `Threadpool::spawn`. -/
  | queue (c : AffinityPool.Choice q P R)
  /-- Call `Threadpool::spawn_local`. -/
  | create (r : R)
  /-- Call `SpawnFuture::poll`, with the routing state of the thread. -/
  | poll (r : R) (hash : ℕ) (cell : Option ProducerRoute)
  /-- Poll the inner task or its cancellation. -/
  | attempt (ready : Bool)
  /-- Drop a future. -/
  | drop (r : R)
  /-- Return from `thread::park`. -/
  | unpark
  /-- Drop a `JoinHandle`. -/
  | cancel (r : R)
  /-- `Runnable::run` takes up the future. -/
  | begin
  /-- The closure returns or panics. -/
  | finish (panicked : Bool)
  deriving DecidableEq

/-- The runnable a worker runs, when it is in code of the caller. -/
def held : Pc q R → Option R
  | .out (.running r) => some r
  | _ => none

/-- The program counter is in code of the caller. -/
def isOut : Pc q R → Bool
  | .out _ => true
  | _ => false

namespace State

/-- The thread is in code of the caller and in no call of `poll` or `drop`. -/
def atCall (s : State q P R) (t : Thread q P) : Prop :=
  s.act t = .free ∧ isOut (s.base.pc t) = true

instance [DecidableEq R] (s : State q P R) (t : Thread q P) : Decidable (s.atCall t) :=
  inferInstanceAs (Decidable (_ ∧ _))

/-- The tasks do not keep the thread from this step of the queue: a runnable is pushed by the
call that makes its task, and `Runnable::run` returns when it is through with its future. -/
def allows (s : State q P R) (t : Thread q P) : AffinityPool.Choice q P R → Prop
  | .spawn r _ _ => s.act t = .free ∧ (s.task r).handle = .unborn
  | .close => s.act t = .free
  | .ret => s.act t = .free ∧ ∀ r ∈ held (s.base.pc t), (s.task r).exec.isOver = true
  | _ => True

instance allows.decidable [DecidableEq R] (s : State q P R) (t : Thread q P) :
    ∀ c, Decidable (s.allows t c)
  | .spawn r _ _ => inferInstanceAs (Decidable (_ ∧ (s.task r).handle = .unborn))
  | .close => inferInstanceAs (Decidable (s.act t = .free))
  | .ret => inferInstanceAs
      (Decidable (_ ∧ ∀ r ∈ held (s.base.pc t), (s.task r).exec.isOver = true))
  | .go | .steal _ | .spurious | .pick _ => inferInstanceAs (Decidable True)

variable [DecidableEq R]

/-- Replace one task. -/
def setTask (s : State q P R) (r : R) (j : Task) : State q P R :=
  { s with task := Function.update s.task r j }

variable [DecidableEq P]

/-- Replace the act of one thread. -/
def setAct (s : State q P R) (t : Thread q P) (a : Act R) : State q P R :=
  { s with act := Function.update s.act t a }

/-- `Runnable::schedule`: the schedule function of the task pushes its runnable. -/
def schedule (s : State q P R) (t : Thread q P) (r : R) (hash : ℕ) (cell : Option ProducerRoute) :
    Option (State q P R) :=
  (s.base.step (t, .spawn r hash cell)).map fun b => { s with base := b }

/-- `SpawnFuture::poll` up to the poll of the inner task. -/
def poll (s : State q P R) (t : Thread q P) (r : R) (hash : ℕ) (cell : Option ProducerRoute)
    (f : SpawnFuture) : Option (State q P R) :=
  let j : Task := { s.task r with lent := true, polled := true }
  if f.runnable then
    (s.schedule t r hash cell).map fun s' =>
      (s'.setTask r { j with handle := .future { f with runnable := false } }).setAct t (.polling r)
  else some ((s.setTask r j).setAct t (.polling r))

/-- The rest of `SpawnFuture::poll`. -/
def pollTask (s : State q P R) (t : Thread q P) (r : R) (f : SpawnFuture) (ready : Bool) :
    Option (State q P R) :=
  let j : Task := { s.task r with lent := false }
  if ready then
    match f.task, (s.task r).exec with
    | true, .finished panicked =>
      some ((s.setTask r
        { j with
          handle := .future { f with task := false },
          outcome := some (.ofResult panicked) }).setAct t .free)
    | _, _ => none
  else
    -- `Pending`, or the panic "SpawnFuture polled after completion"
    some ((s.setTask r j).setAct t .free)

/-- `SpawnFuture::drop` up to its blocking part. -/
def dropFuture (s : State q P R) (t : Thread q P) (r : R) (f : SpawnFuture) : State q P R :=
  let j := s.task r
  if f.runnable then
    s.setTask r { j with handle := .gone, exec := .dropped, outcome := some .dropped }
  else if f.task then
    (s.setTask r { j with handle := .closing, canceled := true }).setAct t (.cancelling r false)
  else s.setTask r { j with handle := .gone }

/-- One iteration of the loop of `block_on_cancel`. -/
def pollCancel (s : State q P R) (t : Thread q P) (r : R) (ready : Bool) : Option (State q P R) :=
  if ready then
    if (s.task r).exec.isOver then
      some ((s.setTask r
        { s.task r with handle := .gone, outcome := some .dropped }).setAct t .free)
    else none
  else some (s.setAct t (.cancelling r true))

/-- `Runnable::run` up to the closure. -/
def run (s : State q P R) (r : R) : State q P R :=
  let j := s.task r
  if j.canceled then s.setTask r { j with exec := .dropped }
  else s.setTask r { j with exec := .running, ran := j.ran + 1 }

/-- One step of thread `t`. -/
def step (s : State q P R) (a : Thread q P × Choice q P R) : Option (State q P R) :=
  match a.2 with
  | .queue c =>
    if s.allows a.1 c then
      (s.base.step (a.1, c)).map fun b =>
        match c with
        | .spawn r _ _ => { s with base := b }.setTask r { s.task r with handle := .join }
        | _ => { s with base := b }
    else none
  | .create r =>
    if s.atCall a.1 ∧ (s.task r).handle = .unborn then
      some (s.setTask r { s.task r with handle := .future ⟨true, true⟩ })
    else none
  | .poll r hash cell =>
    match (s.task r).handle with
    | .future f => if s.atCall a.1 ∧ (s.task r).lent = false then s.poll a.1 r hash cell f else none
    | _ => none
  | .attempt ready =>
    match s.act a.1 with
    | .polling r =>
      match (s.task r).handle with
      | .future f => if isOut (s.base.pc a.1) then s.pollTask a.1 r f ready else none
      | _ => none
    | .cancelling r false => s.pollCancel a.1 r ready
    | _ => none
  | .drop r =>
    match (s.task r).handle with
    | .future f =>
      if s.atCall a.1 ∧ (s.task r).lent = false then some (s.dropFuture a.1 r f) else none
    | _ => none
  | .unpark =>
    match s.act a.1 with
    | .cancelling r true => some (s.setAct a.1 (.cancelling r false))
    | _ => none
  | .cancel r =>
    if s.atCall a.1 ∧ (s.task r).handle = .join then
      some (s.setTask r { s.task r with canceled := true })
    else none
  | .begin =>
    match held (s.base.pc a.1) with
    | some r => if s.act a.1 = .free ∧ (s.task r).exec = .idle then some (s.run r) else none
    | none => none
  | .finish panicked =>
    match held (s.base.pc a.1) with
    | some r =>
      if s.act a.1 = .free ∧ (s.task r).exec = .running then
        some (s.setTask r { s.task r with exec := .finished panicked })
      else none
    | none => none

end State

/-- The state of a new pool: no task exists. -/
def State.start (q : Shape) (P R : Type) : State q P R where
  base := .start q P R
  task := fun _ => .unborn
  act := fun _ => .free

/-- The pool with its futures as a transition system. -/
def machine (q : Shape) (P R : Type) [DecidableEq P] [DecidableEq R] :
    System (State q P R) (Thread q P × Choice q P R) where
  init s := s = State.start q P R
  step := State.step

/-! ## What one step can do -/

section Moves

variable [DecidableEq P] [DecidableEq R]

/-- The steps of a thread, with what each of them has found. -/
inductive Move (s : State q P R) (t : Thread q P) : Choice q P R → State q P R → Prop
  | queue {c : AffinityPool.Choice q P R} {b : AffinityPool.State q P R}
      (hc : ∀ r hash cell, c ≠ .spawn r hash cell) (hallows : s.allows t c)
      (hb : s.base.step (t, c) = some b) : Move s t (.queue c) { s with base := b }
  | spawn {r : R} {hash : ℕ} {cell : Option ProducerRoute} {b : AffinityPool.State q P R}
      (hfree : s.act t = .free) (hu : (s.task r).handle = .unborn)
      (hb : s.base.step (t, .spawn r hash cell) = some b) :
    Move s t (.queue (.spawn r hash cell))
      ({ s with base := b }.setTask r { s.task r with handle := .join })
  | create {r : R} (hcall : s.atCall t) (hu : (s.task r).handle = .unborn) :
    Move s t (.create r) (s.setTask r { s.task r with handle := .future ⟨true, true⟩ })
  /-- A first poll. -/
  | schedule {r : R} {f : SpawnFuture} {hash : ℕ} {cell : Option ProducerRoute}
      {b : AffinityPool.State q P R} (hcall : s.atCall t ∧ (s.task r).lent = false)
      (hf : (s.task r).handle = .future f) (hr : f.runnable = true)
      (hb : s.base.step (t, .spawn r hash cell) = some b) :
    Move s t (.poll r hash cell) (({ s with base := b }.setTask r
      { s.task r with
        lent := true, polled := true, handle := .future { f with runnable := false } }).setAct t
          (.polling r))
  /-- A later poll. -/
  | poll {r : R} {f : SpawnFuture} {hash : ℕ} {cell : Option ProducerRoute}
      (hcall : s.atCall t ∧ (s.task r).lent = false) (hf : (s.task r).handle = .future f)
      (hr : f.runnable = false) :
    Move s t (.poll r hash cell)
      ((s.setTask r { s.task r with lent := true, polled := true }).setAct t (.polling r))
  | ready {r : R} {f : SpawnFuture} {panicked : Bool} (ha : s.act t = .polling r)
      (hout : isOut (s.base.pc t) = true) (hf : (s.task r).handle = .future f)
      (ht : f.task = true) (he : (s.task r).exec = .finished panicked) :
    Move s t (.attempt true) ((s.setTask r
      { s.task r with
        lent := false, handle := .future { f with task := false },
        outcome := some (.ofResult panicked) }).setAct t .free)
  | pending {r : R} {f : SpawnFuture} (ha : s.act t = .polling r)
      (hout : isOut (s.base.pc t) = true) (hf : (s.task r).handle = .future f) :
    Move s t (.attempt false) ((s.setTask r { s.task r with lent := false }).setAct t .free)
  /-- The drop of a future that was never polled. -/
  | discard {r : R} {f : SpawnFuture} (hcall : s.atCall t ∧ (s.task r).lent = false)
      (hf : (s.task r).handle = .future f) (hr : f.runnable = true) :
    Move s t (.drop r)
      (s.setTask r { s.task r with handle := .gone, exec := .dropped, outcome := some .dropped })
  /-- The drop of a future that is scheduled and not resolved. -/
  | close {r : R} {f : SpawnFuture} (hcall : s.atCall t ∧ (s.task r).lent = false)
      (hf : (s.task r).handle = .future f) (hr : f.runnable = false) (ht : f.task = true) :
    Move s t (.drop r)
      ((s.setTask r { s.task r with handle := .closing, canceled := true }).setAct t
        (.cancelling r false))
  /-- The drop of a resolved future. -/
  | forget {r : R} {f : SpawnFuture} (hcall : s.atCall t ∧ (s.task r).lent = false)
      (hf : (s.task r).handle = .future f) (hr : f.runnable = false) (ht : f.task = false) :
    Move s t (.drop r) (s.setTask r { s.task r with handle := .gone })
  | stopped {r : R} (ha : s.act t = .cancelling r false)
      (he : (s.task r).exec.isOver = true) :
    Move s t (.attempt true)
      ((s.setTask r { s.task r with handle := .gone, outcome := some .dropped }).setAct t .free)
  | park {r : R} (ha : s.act t = .cancelling r false) :
    Move s t (.attempt false) (s.setAct t (.cancelling r true))
  | unpark {r : R} (ha : s.act t = .cancelling r true) :
    Move s t .unpark (s.setAct t (.cancelling r false))
  | cancel {r : R} (hcall : s.atCall t) (hj : (s.task r).handle = .join) :
    Move s t (.cancel r) (s.setTask r { s.task r with canceled := true })
  /-- `Runnable::run` drops a cancelled future. -/
  | skip {r : R} (hfree : s.act t = .free) (hr : held (s.base.pc t) = some r)
      (he : (s.task r).exec = .idle) (hc : (s.task r).canceled = true) :
    Move s t .begin (s.setTask r { s.task r with exec := .dropped })
  | enter {r : R} (hfree : s.act t = .free) (hr : held (s.base.pc t) = some r)
      (he : (s.task r).exec = .idle) (hc : (s.task r).canceled = false) :
    Move s t .begin (s.setTask r { s.task r with exec := .running, ran := (s.task r).ran + 1 })
  | finish {r : R} {panicked : Bool} (hfree : s.act t = .free)
      (hr : held (s.base.pc t) = some r) (he : (s.task r).exec = .running) :
    Move s t (.finish panicked) (s.setTask r { s.task r with exec := .finished panicked })

/-- The queue stays as it is or makes one step of its own. -/
lemma Move.base_eq {s s' : State q P R} {t : Thread q P} {c : Choice q P R} (hm : Move s t c s') :
    s'.base = s.base ∨ ∃ c', s.base.step (t, c') = some s'.base := by
  cases hm with
  | queue hc hallows hb | spawn hfree hu hb | schedule hcall hf hr hb => exact Or.inr ⟨_, hb⟩
  | _ => exact Or.inl rfl

/-- Every call of `poll` is one of the listed steps. -/
lemma Move.of_poll {s s' : State q P R} {t : Thread q P} {r : R} {hash : ℕ}
    {cell : Option ProducerRoute} {f : SpawnFuture}
    (hcall : s.atCall t ∧ (s.task r).lent = false) (hf : (s.task r).handle = .future f)
    (h : s.poll t r hash cell f = some s') : Move s t (.poll r hash cell) s' := by
  unfold State.poll at h
  cases hr : f.runnable with
  | true =>
    simp only [hr, if_true, State.schedule, Option.map_map, Option.map_eq_some_iff] at h
    obtain ⟨b, hb, rfl⟩ := h
    exact .schedule hcall hf hr hb
  | false =>
    simp only [hr, Bool.false_eq_true, if_false, Option.some.injEq] at h
    subst h
    exact .poll hcall hf hr

/-- Every poll of an inner task is one of the listed steps. -/
lemma Move.of_pollTask {s s' : State q P R} {t : Thread q P} {r : R} {f : SpawnFuture}
    {ready : Bool} (ha : s.act t = .polling r) (hout : isOut (s.base.pc t) = true)
    (hf : (s.task r).handle = .future f) (h : s.pollTask t r f ready = some s') :
    Move s t (.attempt ready) s' := by
  unfold State.pollTask at h
  cases ready with
  | true =>
    simp only [if_true] at h
    split at h
    · cases h
      exact .ready ha hout hf ‹_› ‹_›
    · cases h
  | false =>
    cases h
    exact .pending ha hout hf

/-- Every poll of a cancellation is one of the listed steps. -/
lemma Move.of_pollCancel {s s' : State q P R} {t : Thread q P} {r : R} {ready : Bool}
    (ha : s.act t = .cancelling r false) (h : s.pollCancel t r ready = some s') :
    Move s t (.attempt ready) s' := by
  unfold State.pollCancel at h
  cases ready with
  | true =>
    simp only [if_true] at h
    split at h
    · cases h
      exact .stopped ha ‹_›
    · cases h
  | false =>
    cases h
    exact .park ha

/-- Every drop of a future is one of the listed steps. -/
lemma Move.of_dropFuture {s : State q P R} {t : Thread q P} {r : R} {f : SpawnFuture}
    (hcall : s.atCall t ∧ (s.task r).lent = false) (hf : (s.task r).handle = .future f) :
    Move s t (.drop r) (s.dropFuture t r f) := by
  unfold State.dropFuture
  dsimp only
  split
  · exact .discard hcall hf ‹_›
  · split
    · exact .close hcall hf (Bool.eq_false_of_not_eq_true ‹_›) ‹_›
    · exact .forget hcall hf (Bool.eq_false_of_not_eq_true ‹_›) (Bool.eq_false_of_not_eq_true ‹_›)

/-- **Inversion.**  Every step is one of the listed ones. -/
theorem Move.of_step {s s' : State q P R} {t : Thread q P} {c : Choice q P R}
    (h : s.step (t, c) = some s') : Move s t c s' := by
  unfold State.step at h
  cases c with
  | queue c =>
    dsimp only at h
    split at h
    · rename_i hallows
      obtain ⟨b, hb, rfl⟩ := Option.map_eq_some_iff.mp h
      cases c with
      | spawn r hash cell => exact .spawn hallows.1 hallows.2 hb
      | _ => exact .queue (by simp) hallows hb
    · cases h
  | create r =>
    dsimp only at h
    split at h
    · rename_i hcall
      cases h
      exact .create hcall.1 hcall.2
    · cases h
  | poll r hash cell =>
    dsimp only at h
    split at h
    · split at h
      · exact .of_poll ‹_› ‹_› h
      · cases h
    · cases h
  | attempt ready =>
    dsimp only at h
    split at h
    · split at h
      · split at h
        · exact .of_pollTask ‹_› ‹_› ‹_› h
        · cases h
      · cases h
    · exact .of_pollCancel ‹_› h
    · cases h
  | drop r =>
    dsimp only at h
    split at h
    · split at h
      · cases h
        exact .of_dropFuture ‹_› ‹_›
      · cases h
    · cases h
  | unpark =>
    dsimp only at h
    split at h
    · cases h
      exact .unpark ‹_›
    · cases h
  | cancel r =>
    dsimp only at h
    split at h
    · rename_i hcall
      cases h
      exact .cancel hcall.1 hcall.2
    · cases h
  | begin =>
    dsimp only at h
    split at h
    · rename_i r hr
      split at h
      · rename_i hidle
        unfold State.run at h
        cases h
        dsimp only
        split
        · exact .skip hidle.1 hr hidle.2 ‹_›
        · exact .enter hidle.1 hr hidle.2 (Bool.eq_false_of_not_eq_true ‹_›)
      · cases h
    · cases h
  | finish panicked =>
    dsimp only at h
    split at h
    · split at h
      · rename_i hrunning
        cases h
        exact .finish hrunning.1 ‹_› hrunning.2
      · cases h
    · cases h

/-- Every listed step is a step. -/
theorem Move.step {s s' : State q P R} {t : Thread q P} {c : Choice q P R} (hm : Move s t c s') :
    s.step (t, c) = some s' := by
  unfold State.step
  cases hm with
  | @queue c b hc hallows hb =>
    dsimp only
    rw [if_pos hallows, hb, Option.map_some]
    cases c with
    | spawn r hash cell => exact absurd rfl (hc r hash cell)
    | _ => rfl
  | spawn hfree hu hb =>
    dsimp only
    rw [if_pos ⟨hfree, hu⟩, hb, Option.map_some]
  | create hcall hu => exact if_pos ⟨hcall, hu⟩
  | schedule hcall hf hr hb =>
    simp only [hf, hcall, State.poll, hr, State.schedule, hb, and_self, if_true, Option.map_some]
  | poll hcall hf hr =>
    simp only [hf, hcall, State.poll, hr, and_self, if_true, Bool.false_eq_true, if_false]
  | ready ha hout hf ht he => simp only [ha, hout, hf, ht, he, State.pollTask, if_true]
  | pending ha hout hf =>
    simp only [ha, hout, hf, State.pollTask, if_true, Bool.false_eq_true, if_false]
  | discard hcall hf hr => simp only [hf, hcall, hr, State.dropFuture, and_self, if_true]
  | close hcall hf hr ht | forget hcall hf hr ht =>
    simp only [hf, hcall, hr, ht, State.dropFuture, and_self, if_true, Bool.false_eq_true, if_false]
  | stopped ha he => simp only [ha, he, State.pollCancel, if_true]
  | park ha => simp only [ha, State.pollCancel, Bool.false_eq_true, if_false]
  | unpark ha => simp only [ha]
  | cancel hcall hj => exact if_pos ⟨hcall, hj⟩
  | skip hfree hr he hc | enter hfree hr he hc =>
    simp only [hr, hfree, he, hc, State.run, and_self, if_true, Bool.false_eq_true, if_false]
  | finish hfree hr he => simp only [hr, hfree, he, and_self, if_true]

end Moves

/-- The thread runs for `n` steps of the queue that leave it no choice. -/
def goes (t : Thread q P) (n : ℕ) : List (Thread q P × Choice q P R) :=
  List.replicate n (t, .queue .go)

end Local

end AffinityPool
