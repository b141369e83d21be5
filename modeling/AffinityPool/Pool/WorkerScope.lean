import AffinityPool.Foundation.TransitionSystem
import Mathlib.Data.Nat.Notation
import Mathlib.Logic.Function.Basic

/-!
# The worker handle

A worker thread of `spin_up` registers itself (`register_worker`), puts the addresses of its
queue and of its deque into the thread-local `CURRENT_WORKER` (`enter_worker_scope`) and works
until `pop_blocking` returns `None` or a runnable unwinds.  Then the scope, the context, the
queue handle and the sentry are dropped, in this order; the scope clears `CURRENT_WORKER`, and
a sentry that is still active starts a replacement while the `Data` of the pool is there.

This file follows any number of pools and threads through these steps.  Queues and deques are
at addresses, and an address may be used again as soon as the object at it is gone.  Pools are
numbered as they are built, and their numbers are not used again.  A thread that cannot be
started has its sentry dropped, which tries again, and so is left out.
-/

namespace AffinityPool

namespace Handles

open Transition System Function

/-- The addresses of a queue and of a deque. -/
structure WorkerHandle where
  queue : ℕ
  deque : ℕ
deriving DecidableEq

/-- The deque in a `WorkerContext`: its address, and the buffer it shares with its stealers. -/
structure WorkerContext where
  addr : ℕ
  buffer : ℕ
deriving DecidableEq

/-- How far a thread is in the closure of `spin_up`. -/
inductive Point
  /-- The thread has not started, or it has ended. -/
  | gone
  /-- Before `register_worker`. -/
  | booting
  /-- Before `enter_worker_scope`. -/
  | registered (ctx : WorkerContext)
  /-- In `pop_blocking`, with the buffer behind the slot it has loaded last. -/
  | popping (ctx : WorkerContext) (guard : Option ℕ)
  /-- In `Runnable::run`. -/
  | running (ctx : WorkerContext)
  /-- Out of the worker loop, before the drop of the `WorkerScope`. -/
  | leaving (ctx : WorkerContext)
  /-- Before the drop of the `WorkerContext`. -/
  | unscoped (ctx : WorkerContext)
  /-- Before the drop of the queue handle. -/
  | bare
  /-- Before the drop of the sentry. -/
  | watched
deriving DecidableEq

namespace Point

/-- The context on the stack of the thread. -/
def context : Point → Option WorkerContext
  | .registered ctx | .popping ctx _ | .running ctx | .leaving ctx | .unscoped ctx => some ctx
  | .gone | .booting | .bare | .watched => none

/-- The context the thread has entered a worker scope with. -/
def scope : Point → Option WorkerContext
  | .popping ctx _ | .running ctx | .leaving ctx => some ctx
  | .gone | .booting | .registered _ | .unscoped _ | .bare | .watched => none

/-- The buffer the thread reaches through a slot it has loaded. -/
def guard : Point → Option ℕ
  | .popping _ guard => guard
  | _ => none

/-- The thread holds its clone of the `Arc<Queue>`. -/
def holdsQueue : Point → Bool
  | .gone | .watched => false
  | _ => true

/-- A scope is over a context. -/
lemma context_of_scope {pt : Point} {ctx : WorkerContext} (h : pt.scope = some ctx) :
    pt.context = some ctx := by
  cases pt <;> first | exact h | cases h

/-- A thread with a context holds its queue. -/
lemma holdsQueue_of_context {pt : Point} {ctx : WorkerContext} (h : pt.context = some ctx) :
    pt.holdsQueue = true := by
  cases pt <;> first | rfl | cases h

/-- A thread that holds its queue exists. -/
lemma ne_gone {pt : Point} (h : pt.holdsQueue = true) : pt ≠ .gone := by
  rintro rfl
  cases h

end Point

/-- A thread started by `spin_up`: its pool, its index, its sentry and its `CURRENT_WORKER`. -/
structure Worker where
  pool : ℕ
  index : ℕ
  point : Point
  /-- `Sentry::active`. -/
  sentry : Bool
  current : Option WorkerHandle

/-- What is left of a pool. -/
inductive Life
  /-- The pool has not been built. -/
  | absent
  /-- The `Data` of the pool is there. -/
  | owned
  /-- The `Data` is gone, and the queue is there. -/
  | released
  /-- The queue is gone. -/
  | destroyed
deriving DecidableEq

/-- The queue is there. -/
def Life.hasQueue : Life → Bool
  | .owned | .released => true
  | .absent | .destroyed => false

/-- A pool and its queue. -/
structure Pool where
  /-- The address of the queue. -/
  addr : ℕ
  numThreads : ℕ
  /-- The calls of `spin_up` the build has made. -/
  spun : ℕ
  life : Life
  shutdown : Bool
  /-- The buffers the slots of the queue lead to. -/
  stealers : ℕ → Option ℕ
  /-- The threads that hold a clone of the `Arc<Queue>`. -/
  holders : List ℕ

/-- Where everything is. -/
structure Layout where
  pools : ℕ → Pool
  workers : ℕ → Worker
  /-- The pool whose queue is at an address. -/
  queues : ℕ → Option ℕ
  /-- The thread whose context has its deque at an address. -/
  deques : ℕ → Option ℕ
  /-- The pool whose queue has made a buffer. -/
  home : ℕ → Option ℕ

namespace Layout

/-- Set one thread. -/
def setWorker (l : Layout) (k : ℕ) (w : Worker) : Layout :=
  { l with workers := update l.workers k w }

/-- Set the point of one thread. -/
def setPoint (l : Layout) (k : ℕ) (pt : Point) : Layout :=
  l.setWorker k { l.workers k with point := pt }

@[simp]
lemma setPoint_self (l : Layout) (k : ℕ) (pt : Point) :
    ((l.setPoint k pt).workers k).point = pt := by
  have hat : (l.setPoint k pt).workers k = { l.workers k with point := pt } :=
    update_self _ _ _
  rw [hat]

/-- Set one pool. -/
def setPool (l : Layout) (p : ℕ) (P : Pool) : Layout :=
  { l with pools := update l.pools p P }

/-- A new pool, with its queue at `addr`. -/
def build (l : Layout) (p addr numThreads : ℕ) : Layout :=
  { l.setPool p ⟨addr, numThreads, 0, .owned, false, fun _ => none, []⟩ with
    queues := update l.queues addr (some p) }

/-- `Threadpool::spin_up`: thread `k` starts, with a clone of the `Arc<Queue>`. -/
def spinUp (l : Layout) (p index k : ℕ) : Layout :=
  { l with
    workers := update l.workers k ⟨p, index, .booting, true, none⟩
    pools := update l.pools p { l.pools p with holders := k :: (l.pools p).holders } }

/-- `Queue::register_worker`: a context at `addr` with the new buffer `b`, whose stealer goes
into the slot. -/
def registerWorker (l : Layout) (k addr b : ℕ) : Layout :=
  let p := (l.workers k).pool
  let slot := (l.workers k).index
  { l.setPoint k (.registered ⟨addr, b⟩) with
    pools := update l.pools p
      { l.pools p with stealers := update (l.pools p).stealers slot (some b) }
    deques := update l.deques addr (some k)
    home := update l.home b (some p) }

/-- The handle of thread `k` with the given context. -/
def handle (l : Layout) (k : ℕ) (ctx : WorkerContext) : WorkerHandle :=
  ⟨(l.pools (l.workers k).pool).addr, ctx.addr⟩

/-- `Queue::enter_worker_scope`. -/
def enterWorkerScope (l : Layout) (k : ℕ) (ctx : WorkerContext) : Layout :=
  l.setWorker k { l.workers k with point := .popping ctx none, current := some (l.handle k ctx) }

/-- `WorkerScope::drop`. -/
def dropScope (l : Layout) (k : ℕ) (ctx : WorkerContext) : Layout :=
  l.setWorker k { l.workers k with point := .unscoped ctx, current := none }

/-- The drop of the `WorkerContext`. -/
def dropContext (l : Layout) (k : ℕ) (ctx : WorkerContext) : Layout :=
  { l.setPoint k .bare with deques := update l.deques ctx.addr none }

/-- The drop of the queue handle of a thread. -/
def dropQueue (l : Layout) (k : ℕ) : Layout :=
  let p := (l.workers k).pool
  (l.setPoint k .watched).setPool p { l.pools p with holders := (l.pools p).holders.erase k }

/-- The queue is destroyed. -/
def destroy (l : Layout) (p : ℕ) : Layout :=
  { l.setPool p { l.pools p with life := .destroyed, stealers := fun _ => none } with
    queues := update l.queues (l.pools p).addr none }

end Layout

/-- The steps that move no runnable. -/
inductive Event
  /-- A pool is built. -/
  | build (p addr numThreads : ℕ)
  /-- The build starts its next worker. -/
  | spinUp (p k : ℕ)
  /-- `Threadpool::drop` signals the shutdown. -/
  | shutdown (p : ℕ)
  /-- The last `Arc<Data>` is dropped. -/
  | release (p : ℕ)
  /-- The last `Arc<Queue>` is dropped. -/
  | destroy (p : ℕ)
  /-- A thread calls `register_worker`. -/
  | register (k addr b : ℕ)
  /-- A thread calls `enter_worker_scope`. -/
  | enter (k : ℕ)
  /-- A scan loads the slot of a peer. -/
  | load (k victim : ℕ)
  /-- `Runnable::run` returns. -/
  | finish (k : ℕ)
  /-- `pop_blocking` returns `None`, and the sentry is cancelled. -/
  | exit (k : ℕ)
  /-- The worker loop unwinds. -/
  | unwind (k : ℕ)
  | dropScope (k : ℕ)
  | dropContext (k : ℕ)
  | dropQueue (k : ℕ)
  /-- The sentry is dropped, and starts thread `j` if it has to. -/
  | dropSentry (k j : ℕ)

namespace Layout

/-- One step that moves no runnable. -/
def step (l : Layout) : Event → Option Layout
  | .build p addr numThreads =>
    if (l.pools p).life = .absent ∧ l.queues addr = none then some (l.build p addr numThreads)
    else none
  | .spinUp p k =>
    if (l.pools p).life = .owned ∧ (l.pools p).spun < (l.pools p).numThreads ∧
        (l.workers k).point = .gone then
      some ((l.setPool p { l.pools p with spun := (l.pools p).spun + 1 }).spinUp p
        (l.pools p).spun k)
    else none
  | .shutdown p =>
    if (l.pools p).life = .owned ∧ (l.pools p).spun = (l.pools p).numThreads then
      some (l.setPool p { l.pools p with shutdown := true })
    else none
  | .release p =>
    if (l.pools p).life = .owned ∧ (l.pools p).shutdown = true then
      some (l.setPool p { l.pools p with life := .released })
    else none
  | .destroy p =>
    if (l.pools p).life = .released ∧ (l.pools p).holders = [] then some (l.destroy p)
    else none
  | .register k addr b =>
    if (l.workers k).point = .booting ∧ l.deques addr = none ∧ l.home b = none then
      some (l.registerWorker k addr b)
    else none
  | .enter k =>
    match (l.workers k).point with
    | .registered ctx => some (l.enterWorkerScope k ctx)
    | _ => none
  | .load k victim =>
    match (l.workers k).point with
    | .popping ctx _ =>
      if victim ≠ (l.workers k).index then
        some (l.setPoint k (.popping ctx ((l.pools (l.workers k).pool).stealers victim)))
      else none
    | _ => none
  | .finish k =>
    match (l.workers k).point with
    | .running ctx => some (l.setPoint k (.popping ctx none))
    | _ => none
  | .exit k =>
    match (l.workers k).point with
    | .popping ctx _ =>
      if (l.pools (l.workers k).pool).shutdown = true then
        some (l.setWorker k { l.workers k with point := .leaving ctx, sentry := false })
      else none
    | _ => none
  | .unwind k =>
    match (l.workers k).point with
    | .popping ctx _ | .running ctx => some (l.setPoint k (.leaving ctx))
    | _ => none
  | .dropScope k =>
    match (l.workers k).point with
    | .leaving ctx => some (l.dropScope k ctx)
    | _ => none
  | .dropContext k =>
    match (l.workers k).point with
    | .unscoped ctx => some (l.dropContext k ctx)
    | _ => none
  | .dropQueue k =>
    match (l.workers k).point with
    | .bare => some (l.dropQueue k)
    | _ => none
  | .dropSentry k j =>
    match (l.workers k).point with
    | .watched =>
      if (l.workers k).sentry = true ∧ (l.pools (l.workers k).pool).life = .owned then
        if (l.workers j).point = .gone then
          some ((l.setPoint k .gone).spinUp (l.workers k).pool (l.workers k).index j)
        else none
      else some (l.setPoint k .gone)
    | _ => none

/-- What a step that moves no runnable can do. -/
inductive Move (l : Layout) : Event → Layout → Prop
  | build {p addr n : ℕ} (hp : (l.pools p).life = .absent) (ha : l.queues addr = none) :
    Move l (.build p addr n) (l.build p addr n)
  | spinUp {p k : ℕ} (hp : (l.pools p).life = .owned)
    (hspun : (l.pools p).spun < (l.pools p).numThreads) (hk : (l.workers k).point = .gone) :
    Move l (.spinUp p k) ((l.setPool p { l.pools p with spun := (l.pools p).spun + 1 }).spinUp p
      (l.pools p).spun k)
  | shutdown {p : ℕ} (hp : (l.pools p).life = .owned) :
    Move l (.shutdown p) (l.setPool p { l.pools p with shutdown := true })
  | release {p : ℕ} (hp : (l.pools p).life = .owned) :
    Move l (.release p) (l.setPool p { l.pools p with life := .released })
  | destroy {p : ℕ} (hp : (l.pools p).life = .released) (hholders : (l.pools p).holders = []) :
    Move l (.destroy p) (l.destroy p)
  | register {k addr b : ℕ} (hk : (l.workers k).point = .booting) (ha : l.deques addr = none)
    (hb : l.home b = none) : Move l (.register k addr b) (l.registerWorker k addr b)
  | enter {k : ℕ} {ctx : WorkerContext} (hk : (l.workers k).point = .registered ctx) :
    Move l (.enter k) (l.enterWorkerScope k ctx)
  | load {k victim : ℕ} {ctx : WorkerContext} {guard : Option ℕ}
    (hk : (l.workers k).point = .popping ctx guard) :
    Move l (.load k victim)
      (l.setPoint k (.popping ctx ((l.pools (l.workers k).pool).stealers victim)))
  | finish {k : ℕ} {ctx : WorkerContext} (hk : (l.workers k).point = .running ctx) :
    Move l (.finish k) (l.setPoint k (.popping ctx none))
  | exit {k : ℕ} {ctx : WorkerContext} {guard : Option ℕ}
    (hk : (l.workers k).point = .popping ctx guard)
    (hshutdown : (l.pools (l.workers k).pool).shutdown = true) :
    Move l (.exit k) (l.setWorker k { l.workers k with point := .leaving ctx, sentry := false })
  | unwind {k : ℕ} {ctx : WorkerContext} (hk : (l.workers k).point.scope = some ctx) :
    Move l (.unwind k) (l.setPoint k (.leaving ctx))
  | dropScope {k : ℕ} {ctx : WorkerContext} (hk : (l.workers k).point = .leaving ctx) :
    Move l (.dropScope k) (l.dropScope k ctx)
  | dropContext {k : ℕ} {ctx : WorkerContext} (hk : (l.workers k).point = .unscoped ctx) :
    Move l (.dropContext k) (l.dropContext k ctx)
  | dropQueue {k : ℕ} (hk : (l.workers k).point = .bare) : Move l (.dropQueue k) (l.dropQueue k)
  | respawn {k j : ℕ} (hk : (l.workers k).point = .watched)
    (hsentry : (l.workers k).sentry = true)
    (hp : (l.pools (l.workers k).pool).life = .owned) (hj : (l.workers j).point = .gone) :
    Move l (.dropSentry k j)
      ((l.setPoint k .gone).spinUp (l.workers k).pool (l.workers k).index j)
  | ended {k j : ℕ} (hk : (l.workers k).point = .watched) :
    Move l (.dropSentry k j) (l.setPoint k .gone)

/-- A step does one of these. -/
theorem Move.of_step {l l' : Layout} {e : Event} (hs : l.step e = some l') : Move l e l' := by
  cases e with
  | build p addr n =>
    obtain ⟨⟨hp, ha⟩, hs⟩ := Option.ite_none_right_eq_some.mp hs
    cases hs
    exact .build hp ha
  | spinUp p k =>
    obtain ⟨⟨hp, hspun, hk⟩, hs⟩ := Option.ite_none_right_eq_some.mp hs
    cases hs
    exact .spinUp hp hspun hk
  | shutdown p =>
    obtain ⟨⟨hp, -⟩, hs⟩ := Option.ite_none_right_eq_some.mp hs
    cases hs
    exact .shutdown hp
  | release p =>
    obtain ⟨⟨hp, -⟩, hs⟩ := Option.ite_none_right_eq_some.mp hs
    cases hs
    exact .release hp
  | destroy p =>
    obtain ⟨⟨hp, hholders⟩, hs⟩ := Option.ite_none_right_eq_some.mp hs
    cases hs
    exact .destroy hp hholders
  | register k addr b =>
    obtain ⟨⟨hk, ha, hb⟩, hs⟩ := Option.ite_none_right_eq_some.mp hs
    cases hs
    exact .register hk ha hb
  | enter k =>
    simp only [step] at hs
    split at hs
    · next ctx hk =>
      cases hs
      exact .enter hk
    · cases hs
  | load k victim =>
    simp only [step] at hs
    split at hs
    · next ctx guard hk =>
      obtain ⟨-, hs⟩ := Option.ite_none_right_eq_some.mp hs
      cases hs
      exact .load hk
    · cases hs
  | finish k =>
    simp only [step] at hs
    split at hs
    · next ctx hk =>
      cases hs
      exact .finish hk
    · cases hs
  | exit k =>
    simp only [step] at hs
    split at hs
    · next ctx guard hk =>
      obtain ⟨hshutdown, hs⟩ := Option.ite_none_right_eq_some.mp hs
      cases hs
      exact .exit hk hshutdown
    · cases hs
  | unwind k =>
    simp only [step] at hs
    split at hs
    · next ctx guard hk =>
      cases hs
      exact .unwind (by rw [hk]; rfl)
    · next ctx hk =>
      cases hs
      exact .unwind (by rw [hk]; rfl)
    · cases hs
  | dropScope k =>
    simp only [step] at hs
    split at hs
    · next ctx hk =>
      cases hs
      exact .dropScope hk
    · cases hs
  | dropContext k =>
    simp only [step] at hs
    split at hs
    · next ctx hk =>
      cases hs
      exact .dropContext hk
    · cases hs
  | dropQueue k =>
    simp only [step] at hs
    split at hs
    · next hk =>
      cases hs
      exact .dropQueue hk
    · cases hs
  | dropSentry k j =>
    simp only [step] at hs
    split at hs
    · next hk =>
      split at hs
      · next hsentry =>
        obtain ⟨hj, hs⟩ := Option.ite_none_right_eq_some.mp hs
        cases hs
        exact .respawn hk hsentry.1 hsentry.2 hj
      · cases hs
        exact .ended hk
    · cases hs

/-- The `CURRENT_WORKER` of a thread: a thread that `spin_up` has not started has none. -/
def currentWorker {F : Type} (l : Layout) : ℕ ⊕ F → Option WorkerHandle
  | .inl k => (l.workers k).current
  | .inr _ => none

/-- The address `Queue::push` finds for its self-spawn path, when it takes it. -/
def selfSpawn {F : Type} (l : Layout) (t : ℕ ⊕ F) (p : ℕ) : Option ℕ :=
  match l.currentWorker t with
  | some h => if h.queue = (l.pools p).addr then some h.deque else none
  | none => none

/-- The context whose deque is at an address. -/
def dequeAt (l : Layout) (addr : ℕ) : Option WorkerContext :=
  (l.deques addr).bind fun k => (l.workers k).point.context

/-- The thread is inside a worker scope of the queue of pool `p`, entered with `ctx`. -/
def Inside {F : Type} (l : Layout) (t : ℕ ⊕ F) (p : ℕ) (ctx : WorkerContext) : Prop :=
  ∃ k, t = .inl k ∧ (l.workers k).pool = p ∧ (l.workers k).point.scope = some ctx

/-- No pool has been built. -/
def start : Layout where
  pools _ := ⟨0, 0, 0, .absent, false, fun _ => none, []⟩
  workers _ := ⟨0, 0, .gone, false, none⟩
  queues _ := none
  deques _ := none
  home _ := none

end Layout

end Handles

end AffinityPool
