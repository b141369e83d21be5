import AffinityPool.Pool.Handles

/-!
# Runnables stay in their pool

`Queue::push` writes the deque a handle leads to, or an injector of its own queue;
`pop_blocking` takes from the deque of its context, from the injectors of its queue and from
the buffers behind its slots, and moves batches into the deque of its context.  A handle leads
to a deque of the queue `push` is called on, so a runnable pushed to one pool is never held in,
or returned by, the queue of another (`handle_isolated`).

The order in which a scan visits its victims, its size and the parking of workers play no part
here, and are left open: a worker may take from any of these places at any time.  Any thread
may push at any point of its life, so the pushes of destructors are among the steps.  The
schedule function of a runnable holds the queue of its pool, and so a runnable is pushed again
to the same pool only.
-/

namespace AffinityPool

namespace Handles

open Transition System Function Layout

variable {F R : Type}

/-- The runnables in the queues. -/
structure Contents (R : Type) where
  /-- The injectors of each pool. -/
  injectors : ℕ → ℕ → List R
  /-- The buffers of the deques. -/
  buffers : ℕ → List R
  /-- The calls of `push`, by pool. -/
  pushed : List (ℕ × R)
  /-- The runnables returned by `pop_blocking`, by pool. -/
  returned : List (ℕ × R)
  /-- A dangling handle has been used. -/
  fault : Bool

/-- The pools, the threads and the runnables. -/
structure State (R : Type) where
  layout : Layout
  mem : Contents R

/-- Where `pop_blocking` takes a runnable from, and how many more move to the own deque. -/
inductive Origin
  | own
  | injector (i n : ℕ)
  /-- The buffer behind the slot loaded last. -/
  | peer (n : ℕ)

/-- The steps of the pools and the threads. -/
inductive Action (F R : Type)
  | event (e : Event)
  /-- `pop_blocking` takes a runnable and returns it. -/
  | pop (k : ℕ) (o : Origin)
  /-- A thread calls `push`, which would choose the given injector. -/
  | push (t : ℕ ⊕ F) (p : ℕ) (r : R) (i : ℕ)

namespace Contents

/-- A worker of pool `p` returns `r`, and the batch goes into its deque. -/
def receive (m : Contents R) (p b : ℕ) (r : R) (batch : List R) : Contents R :=
  { m with
    buffers := update m.buffers b (m.buffers b ++ batch)
    returned := (p, r) :: m.returned }

/-- One way for `pop_blocking` to find a runnable, for a worker of pool `p` with the buffer `b`
and the given guard. -/
def pop (m : Contents R) (p b : ℕ) (guard : Option ℕ) : Origin → Option (Contents R)
  | .own =>
    match m.buffers b with
    | [] => none
    | r :: rs => some ({ m with buffers := update m.buffers b rs }.receive p b r [])
  | .injector i n =>
    match m.injectors p i with
    | [] => none
    | r :: rs =>
      some ({ m with
        injectors := update m.injectors p (update (m.injectors p) i (rs.drop n)) }.receive p b r
          (rs.take n))
  | .peer n =>
    match guard with
    | none => none
    | some g =>
      match m.buffers g with
      | [] => none
      | r :: rs =>
        some ({ m with buffers := update m.buffers g (rs.drop n) }.receive p b r (rs.take n))

/-- A queue takes its injectors with it. -/
def after (m : Contents R) : Event → Contents R
  | .destroy p => { m with injectors := update m.injectors p fun _ => [] }
  | _ => m

/-- `Worker::push`. -/
def pushDeque (m : Contents R) (p b : ℕ) (r : R) : Contents R :=
  { m with
    buffers := update m.buffers b (m.buffers b ++ [r])
    pushed := (p, r) :: m.pushed }

/-- `Injector::push`. -/
def pushInjector (m : Contents R) (p i : ℕ) (r : R) : Contents R :=
  { m with
    injectors := update m.injectors p (update (m.injectors p) i (m.injectors p i ++ [r]))
    pushed := (p, r) :: m.pushed }

end Contents

namespace State

/-- `Queue::push` on the queue of pool `p`, by thread `t`. -/
def push (s : State R) (t : ℕ ⊕ F) (p : ℕ) (r : R) (i : ℕ) : State R :=
  match s.layout.selfSpawn t p with
  | some addr =>
    match s.layout.dequeAt addr with
    | some ctx => { s with mem := s.mem.pushDeque p ctx.buffer r }
    | none => { s with mem := { s.mem with fault := true } }
  | none => { s with mem := s.mem.pushInjector p i r }

/-- The self-spawn path, over a handle that leads to a context. -/
lemma push_of_selfSpawn {s : State R} {t : ℕ ⊕ F} {p a : ℕ} {ctx : WorkerContext}
    (ha : s.layout.selfSpawn t p = some a) (hctx : s.layout.dequeAt a = some ctx) (r : R) (i : ℕ) :
    s.push t p r i = { s with mem := s.mem.pushDeque p ctx.buffer r } := by
  simp only [push, ha, hctx]

/-- The thread exists. -/
def alive (s : State R) : ℕ ⊕ F → Bool
  | .inl k => (s.layout.workers k).point ≠ .gone
  | .inr _ => true

/-- One step. -/
def step [DecidableEq R] (s : State R) : Action F R → Option (State R)
  | .event e => (s.layout.step e).map fun l => ⟨l, s.mem.after e⟩
  | .pop k o =>
    match (s.layout.workers k).point with
    | .popping ctx guard =>
      (s.mem.pop (s.layout.workers k).pool ctx.buffer guard o).map fun m =>
        ⟨s.layout.setPoint k (.running ctx), m⟩
    | _ => none
  | .push t p r i =>
    if s.alive t = true ∧ (s.layout.pools p).life.hasQueue = true ∧
        ∀ e ∈ s.mem.pushed, e.2 = r → e.1 = p then
      some (s.push t p r i)
    else none

/-- No pool has been built. -/
def start (R : Type) : State R where
  layout := .start
  mem := ⟨fun _ _ => [], fun _ => [], [], [], false⟩

/-- The queue of pool `p` leads to the buffer: a slot of the queue, the context of a worker of
the pool, or a slot loaded by one. -/
def Reaches (s : State R) (p b : ℕ) : Prop :=
  (∃ i, (s.layout.pools p).stealers i = some b) ∨
    ∃ k, (s.layout.workers k).pool = p ∧
      ((∃ ctx, (s.layout.workers k).point.context = some ctx ∧ ctx.buffer = b) ∨
        (s.layout.workers k).point.guard = some b)

/-- The queue of pool `p` holds the runnable, or has returned it. -/
def HoldsOrReturned (s : State R) (p : ℕ) (r : R) : Prop :=
  (∃ i, r ∈ s.mem.injectors p i) ∨ (∃ b, s.Reaches p b ∧ r ∈ s.mem.buffers b) ∨
    (p, r) ∈ s.mem.returned

end State

/-- Any number of pools and threads, as a transition system. -/
def machine (F R : Type) [DecidableEq R] : System (State R) (Action F R) where
  init s := s = State.start R
  step := State.step

/-! ## Buffers have one pool -/

variable {l l' : Layout} {e : Event} {p k b : ℕ}

/-- Slots and guards lead to buffers of their own pool. -/
structure Homed (l : Layout) : Prop where
  slots : ∀ p i b, (l.pools p).stealers i = some b → l.home b = some p
  guards : ∀ k b, (l.workers k).point.guard = some b → l.home b = some (l.workers k).pool

/-- A buffer keeps its pool. -/
lemma Layout.Move.home (hm : Move l e l') (hb : l.home b = some p) : l'.home b = some p := by
  cases hm
  case register k addr b' hk ha hfree =>
    have hne : b ≠ b' := by
      rintro rfl
      rw [hfree] at hb
      cases hb
    exact (update_of_ne hne _ _).trans hb
  all_goals exact hb

namespace Homed

/-- A thread changes. -/
lemma setWorker (h : Homed l) {w : Worker}
    (hw : ∀ b, w.point.guard = some b → l.home b = some w.pool) : Homed (l.setWorker k w) := by
  refine ⟨h.slots, ?_⟩
  intro j b hb
  have hat : (l.setWorker k w).workers k = w := update_self _ _ _
  by_cases hj : j = k
  · rw [hj, hat] at hb
    rw [hj, hat]
    exact hw b hb
  · have hat' : (l.setWorker k w).workers j = l.workers j := update_of_ne hj _ _
    rw [hat'] at hb
    rw [hat']
    exact h.guards j b hb

/-- A pool changes. -/
lemma setPool (h : Homed l) {P : Pool}
    (hP : ∀ i b, P.stealers i = some b → l.home b = some p) : Homed (l.setPool p P) := by
  refine ⟨?_, h.guards⟩
  intro q i b hb
  have hat : (l.setPool p P).pools p = P := update_self _ _ _
  by_cases hq : q = p
  · rw [hq, hat] at hb
    rw [hq]
    exact hP i b hb
  · have hat' : (l.setPool p P).pools q = l.pools q := update_of_ne hq _ _
    rw [hat'] at hb
    exact h.slots q i b hb

/-- A thread starts. -/
lemma spinUp (h : Homed l) (index : ℕ) : Homed (l.spinUp p index k) := by
  have hpool : Homed (l.setPool p { l.pools p with holders := k :: (l.pools p).holders }) :=
    h.setPool (h.slots p)
  exact hpool.setWorker (w := ⟨p, index, .booting, true, none⟩) nofun

/-- A thread registers itself, with a new buffer. -/
lemma registerWorker (h : Homed l) (addr : ℕ) (hb : l.home b = none) :
    Homed (l.registerWorker k addr b) := by
  have hhome : ∀ b' q, l.home b' = some q → (l.registerWorker k addr b).home b' = some q := by
    intro b' q hq
    have hne : b' ≠ b := by
      rintro rfl
      rw [hb] at hq
      cases hq
    exact (update_of_ne hne _ _).trans hq
  have hself : (l.registerWorker k addr b).pools (l.workers k).pool =
      { l.pools (l.workers k).pool with
        stealers := update (l.pools (l.workers k).pool).stealers (l.workers k).index (some b) } :=
    update_self _ _ _
  constructor
  · intro q i b' hb'
    by_cases hq : q = (l.workers k).pool
    · rw [hq, hself] at hb'
      change update (l.pools (l.workers k).pool).stealers (l.workers k).index (some b) i =
        some b' at hb'
      rw [hq]
      by_cases hi : i = (l.workers k).index
      · rw [hi, update_self] at hb'
        cases hb'
        exact update_self _ _ _
      · rw [update_of_ne hi] at hb'
        exact hhome b' _ (h.slots _ i b' hb')
    · have hother : (l.registerWorker k addr b).pools q = l.pools q := update_of_ne hq _ _
      rw [hother] at hb'
      exact hhome b' q (h.slots q i b' hb')
  · intro j b' hb'
    have hpoint : Homed (l.setPoint k (.registered ⟨addr, b⟩)) := h.setWorker nofun
    exact hhome b' _ (hpoint.guards j b' hb')

/-- Every step keeps slots and guards in their pool. -/
lemma step (h : Homed l) (hm : Move l e l') : Homed l' := by
  cases hm with
  | @build p addr n hp ha =>
    have hpool := h.setPool (p := p) (P := ⟨addr, n, 0, .owned, false, fun _ => none, []⟩) nofun
    exact ⟨hpool.slots, hpool.guards⟩
  | @spinUp p k hp hspun hk =>
    have hpool : Homed (l.setPool p { l.pools p with spun := (l.pools p).spun + 1 }) :=
      h.setPool (h.slots p)
    exact hpool.spinUp _
  | shutdown hp => exact h.setPool (h.slots _)
  | release hp => exact h.setPool (h.slots _)
  | @destroy p hp hholders =>
    have hpool := h.setPool (p := p)
      (P := { l.pools p with life := .destroyed, stealers := fun _ => none }) nofun
    exact ⟨hpool.slots, hpool.guards⟩
  | register hk ha hb => exact h.registerWorker _ hb
  | enter hk => exact h.setWorker nofun
  | @load k victim ctx guard hk => exact h.setWorker (h.slots _ victim)
  | finish hk => exact h.setWorker nofun
  | exit hk hshutdown => exact h.setWorker nofun
  | unwind hk => exact h.setWorker nofun
  | dropScope hk => exact h.setWorker nofun
  | @dropContext k ctx hk =>
    have hpoint : Homed (l.setPoint k .bare) := h.setWorker nofun
    exact ⟨hpoint.slots, hpoint.guards⟩
  | @dropQueue k hk =>
    have hpoint : Homed (l.setPoint k .watched) := h.setWorker nofun
    exact hpoint.setPool (hpoint.slots _)
  | @respawn k j hk hsentry hp hj =>
    have hpoint : Homed (l.setPoint k .gone) := h.setWorker nofun
    exact hpoint.spinUp _
  | ended hk => exact h.setWorker nofun

end Homed

/-! ## Runnables have one pool -/

namespace Contents

variable {m m' : Contents R} {guard : Option ℕ} {o : Origin}

/-- The runnable is where a worker of pool `p` with the given buffer and guard looks. -/
def Within (m : Contents R) (p b : ℕ) (guard : Option ℕ) (r : R) : Prop :=
  r ∈ m.buffers b ∨ (∃ i, r ∈ m.injectors p i) ∨ ∃ g, guard = some g ∧ r ∈ m.buffers g

/-- Changing one list of a family to part of it takes nothing from elsewhere. -/
lemma mem_of_mem_update {f : ℕ → List R} {xs : List R} {j i : ℕ} {r : R}
    (hxs : ∀ x ∈ xs, x ∈ f j) (hr : r ∈ update f j xs i) : r ∈ f i := by
  by_cases hi : i = j
  · rw [hi, update_self] at hr
    rw [hi]
    exact hxs r hr
  · rwa [update_of_ne hi] at hr

/-- What `pop_blocking` changes: the own deque gets runnables from where the worker looks, the
other places lose some, and one is returned. -/
structure Taken (m : Contents R) (p b : ℕ) (guard : Option ℕ) (m' : Contents R) : Prop where
  pushed : m'.pushed = m.pushed
  fault : m'.fault = m.fault
  injectors : ∀ q i r, r ∈ m'.injectors q i → r ∈ m.injectors q i
  buffers : ∀ c r, r ∈ m'.buffers c → r ∈ m.buffers c ∨ c = b ∧ m.Within p b guard r
  returned : ∀ e ∈ m'.returned, e ∈ m.returned ∨ e.1 = p ∧ m.Within p b guard e.2

/-- A worker that has changed the lists receives from where it looked. -/
lemma Taken.receive {m₁ : Contents R} {r : R} {batch : List R}
    (h : Taken m p b guard m₁) (hr : m.Within p b guard r)
    (hbatch : ∀ x ∈ batch, m.Within p b guard x) :
    Taken m p b guard (m₁.receive p b r batch) := by
  refine ⟨h.pushed, h.fault, h.injectors, ?_, ?_⟩
  · intro c x hx
    by_cases hc : c = b
    · change x ∈ update m₁.buffers b (m₁.buffers b ++ batch) c at hx
      rw [hc, update_self] at hx
      rcases List.mem_append.mp hx with hold | hnew
      · rw [hc]
        exact h.buffers b x hold
      · exact .inr ⟨hc, hbatch x hnew⟩
    · change x ∈ update m₁.buffers b (m₁.buffers b ++ batch) c at hx
      rw [update_of_ne hc] at hx
      exact h.buffers c x hx
  · intro e he
    rcases List.mem_cons.mp he with rfl | hold
    · exact .inr ⟨rfl, hr⟩
    · exact h.returned e hold

/-- `pop_blocking` takes from where the worker looks. -/
lemma taken_of_pop (h : m.pop p b guard o = some m') : Taken m p b guard m' := by
  cases o with
  | own =>
    simp only [pop] at h
    split at h
    · cases h
    · next r rs hb =>
      cases h
      have hsub : ∀ x ∈ rs, x ∈ m.buffers b := by
        intro x hx
        rw [hb]
        exact List.mem_cons_of_mem _ hx
      have hless : Taken m p b guard { m with buffers := update m.buffers b rs } :=
        ⟨rfl, rfl, fun _ _ _ => id, fun _ _ hx => .inl (mem_of_mem_update hsub hx),
          fun _ => .inl⟩
      apply hless.receive
      · exact .inl (by rw [hb]; exact List.mem_cons_self)
      · exact fun x hx => absurd hx List.not_mem_nil
  | injector i n =>
    simp only [pop] at h
    split at h
    · cases h
    · next r rs hi =>
      cases h
      have hsub : ∀ x ∈ rs, x ∈ m.injectors p i := by
        intro x hx
        rw [hi]
        exact List.mem_cons_of_mem _ hx
      have hless : Taken m p b guard { m with
          injectors := update m.injectors p (update (m.injectors p) i (rs.drop n)) } := by
        refine ⟨rfl, rfl, ?_, fun _ _ => .inl, fun _ => .inl⟩
        intro q j x hx
        by_cases hq : q = p
        · change x ∈ update m.injectors p (update (m.injectors p) i (rs.drop n)) q j at hx
          rw [hq, update_self] at hx
          rw [hq]
          exact mem_of_mem_update (fun y hy => hsub y (List.mem_of_mem_drop hy)) hx
        · change x ∈ update m.injectors p (update (m.injectors p) i (rs.drop n)) q j at hx
          rwa [update_of_ne hq] at hx
      apply hless.receive
      · exact .inr (.inl ⟨i, by rw [hi]; exact List.mem_cons_self⟩)
      · exact fun x hx => .inr (.inl ⟨i, hsub x (List.mem_of_mem_take hx)⟩)
  | peer n =>
    simp only [pop] at h
    split at h
    · cases h
    · next g =>
      split at h
      · cases h
      · next r rs hg =>
        cases h
        have hsub : ∀ x ∈ rs, x ∈ m.buffers g := by
          intro x hx
          rw [hg]
          exact List.mem_cons_of_mem _ hx
        have hless : Taken m p b (some g) { m with
            buffers := update m.buffers g (rs.drop n) } := by
          refine ⟨rfl, rfl, fun _ _ _ => id, ?_, fun _ => .inl⟩
          intro c x hx
          exact .inl (mem_of_mem_update (fun y hy => hsub y (List.mem_of_mem_drop hy)) hx)
        apply hless.receive
        · exact .inr (.inr ⟨g, rfl, by rw [hg]; exact List.mem_cons_self⟩)
        · exact fun x hx => .inr (.inr ⟨g, rfl, hsub x (List.mem_of_mem_take hx)⟩)

end Contents

/-- Every runnable is in a place of the pool it has been pushed to, and no handle has been
dangling. -/
structure Housed (s : State R) : Prop where
  placed : Placed s.layout
  homed : Homed s.layout
  injectors : ∀ p i r, r ∈ s.mem.injectors p i → (p, r) ∈ s.mem.pushed
  buffers : ∀ b r, r ∈ s.mem.buffers b → ∃ p, s.layout.home b = some p ∧ (p, r) ∈ s.mem.pushed
  returned : ∀ e ∈ s.mem.returned, e ∈ s.mem.pushed
  single : ∀ p p' r, (p, r) ∈ s.mem.pushed → (p', r) ∈ s.mem.pushed → p' = p
  sound : s.mem.fault = false

namespace Housed

variable {s s' : State R}

/-- The buffer of a context is one of its pool. -/
lemma home_of_context (h : Housed s) {ctx : WorkerContext}
    (hk : (s.layout.workers k).point.context = some ctx) :
    s.layout.home ctx.buffer = some (s.layout.workers k).pool :=
  h.homed.slots _ _ _ ((h.placed.fits k).slot ctx hk)

/-- A runnable in a buffer of pool `p` has been pushed to `p`. -/
lemma pushed_of_buffer (h : Housed s) {r : R} (hb : s.layout.home b = some p)
    (hr : r ∈ s.mem.buffers b) : (p, r) ∈ s.mem.pushed := by
  obtain ⟨q, hq, hmem⟩ := h.buffers b r hr
  rw [hb] at hq
  cases hq
  exact hmem

/-- A runnable a worker finds has been pushed to its pool. -/
lemma pushed_of_within (h : Housed s) {ctx : WorkerContext} {guard : Option ℕ} {r : R}
    (hk : (s.layout.workers k).point = .popping ctx guard)
    (hr : s.mem.Within (s.layout.workers k).pool ctx.buffer guard r) :
    ((s.layout.workers k).pool, r) ∈ s.mem.pushed := by
  obtain hown | ⟨i, hi⟩ | ⟨g, rfl, hg⟩ := hr
  · exact h.pushed_of_buffer (h.home_of_context (by rw [hk]; rfl)) hown
  · exact h.injectors _ i r hi
  · exact h.pushed_of_buffer (h.homed.guards k g (by rw [hk]; rfl)) hg

/-- A step that moves no runnable. -/
lemma event (h : Housed s) {l : Layout} (hm : Move s.layout e l) :
    Housed ⟨l, s.mem.after e⟩ := by
  have hsame : (s.mem.after e).buffers = s.mem.buffers ∧
      (s.mem.after e).pushed = s.mem.pushed ∧ (s.mem.after e).returned = s.mem.returned ∧
      (s.mem.after e).fault = s.mem.fault := by
    cases e <;> exact ⟨rfl, rfl, rfl, rfl⟩
  have hless : ∀ p i r, r ∈ (s.mem.after e).injectors p i → r ∈ s.mem.injectors p i := by
    intro p i r hr
    cases e
    case destroy q =>
      by_cases hp : p = q
      · change r ∈ update s.mem.injectors q (fun _ => []) p i at hr
        rw [hp, update_self] at hr
        cases hr
      · change r ∈ update s.mem.injectors q (fun _ => []) p i at hr
        rwa [update_of_ne hp] at hr
    all_goals exact hr
  obtain ⟨hbuffers, hpushed, hreturned, hfault⟩ := hsame
  constructor
  · exact h.placed.step hm
  · exact h.homed.step hm
  · intro p i r hr
    rw [hpushed]
    exact h.injectors p i r (hless p i r hr)
  · intro b r hr
    rw [hbuffers] at hr
    rw [hpushed]
    obtain ⟨p, hp, hmem⟩ := h.buffers b r hr
    exact ⟨p, hm.home hp, hmem⟩
  · rw [hpushed, hreturned]
    exact h.returned
  · rw [hpushed]
    exact h.single
  · rw [hfault]
    exact h.sound

/-- A worker takes a runnable. -/
lemma pop (h : Housed s) {ctx : WorkerContext} {guard : Option ℕ} {m : Contents R}
    (hk : (s.layout.workers k).point = .popping ctx guard)
    (hm : Contents.Taken s.mem (s.layout.workers k).pool ctx.buffer guard m) :
    Housed ⟨s.layout.setPoint k (.running ctx), m⟩ := by
  constructor
  · exact h.placed.inScope _ (by rw [hk]; rfl) rfl rfl
  · exact h.homed.setWorker nofun
  · intro p i r hr
    rw [hm.pushed]
    exact h.injectors p i r (hm.injectors p i r hr)
  · intro b r hr
    rw [hm.pushed]
    rcases hm.buffers b r hr with hold | ⟨rfl, hnew⟩
    · exact h.buffers b r hold
    · exact ⟨_, h.home_of_context (by rw [hk]; rfl), h.pushed_of_within hk hnew⟩
  · intro e he
    rw [hm.pushed]
    rcases hm.returned e he with hold | ⟨hp, hnew⟩
    · exact h.returned e hold
    · have hmem := h.pushed_of_within hk hnew
      rwa [← hp] at hmem
  · rw [hm.pushed]
    exact h.single
  · rw [hm.fault]
    exact h.sound

/-- A thread pushes. -/
lemma push (h : Housed s) {t : ℕ ⊕ F} {r : R} (i : ℕ)
    (hp : (s.layout.pools p).life.hasQueue = true)
    (hr : ∀ e ∈ s.mem.pushed, e.2 = r → e.1 = p) : Housed (s.push t p r i) := by
  have hsingle : ∀ q q' x, (q, x) ∈ (p, r) :: s.mem.pushed →
      (q', x) ∈ (p, r) :: s.mem.pushed → q' = q := by
    intro q q' x hq hq'
    rcases List.mem_cons.mp hq with heq | hold
    · cases heq
      rcases List.mem_cons.mp hq' with heq' | hold'
      · cases heq'
        rfl
      · exact hr _ hold' rfl
    · rcases List.mem_cons.mp hq' with heq' | hold'
      · cases heq'
        exact (hr _ hold rfl).symm
      · exact h.single q q' x hold hold'
  unfold State.push
  split
  · next a hself =>
    -- the handle leads to the context of the caller, whose buffer is one of pool `p`
    obtain ⟨ctx, ⟨k, -, hpool, hscope⟩, rfl⟩ := (h.placed.selfSpawn_iff hp).mp hself
    have hctx := Point.context_of_scope hscope
    rw [h.placed.dequeAt_eq hctx]
    have hhome := h.home_of_context hctx
    rw [hpool] at hhome
    refine ⟨h.placed, h.homed, ?_, ?_, ?_, hsingle, h.sound⟩
    · exact fun q j x hx => List.mem_cons_of_mem _ (h.injectors q j x hx)
    · intro b x hx
      change x ∈ update s.mem.buffers ctx.buffer (s.mem.buffers ctx.buffer ++ [r]) b at hx
      by_cases hb : b = ctx.buffer
      · rw [hb, update_self] at hx
        rw [hb]
        refine ⟨p, hhome, ?_⟩
        rcases List.mem_append.mp hx with hold | hnew
        · exact List.mem_cons_of_mem _ (h.pushed_of_buffer hhome hold)
        · rw [List.mem_singleton.mp hnew]
          exact List.mem_cons_self
      · rw [update_of_ne hb] at hx
        obtain ⟨q, hq, hmem⟩ := h.buffers b x hx
        exact ⟨q, hq, List.mem_cons_of_mem _ hmem⟩
    · exact fun e he => List.mem_cons_of_mem _ (h.returned e he)
  · refine ⟨h.placed, h.homed, ?_, ?_, ?_, hsingle, h.sound⟩
    · intro q j x hx
      change x ∈ update s.mem.injectors p
        (update (s.mem.injectors p) i (s.mem.injectors p i ++ [r])) q j at hx
      by_cases hq : q = p
      · rw [hq, update_self] at hx
        rw [hq]
        by_cases hj : j = i
        · rw [hj, update_self] at hx
          rcases List.mem_append.mp hx with hold | hnew
          · exact List.mem_cons_of_mem _ (h.injectors p i x hold)
          · rw [List.mem_singleton.mp hnew]
            exact List.mem_cons_self
        · rw [update_of_ne hj] at hx
          exact List.mem_cons_of_mem _ (h.injectors p j x hx)
      · rw [update_of_ne hq] at hx
        exact List.mem_cons_of_mem _ (h.injectors q j x hx)
    · intro b x hx
      obtain ⟨q, hq, hmem⟩ := h.buffers b x hx
      exact ⟨q, hq, List.mem_cons_of_mem _ hmem⟩
    · exact fun e he => List.mem_cons_of_mem _ (h.returned e he)

/-- No pool, no runnable. -/
lemma start : Housed (State.start R) where
  placed := .start
  homed := ⟨nofun, nofun⟩
  injectors _ _ _ h := by cases h
  buffers _ _ h := by cases h
  returned _ h := by cases h
  single _ _ _ h := by cases h
  sound := rfl

section Run

variable [DecidableEq R]

/-- Every step keeps the runnables in their pools. -/
theorem step {a : Action F R} (h : Housed s) (hs : s.step a = some s') : Housed s' := by
  cases a with
  | event e =>
    obtain ⟨l, hl, rfl⟩ := Option.map_eq_some_iff.mp hs
    exact h.event (.of_step hl)
  | pop k o =>
    simp only [State.step] at hs
    split at hs
    · next ctx guard hk =>
      obtain ⟨m, hm, rfl⟩ := Option.map_eq_some_iff.mp hs
      exact h.pop hk (Contents.taken_of_pop hm)
    · cases hs
  | push t p r i =>
    obtain ⟨⟨-, hp, hr⟩, hs⟩ := Option.ite_none_right_eq_some.mp hs
    cases hs
    exact h.push i hp hr

/-- In every reachable state the runnables are in their pools. -/
theorem of_reachable (h : Reachable (machine F R) s) : Housed s := by
  refine Reach.invariant ?_ ?_ h
  · rintro s rfl
    exact .start
  · intro s a s' _ hi _ hs
    exact hi.step hs

end Run

/-- What the queue of a pool holds or has returned has been pushed to the pool. -/
lemma pushed_of_holds (h : Housed s) {r : R} (hr : s.HoldsOrReturned p r) :
    (p, r) ∈ s.mem.pushed := by
  obtain ⟨i, hi⟩ | ⟨b, hb, hmem⟩ | hreturned := hr
  · exact h.injectors p i r hi
  · refine h.pushed_of_buffer ?_ hmem
    obtain ⟨i, hi⟩ | ⟨k, rfl, ⟨ctx, hctx, rfl⟩ | hguard⟩ := hb
    · exact h.homed.slots p i b hi
    · exact h.home_of_context hctx
    · exact h.homed.guards k b hguard
  · exact h.returned _ hreturned

end Housed

/-- **Handles are valid and pools are isolated.**  In every state of every run no dangling
handle has been used.  A push to a queue that is there takes the self-spawn path just when the
calling thread is inside a worker scope of that queue, and then the deque it writes is that of
the context the thread owns, which is the one registered in the slot of the thread.  A runnable
that the queue of a pool holds or has returned has been pushed to this pool and to no other. -/
theorem handle_isolated [DecidableEq R] {s : State R} (hs : Reachable (machine F R) s) :
    s.mem.fault = false ∧
    (∀ (t : ℕ ⊕ F) (p : ℕ), (s.layout.pools p).life.hasQueue = true →
      ((∃ a, s.layout.selfSpawn t p = some a) ↔ ∃ ctx, s.layout.Inside t p ctx) ∧
      ∀ a, s.layout.selfSpawn t p = some a → ∃ k ctx, t = .inl k ∧
        (s.layout.workers k).pool = p ∧ (s.layout.workers k).point.context = some ctx ∧
        s.layout.deques a = some k ∧
        (s.layout.pools p).stealers (s.layout.workers k).index = some ctx.buffer ∧
        ∀ r i, s.push t p r i = { s with mem := s.mem.pushDeque p ctx.buffer r }) ∧
    ∀ p r, s.HoldsOrReturned p r →
      (p, r) ∈ s.mem.pushed ∧ ∀ p', (p', r) ∈ s.mem.pushed → p' = p := by
  have h := Housed.of_reachable hs
  refine ⟨h.sound, ?_, ?_⟩
  · intro t p hp
    constructor
    · constructor
      · rintro ⟨a, ha⟩
        obtain ⟨ctx, hinside, -⟩ := (h.placed.selfSpawn_iff hp).mp ha
        exact ⟨ctx, hinside⟩
      · rintro ⟨ctx, hinside⟩
        exact ⟨ctx.addr, (h.placed.selfSpawn_iff hp).mpr ⟨ctx, hinside, rfl⟩⟩
    · intro a ha
      obtain ⟨ctx, ⟨k, rfl, rfl, hscope⟩, rfl⟩ := (h.placed.selfSpawn_iff hp).mp ha
      have hctx := Point.context_of_scope hscope
      refine ⟨k, ctx, rfl, rfl, hctx, ?_, (h.placed.fits k).slot ctx hctx, ?_⟩
      · exact (h.placed.deques _ k).mpr ⟨ctx, hctx, rfl⟩
      · exact State.push_of_selfSpawn ha (h.placed.dequeAt_eq hctx)
  · intro p r hr
    have hmem := h.pushed_of_holds hr
    exact ⟨hmem, fun p' hp' => h.single p p' r hmem hp'⟩

/-- A worker of pool 0 unwinds, pushing as it goes, and is replaced; the replacement exits, the
pool is dropped, and pool 1 is built at the address of the old queue, with a deque where the
old ones were. -/
def reuse : List (Action Unit ℕ) :=
  [.event (.build 0 7 1), .event (.spinUp 0 0), .event (.register 0 3 0), .event (.enter 0),
    .push (.inr ()) 0 10 0, .pop 0 (.injector 0 0), .push (.inl 0) 0 11 0, .event (.unwind 0),
    .push (.inl 0) 0 12 0, .event (.dropScope 0), .push (.inl 0) 0 13 0, .event (.dropContext 0),
    .event (.dropQueue 0), .event (.dropSentry 0 1), .event (.register 1 3 1), .event (.enter 1),
    .pop 1 (.injector 0 0), .event (.finish 1), .event (.shutdown 0), .event (.exit 1),
    .event (.dropScope 1), .event (.dropContext 1), .event (.dropQueue 1),
    .event (.dropSentry 1 0), .event (.release 0), .event (.destroy 0), .event (.build 1 7 1),
    .event (.spinUp 1 0), .event (.register 0 3 2), .event (.enter 0), .push (.inr ()) 1 20 0,
    .pop 0 (.injector 0 0), .push (.inl 0) 1 21 0]

/-- The state after `reuse`. -/
def reused : State ℕ := (machine Unit ℕ).final (.start ℕ) reuse (by decide +kernel)

/-- Thread 0, once a worker of pool 0, pushes to the queue of pool 1 through its handle. -/
theorem handle_isolated_reused :
    (reused.layout.pools 0).addr = (reused.layout.pools 1).addr ∧
      reused.layout.selfSpawn (F := Unit) (.inl 0) 1 = some 3 ∧ reused.mem.buffers 2 = [21] ∧
      reused.mem.fault = false ∧ ∀ p, (p, 21) ∈ reused.mem.pushed → p = 1 := by
  have hreached : Reachable (machine Unit ℕ) reused := .final rfl _
  have hall := handle_isolated hreached
  refine ⟨by decide +kernel, by decide +kernel, by decide +kernel, hall.1, ?_⟩
  apply (hall.2.2 1 21 _).2
  refine .inr (.inl ⟨2, .inl ⟨0, ?_⟩, ?_⟩)
  · decide +kernel
  · decide +kernel

end Handles

end AffinityPool
