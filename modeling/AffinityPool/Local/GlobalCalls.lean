import AffinityPool.Local.DropBlocking
import AffinityPool.Pool.BuildGlobal

/-!
# The free functions `spawn` and `spawn_local`

A future of one of the free functions decides at its first poll where its closure runs.  When
the lock `THREADPOOL` is set, it becomes a task of the installed pool; otherwise the polling
thread runs it in place.  The machine of this file has the callers of `build_global`, each with
a pool of its own that may be at work already, and the calls of the free functions.  The threads
of a pool are its workers and the threads outside; the polling thread is one of them for
every pool.

No closure runs twice or in two places (`served_once`), and as soon as one call of
`build_global` has returned, whatever it has reported, closures run in place no more and all go
to the same pool (`calls_agree`).
-/

namespace AffinityPool

namespace Local

/-! ## The task a step makes -/

section Makes

variable {q : Shape} {P R : Type}

/-- The task that a step makes. -/
def Choice.makes : Choice q P R → Option R
  | .queue (.spawn r _ _) => some r
  | .create r => some r
  | _ => none

/-- Replacing another task leaves this one unborn. -/
lemma unborn_update [DecidableEq R] {task : R → Task} {r x : R} {j : Task}
    (hr : (task r).handle = .unborn) (hx : x = r → j.handle = .unborn) :
    (Function.update task x j r).handle = .unborn := by
  by_cases h : r = x
  · subst h
    rw [Function.update_self]
    exact hx rfl
  · rw [Function.update_of_ne h]
    exact hr

variable [DecidableEq P] [DecidableEq R] {s s' : State q P R} {t : Thread q P} {c : Choice q P R}

/-- **Frame.**  A task is unborn until a step makes it. -/
theorem Move.unborn {r : R} (hs : Sound s) (hm : Move s t c s') (hc : c.makes ≠ some r)
    (hr : (s.task r).handle = .unborn) : (s'.task r).handle = .unborn := by
  have hfuture : ∀ {x : R} {f : SpawnFuture} {j : Task}, (s.task x).handle = .future f →
      x = r → j.handle = .unborn := by
    rintro x f j hf rfl
    rw [hr] at hf
    cases hf
  cases hm with
  | queue | park | unpark => exact hr
  | spawn | create => exact unborn_update hr fun hx => absurd (congrArg some hx) hc
  | schedule hcall hf | poll hcall hf | discard hcall hf | close hcall hf | forget hcall hf =>
    exact unborn_update hr (hfuture hf)
  | ready ha hout hf | pending ha hout hf =>
    exact unborn_update hr (hfuture hf)
  | @stopped x ha he =>
    -- only a future in its destructor is cancelled
    have hended := (hs.cancelling t x false ha).1
    refine unborn_update hr ?_
    rintro rfl
    rw [hr] at hended
    cases hended
  | cancel | skip | enter | finish => exact unborn_update hr fun hx => hx ▸ hr

end Makes

/-- A task that does not exist has not been executed. -/
lemma Sound.ran_of_unborn {q : Shape} {P R : Type} [Fintype P] [DecidableEq R] {s : State q P R}
    {r : R} (h : Sound s) (hs : Storage s.base) (hr : (s.task r).handle = .unborn) :
    (s.task r).ran = 0 := by
  rw [(h.task r).ran, if_pos (Or.inl (h.idle_of_unborn hs hr))]

end Local

namespace Calls

open Transition System

variable {I C P R : Type} {q : I → Shape}

/-- The free functions. -/
inductive Free
  | spawn
  | spawnLocal
  deriving DecidableEq

/-- Where the future of a call of a free function is. -/
inductive Stage (I : Type)
  | unpolled
  /-- Its closure was run by the polling thread. -/
  | inPlace
  /-- Its closure was made a task of the pool. -/
  | pooled (w : I)
  /-- Dropped before it was polled. -/
  | dropped

/-- A state: the lock with the callers of `build_global`, their pools, and the calls of the free
functions. -/
structure State (q : I → Shape) (C P R : Type) where
  global : Global.State I
  pools : ∀ w, Local.State (q w) P (C ⊕ R)
  call : C → Stage I

/-- What happens next. -/
inductive Action (q : I → Shape) (C P R : Type)
  /-- A step of a caller of `build_global`. -/
  | build (i : I)
  /-- A step of a pool. -/
  | pool (w : I) (t : Thread (q w) P) (c : Local.Choice (q w) P (C ⊕ R))
  /-- The first poll of the future of a call, by what is this thread of every pool. -/
  | poll (c : C) (t : ∀ w, Thread (q w) P) (hash : ℕ) (cell : Option ProducerRoute)
  /-- The future of a call is dropped before it is polled. -/
  | forget (c : C)

/-- `threadpool.spawn(func)` and `threadpool.spawn_local(func)`, with the task `r` for the
closure. -/
def Free.submit {s : Shape} (r : R) (hash : ℕ) (cell : Option ProducerRoute) :
    Free → Local.Choice s P R
  | .spawn => .queue (.spawn r hash cell)
  | .spawnLocal => .create r

namespace State

variable [DecidableEq I] [DecidableEq C]

/-- Replace the stage of one call. -/
def setCall (s : State q C P R) (c : C) (x : Stage I) : State q C P R :=
  { s with call := Function.update s.call c x }

/-- Replace one pool. -/
def setPool (s : State q C P R) (w : I) (p : Local.State (q w) P (C ⊕ R)) : State q C P R :=
  { s with pools := Function.update s.pools w p }

omit [DecidableEq C] in
@[simp] lemma setPool_self (s : State q C P R) (w : I) (p : Local.State (q w) P (C ⊕ R)) :
    (s.setPool w p).pools w = p := Function.update_self ..

omit [DecidableEq C] in
lemma setPool_of_ne (s : State q C P R) {v w : I} (h : v ≠ w)
    (p : Local.State (q w) P (C ⊕ R)) : (s.setPool w p).pools v = s.pools v :=
  Function.update_of_ne h _ _

variable [DecidableEq P] [DecidableEq R]

/-- One step. -/
def step (fn : C → Free) (s : State q C P R) : Action q C P R → Option (State q C P R)
  | .build i => (s.global.step i).map fun g => { s with global := g }
  | .pool w t c =>
    -- nobody else makes the tasks of the free functions
    if ∀ x ∈ c.makes, x.isRight then ((s.pools w).step (t, c)).map fun p => s.setPool w p
    else none
  | .poll c t hash cell =>
    match s.call c, s.global.slot with
    | .unpolled, .installed w =>
      ((s.pools w).step (t w, (fn c).submit (.inl c) hash cell)).map fun p =>
        (s.setPool w p).setCall c (.pooled w)
    | .unpolled, _ => some (s.setCall c .inPlace)
    | _, _ => none
  | .forget c =>
    match s.call c with
    | .unpolled => some (s.setCall c .dropped)
    | _ => none

end State

/-- The pools of the callers, and the free functions, on an initially empty lock. -/
def machine (q : I → Shape) (P R : Type) [DecidableEq I] [DecidableEq C] [DecidableEq P]
    [DecidableEq R] (fn : C → Free) : System (State q C P R) (Action q C P R) where
  init s := s = ⟨⟨.empty, fun _ => .check⟩, fun w => .start (q w) P (C ⊕ R), fun _ => .unpolled⟩
  step := State.step fn

/-! ## The parts of a run -/

section Runs

variable [DecidableEq I] [DecidableEq C] [DecidableEq P] [DecidableEq R] {fn : C → Free}
  {s s' : State q C P R} {a : Action q C P R}

/-- The steps, with what each of them has found. -/
inductive Move (fn : C → Free) (s : State q C P R) : State q C P R → Prop
  | build {i : I} {g : Global.State I} (hg : s.global.step i = some g) :
    Move fn s { s with global := g }
  | pool {w : I} {t : Thread (q w) P} {c : Local.Choice (q w) P (C ⊕ R)}
      {p : Local.State (q w) P (C ⊕ R)} (hc : ∀ x ∈ c.makes, x.isRight)
      (hp : (s.pools w).step (t, c) = some p) : Move fn s (s.setPool w p)
  | submit {c : C} {w : I} {t : Thread (q w) P} {hash : ℕ} {cell : Option ProducerRoute}
      {p : Local.State (q w) P (C ⊕ R)} (hc : s.call c = .unpolled)
      (hs : s.global.slot = .installed w)
      (hp : (s.pools w).step (t, (fn c).submit (.inl c) hash cell) = some p) :
    Move fn s ((s.setPool w p).setCall c (.pooled w))
  | inPlace {c : C} (hc : s.call c = .unpolled) (hs : ∀ w, s.global.slot ≠ .installed w) :
    Move fn s (s.setCall c .inPlace)
  | forget {c : C} (hc : s.call c = .unpolled) : Move fn s (s.setCall c .dropped)

/-- **Inversion.**  Every step is one of the listed ones. -/
theorem Move.of_step (h : s.step fn a = some s') : Move fn s s' := by
  cases a with
  | build i =>
    obtain ⟨g, hg, rfl⟩ := Option.map_eq_some_iff.mp h
    exact .build hg
  | pool w t c =>
    simp only [State.step] at h
    split at h
    · obtain ⟨p, hp, rfl⟩ := Option.map_eq_some_iff.mp h
      exact .pool ‹_› hp
    · cases h
  | poll c t hash cell =>
    simp only [State.step] at h
    split at h
    · obtain ⟨p, hp, rfl⟩ := Option.map_eq_some_iff.mp h
      exact .submit ‹_› ‹_› hp
    · rename_i hc hs
      cases h
      exact .inPlace hc fun w hw => hs w hw
    · cases h
  | forget c =>
    simp only [State.step] at h
    split at h <;> cases h
    exact .forget ‹_›

/-- The callers of `build_global` take steps of their own only. -/
lemma global_reachable (h : (machine q P R fn).Reachable s) :
    (Global.machine I).Reachable s.global := by
  refine h.map State.global ?_ ?_
  · rintro _ rfl
    rfl
  · intro u a u' hstep
    cases Move.of_step hstep with
    | build hg => exact Or.inr ⟨_, hg⟩
    | _ => exact Or.inl rfl

/-- Every pool takes steps of its own only. -/
lemma pool_reachable (h : (machine q P R fn).Reachable s) (w : I) :
    (Local.machine (q w) P (C ⊕ R)).Reachable (s.pools w) := by
  refine h.map (fun s => s.pools w) ?_ ?_
  · rintro _ rfl
    rfl
  · intro u a u' hstep
    have hset : ∀ {v : I} {p : Local.State (q v) P (C ⊕ R)}
        {b : Thread (q v) P × Local.Choice (q v) P (C ⊕ R)}, (u.pools v).step b = some p →
          (u.setPool v p).pools w = u.pools w ∨
            ∃ b, (u.pools w).step b = some ((u.setPool v p).pools w) := by
      intro v p b hp
      by_cases hv : w = v
      · subst hv
        refine Or.inr ⟨b, ?_⟩
        rw [hp, State.setPool_self]
      · exact Or.inl (State.setPool_of_ne _ hv _)
    cases Move.of_step hstep with
    | pool hc hp => exact hset hp
    | submit hc hs hp => exact hset hp
    | _ => exact Or.inl rfl

/-- A pool that is installed stays so. -/
lemma installed_of_step {g g' : Global.State I} {i w : I} (h : g.step i = some g')
    (hg : g.slot = .installed w) (hc : Global.Coherent g) : g'.slot = .installed w := by
  obtain ⟨slot, stage, hm, rfl⟩ := Global.Move.of_step h
  rcases hm.slot_cases with ⟨hsame, -⟩ | ⟨hempty, -⟩ | ⟨hi, -⟩
  · exact hsame.trans hg
  · rw [hg] at hempty
    cases hempty
  · have hslot := hc.initialising i hi
    rw [hg] at hslot
    cases hslot

/-- Whatever a call of `build_global` has reported, a pool is installed then. -/
lemma installed_of_returned {g : Global.State I} (h : (Global.machine I).Reachable g) {i : I}
    {r : Except Error Unit} (hr : g.stage i = .returned r) : ∃ w, g.slot = .installed w := by
  revert i r
  refine h.invariant (I := fun g => ∀ {i r}, g.stage i = .returned r → ∃ w, g.slot = .installed w)
    ?_ ?_
  · rintro _ rfl i r hi
    cases hi
  · intro u j u' hu ih _ hstep i r hi
    have hkeep : (∃ w, u.slot = .installed w) → ∃ w, u'.slot = .installed w := by
      rintro ⟨w, hw⟩
      exact ⟨w, installed_of_step hstep hw (.of_reachable hu)⟩
    obtain ⟨slot, stage, hm, rfl⟩ := Global.Move.of_step hstep
    rcases update_cases hi with ⟨rfl, rfl⟩ | ⟨-, hold⟩
    · cases hm with
      | reject hi hs => exact ⟨_, hs⟩
      | discard hi hs => exact ⟨_, hs⟩
      | install hi => exact ⟨_, rfl⟩
    · exact hkeep (ih hold)

/-! ## Where closures run -/

/-- The task of a call exists in the pool that was installed when the call was polled, and nowhere
else. -/
def State.Placed (s : State q C P R) (c : C) : Prop :=
  ∀ w, (s.call c = .pooled w → s.global.slot = .installed w) ∧
    (s.call c ≠ .pooled w → ((s.pools w).task (.inl c)).handle = .unborn)

/-- A step of a pool that makes another task keeps the tasks that do not exist. -/
lemma unborn_setPool [Fintype P] {v w : I} {p : Local.State (q v) P (C ⊕ R)} {x : C ⊕ R}
    {t : Thread (q v) P} {c : Local.Choice (q v) P (C ⊕ R)}
    (h : (machine q P R fn).Reachable s) (hp : (s.pools v).step (t, c) = some p)
    (hc : v = w → c.makes ≠ some x) (hx : ((s.pools w).task x).handle = .unborn) :
    (((s.setPool v p).pools w).task x).handle = .unborn := by
  by_cases hv : w = v
  · subst hv
    rw [State.setPool_self]
    exact (Local.Move.of_step hp).unborn (.of_reachable (pool_reachable h w)) (hc rfl) hx
  · rw [State.setPool_of_ne _ hv]
    exact hx

/-- **Step lemma.** -/
theorem State.Placed.step [Fintype P] {c : C} (h : s.Placed c)
    (hr : (machine q P R fn).Reachable s) (hm : Move fn s s') : s'.Placed c := by
  intro w
  obtain ⟨hslot, hunborn⟩ := h w
  cases hm with
  | build hg =>
    refine ⟨fun hc => ?_, hunborn⟩
    exact installed_of_step hg (hslot hc) (.of_reachable (global_reachable hr))
  | @pool v t c' p hc' hp =>
    refine ⟨hslot, fun hc => unborn_setPool hr hp (fun _ hmakes => ?_) (hunborn hc)⟩
    have hright := hc' _ hmakes
    cases hright
  | @submit d v t hash cell p hd hs hp =>
    have hmakes : ((fn d).submit (.inl d) hash cell : Local.Choice (q v) P (C ⊕ R)).makes =
        some (.inl d) := by
      cases fn d <;> rfl
    by_cases hcd : c = d
    · subst hcd
      simp only [State.setCall, Function.update_self]
      refine ⟨fun hv => ?_, fun hv => ?_⟩
      · injection hv with hv
        exact hv ▸ hs
      · refine unborn_setPool hr hp (fun hvw => absurd (congrArg _ hvw) hv) (hunborn ?_)
        rw [hd]
        simp
    · simp only [State.setCall, Function.update_of_ne hcd]
      refine ⟨hslot, fun hc => unborn_setPool hr hp (fun _ => ?_) (hunborn hc)⟩
      rw [hmakes]
      intro heq
      injection heq with heq
      injection heq with heq
      exact hcd heq.symm
  | @inPlace d hd hs | @forget d hd =>
    by_cases hcd : c = d
    · subst hcd
      simp only [State.setCall, Function.update_self]
      refine ⟨nofun, fun _ => hunborn ?_⟩
      rw [hd]
      simp
    · simp only [State.setCall, Function.update_of_ne hcd]
      exact ⟨hslot, hunborn⟩

/-- **Run lemma.** -/
theorem State.Placed.of_reachable [Fintype P] (h : (machine q P R fn).Reachable s) (c : C) :
    s.Placed c := by
  refine h.invariant (I := fun s => s.Placed c) ?_ ?_
  · rintro _ rfl w
    exact ⟨nofun, fun _ => rfl⟩
  · intro u a u' hr hu _ hstep
    exact hu.step hr (.of_step hstep)

/-- How often the closure of a call was entered by the polling thread, or in a pool. -/
def State.entered (s : State q C P R) (c : C) : Option I → ℕ
  | none =>
    match s.call c with
    | .inPlace => 1
    | _ => 0
  | some w => ((s.pools w).task (.inl c)).ran

/-- **No closure runs twice or in two places.**  In every run, whatever the callers of
`build_global`, the pools and the calls of the free functions do, the closure of a call is
entered at most once, by the polling thread or in the installed pool, and nowhere else. -/
theorem served_once [Fintype P] (h : (machine q P R fn).Reachable s) (c : C) :
    ∃ x, s.entered c x ≤ 1 ∧ (∀ y, y ≠ x → s.entered c y = 0) ∧
      ∀ w, x = some w → s.global.slot = .installed w := by
  have hplaced := State.Placed.of_reachable h c
  have hsound : ∀ w, Local.Sound (s.pools w) := fun w => .of_reachable (pool_reachable h w)
  have hzero : ∀ w, s.call c ≠ .pooled w → s.entered c (some w) = 0 := by
    intro w hw
    have hbase := Local.base_reachable (pool_reachable h w)
    exact (hsound w).ran_of_unborn (.of_reachable hbase) ((hplaced w).2 hw)
  cases hc : s.call c with
  | pooled w =>
    refine ⟨some w, ?_, ?_, ?_⟩
    · rw [State.entered, ((hsound w).task _).ran]
      split <;> omega
    · rintro (_ | v) hv
      · simp only [State.entered, hc]
      · refine hzero v ?_
        rw [hc]
        rintro ⟨⟩
        exact hv rfl
    · rintro v ⟨⟩
      exact (hplaced w).1 hc
  | unpolled | inPlace | dropped =>
    refine ⟨none, ?_, ?_, nofun⟩
    · simp [State.entered, hc]
    · rintro (_ | v) hv
      · exact absurd rfl hv
      · refine hzero v ?_
        rw [hc]
        simp

/-- What has become of the calls, once the pool is installed. -/
structure Agreed (s s' : State q C P R) (w : I) : Prop where
  installed : s'.global.slot = .installed w
  call : ∀ c, s'.call c ≠ s.call c → s'.call c = .dropped ∨ s'.call c = .pooled w

/-- **Step lemma.** -/
theorem Agreed.step {u : State q C P R} {w : I} (h : Agreed s u w)
    (hr : (machine q P R fn).Reachable u) (hm : Move fn u s') : Agreed s s' w := by
  obtain ⟨hslot, hcall⟩ := h
  have hset : ∀ {d : C} {x : Stage I}, x = .dropped ∨ x = .pooled w → ∀ c,
      Function.update u.call d x c ≠ s.call c →
        Function.update u.call d x c = .dropped ∨ Function.update u.call d x c = .pooled w := by
    intro d x hx c hc
    by_cases hcd : c = d
    · subst hcd
      rw [Function.update_self]
      exact hx
    · rw [Function.update_of_ne hcd] at hc ⊢
      exact hcall c hc
  cases hm with
  | build hg => exact ⟨installed_of_step hg hslot (.of_reachable (global_reachable hr)), hcall⟩
  | pool hc hp => exact ⟨hslot, hcall⟩
  | submit hd hs hp =>
    refine ⟨hslot, hset (Or.inr ?_)⟩
    rw [hslot] at hs
    cases hs
    rfl
  | inPlace hd hs => exact absurd hslot (hs w)
  | forget hd => exact ⟨hslot, hset (Or.inl rfl)⟩

/-- **The free functions agree on the pool.**  As soon as some call of `build_global` has returned,
with success or with an error, a pool is installed for good, and every call that is polled
for the first time afterwards goes to this pool. -/
theorem calls_agree (h : (machine q P R fn).Reachable s) {i : I} {r : Except Error Unit}
    (hr : s.global.stage i = .returned r) :
    ∃ w, s.global.slot = .installed w ∧
      ∀ s', (machine q P R fn).Leads (fun _ _ => True) s s' →
        s'.global.slot = .installed w ∧
          ∀ c, s'.call c ≠ s.call c → s'.call c = .dropped ∨ s'.call c = .pooled w := by
  obtain ⟨w, hw⟩ := installed_of_returned (global_reachable h) hr
  refine ⟨w, hw, fun s' hl => ?_⟩
  have hagreed : Agreed s s' w := by
    refine hl.stable (I := fun u => Agreed s u w) h ?_ ⟨hw, fun c hc => absurd rfl hc⟩
    intro u a u' hu hagreed _ hstep
    exact hagreed.step hu (.of_step hstep)
  exact ⟨hagreed.installed, hagreed.call⟩

end Runs

/-- The submission of a closure and its execution by the only worker of a pool. -/
def servedRun : List (Thread solo Unit × Local.Choice solo Unit (ℕ ⊕ ℕ)) :=
  Local.goes (.inr ()) 2 ++ Local.goes solo.worker 3 ++
    [(solo.worker, .queue (.steal (.batch 1))), (solo.worker, .begin)]

/-- Call 0 is polled before there is a global pool, call 1 after two callers have returned. -/
def pooledRun : List (Action (fun _ : Bool => solo) ℕ Unit ℕ) :=
  [.poll 0 (fun _ => .inr ()) 0 none, .build true, .build true, .build true, .build false,
    .poll 1 (fun _ => .inr ()) 0 none] ++ servedRun.map fun b => .pool true b.1 b.2

/-- The state after `pooledRun`. -/
def pooled : State (fun _ : Bool => solo) ℕ Unit ℕ :=
  (machine (fun _ : Bool => solo) Unit ℕ fun _ => .spawn).final
    ⟨⟨.empty, fun _ => .check⟩, fun _ => .start solo Unit (ℕ ⊕ ℕ), fun _ => .unpolled⟩
    pooledRun (by decide)

lemma pooled_reachable : (machine (fun _ : Bool => solo) Unit ℕ fun _ => .spawn).Reachable pooled :=
  .final rfl _

/-- Each closure has run once, in its place. -/
theorem served_once_pooled :
    pooled.entered 0 none = 1 ∧ pooled.entered 1 (some true) = 1 ∧
      pooled.entered 1 none = 0 ∧ pooled.entered 1 (some false) = 0 := by
  refine ⟨by decide, by decide, ?_⟩
  obtain ⟨x, -, hzero, -⟩ := served_once pooled_reachable 1
  have hx : some true = x := by
    by_contra hne
    have hone : pooled.entered 1 (some true) = 1 := by decide
    rw [hzero _ hne] at hone
    cases hone
  subst hx
  exact ⟨hzero _ (by simp), hzero _ (by simp)⟩

/-- Every call after that goes to the pool of the first caller. -/
theorem calls_agree_pooled :
    pooled.global.slot = .installed true ∧
      ∀ s', (machine (fun _ : Bool => solo) Unit ℕ fun _ => .spawn).Leads (fun _ _ => True) pooled
          s' →
        ∀ c, s'.call c ≠ pooled.call c → s'.call c = .dropped ∨ s'.call c = .pooled true := by
  have hreturned : pooled.global.stage false = .returned (.error .globalThreadpoolExists) := rfl
  obtain ⟨w, hw, hagreed⟩ := calls_agree pooled_reachable hreturned
  cases hw
  exact ⟨rfl, fun s' hl => (hagreed s' hl).2⟩

end Calls

end AffinityPool
