import AffinityPool.Foundation.Executor
import AffinityPool.Foundation.Record
import AffinityPool.Local.Await
import AffinityPool.Local.Completion

/-!
# A pool is an executor

The pool, with its queue, its threads and the handles of its tasks, refines an executor with as
many places as it has workers (`Executor`).  Scheduling a runnable submits the job, the entry of a
closure starts it, its end finishes it, a poll that takes the output hands it over; all other
steps, those of the queue, the wake-ups, the parking and the failed polls among them, change
nothing in the executor (`executor_refined`).

The invariants of executors are then facts about the pool: at any time at most as many closures
are in execution as it has workers (`closures_bounded`).
-/

namespace AffinityPool

namespace Local

/-! ## Closures in execution -/

section Running

open Transition System

variable {q : Shape} {P R : Type} [DecidableEq P] [DecidableEq R] {s s' : State q P R}
  {t : Thread q P} {c : Choice q P R} {r : R}

/-- A closure is entered by the thread that runs its runnable, with no step of the queue. -/
lemma Move.running_cases (hm : Move s t c s') (he : (s'.task r).exec = .running) :
    (s.task r).exec = .running ∨ held (s.base.pc t) = some r ∧ s'.base = s.base := by
  have hset : ∀ {x : R} {j : Task}, (Function.update s.task x j r).exec = .running →
      (j.exec = .running → (s.task x).exec = .running) → (s.task r).exec = .running := by
    intro x j hj hx
    by_cases hr : r = x
    · subst hr
      rw [Function.update_self] at hj
      exact hx hj
    · rwa [Function.update_of_ne hr] at hj
  cases hm with
  | queue | park | unpark => exact Or.inl he
  | @enter x hfree hr hidle =>
    by_cases hx : r = x
    · subst hx
      exact Or.inr ⟨hr, rfl⟩
    · simp only [State.setTask, Function.update_of_ne hx] at he
      exact Or.inl he
  | discard | skip | finish =>
    refine Or.inl (hset he fun hj => ?_)
    cases hj
  | _ => exact Or.inl (hset he id)

/-- The closures in execution are the callees of threads. -/
theorem callee_of_running (h : (machine q P R).Reachable s) (he : (s.task r).exec = .running) :
    ∃ t, (s.base.pc t).callee = some r := by
  revert r
  refine h.invariant (I := fun s => ∀ {r}, (s.task r).exec = .running →
    ∃ t, (s.base.pc t).callee = some r) ?_ ?_
  · rintro _ rfl r he
    cases he
  · rintro u ⟨t, c⟩ u' hu ih - hstep r he
    rcases (Move.of_step hstep).running_cases he with hold | ⟨hheld, hbase⟩
    · obtain ⟨v, hv⟩ := ih hold
      rcases (Move.of_step hstep).queue_cases with ⟨-, hbase⟩ | ⟨c', -, hbase, hret, -⟩
      · exact ⟨v, by rw [hbase]; exact hv⟩
      · obtain ⟨m, pc, hm, hstate⟩ := AffinityPool.State.step_cases hbase
        refine ⟨v, ?_⟩
        rw [hstate]
        dsimp only at hm ⊢
        by_cases hvt : v = t
        · subst hvt
          rw [Function.update_self]
          refine (hm.callee_keeps hv).resolve_right fun hc => ?_
          -- `Runnable::run` does not return while the closure is in execution
          subst hc
          obtain ⟨res, hmove, -⟩ := Option.map_eq_some_iff.mp hbase
          obtain ⟨x, hx⟩ := move_ret hmove
          dsimp only at hx
          have hover := hret rfl r (by rw [hx] at hv ⊢; exact hv)
          rw [hold] at hover
          cases hover
        · rw [Function.update_of_ne hvt]
          exact hv
    · exact ⟨t, by rw [hbase]; exact callee_of_held hheld⟩

omit [DecidableEq P] [DecidableEq R] in
/-- Only workers run runnables. -/
lemma worker_of_callee {b : AffinityPool.State q P R} (hk : Kinds b)
    (hr : (b.pc t).callee = some r) : ∃ w, t = .inl w := by
  cases t with
  | inl w => exact ⟨w, rfl⟩
  | inr p =>
    have hforeign := hk (.inr p)
    cases hpc : b.pc (.inr p) with
    | out k | push k x u | close k cs =>
      rw [hpc] at hr hforeign
      cases k with
      | foreign => cases hr
      | running x => cases hforeign
    | _ => rw [hpc] at hr; cases hr

/-- As long as a worker runs none, less closures are in execution than there are workers. -/
theorem card_running_lt [Fintype P] (h : (machine q P R).Reachable s) {A : Finset R}
    (hA : ∀ x ∈ A, (s.task x).exec = .running) (w : q.Worker)
    (hw : ∀ x ∈ A, (s.base.pc (.inl w)).callee ≠ some x) : A.card < q.numWorkers := by
  classical
  have hk := Kinds.of_reachable (base_reachable h)
  -- a worker has one callee at most
  have hsub : A.image some ⊆
      (Finset.univ.erase w).image fun v : q.Worker => (s.base.pc (.inl v)).callee := by
    intro y hy
    obtain ⟨x, hx, rfl⟩ := Finset.mem_image.mp hy
    obtain ⟨t, ht⟩ := callee_of_running h (hA x hx)
    obtain ⟨v, rfl⟩ := worker_of_callee hk ht
    refine Finset.mem_image.mpr ⟨v, Finset.mem_erase.mpr ⟨?_, Finset.mem_univ v⟩, ht⟩
    rintro rfl
    exact hw x hx ht
  calc A.card = (A.image some).card :=
        (Finset.card_image_of_injective A (Option.some_injective R)).symm
    _ ≤ ((Finset.univ.erase w).image fun v : q.Worker => (s.base.pc (.inl v)).callee).card :=
        Finset.card_le_card hsub
    _ ≤ (Finset.univ.erase w).card := Finset.card_image_le
    _ < (Finset.univ : Finset q.Worker).card :=
        Finset.card_erase_lt_of_mem (Finset.mem_univ w)
    _ = q.numWorkers := by rw [Finset.card_univ, Fintype.card_fin]

end Running

end Local

namespace Await

open Transition System

variable {q : Shape} {P R V E : Type}

/-! ## The executor that a state stands for -/

/-- The phase of a task. -/
def phaseOf (j : Local.Task) (isPushed : Bool) (stored : List (Except E V)) :
    JobPhase (Except E V) :=
  match j.exec, stored with
  | .idle, _ =>
    if isPushed then .submitted else if j.handle = .unborn then .unborn else .made
  | .finished _, output :: _ => .ended output
  | .running, _ | .finished _, [] => .active
  | .dropped, _ => .dropped

section Operations

variable [DecidableEq R]

/-- The phase of a task in a state. -/
def State.phase (s : State q P R V E) (r : R) : JobPhase (Except E V) :=
  phaseOf (s.base.task r) (r ∈ s.base.base.mem.pushed) (s.slot r).stored

/-- The operation of a step of the pool. -/
def State.poolOp (s : State q P R V E) (t : Thread q P) :
    Local.Choice q P R → Option (Executor.Op R (Except E V))
  | .queue (.spawn r _ _) => some (.submit r)
  | .create r => some (.make r)
  | .poll r _ _ =>
    match (s.base.task r).handle with
    | .future ⟨true, _⟩ => some (.submit r)
    | _ => none
  | .drop r =>
    match (s.base.task r).handle with
    | .future ⟨true, _⟩ => some (.discard r)
    | .future ⟨false, true⟩ => some (.cancel r)
    | _ => none
  | .cancel r => some (.cancel r)
  | .begin =>
    match Local.held (s.base.base.pc t) with
    | some r => some (if (s.base.task r).canceled then .skip r else .start r)
    | none => none
  | _ => none

/-- The operation of a poll. -/
def State.handOp (s : State q P R V E) (r : R) : Option (Executor.Op R (Except E V)) :=
  match (s.slot r).cell with
  | .full _ => some (.hand r)
  | _ => none

/-- The operation of a step. -/
def State.op (s : State q P R V E) :
    Thread q P × Choice q P R V E → Option (Executor.Op R (Except E V))
  | (t, .pool c) => s.poolOp t c
  | (t, .finish output) =>
    match Local.held (s.base.base.pc t) with
    | some r => some (.finish r output)
    | none => none
  | (t, .pollTask) =>
    match s.base.act t with
    | .polling r => s.handOp r
    | _ => none
  | (_, .join r) => s.handOp r

/-- The executor stands for the state. -/
structure Represents (s : State q P R V E) (e : Executor R (Except E V)) : Prop where
  sound : e.Sound q.numWorkers
  phase : ∀ r, e.phase r = s.phase r
  canceled : ∀ r, e.canceled r = (s.base.task r).canceled
  handed : ∀ r v, e.handed r = some v ↔ .ready v ∈ (s.slot r).answers

variable {s s' : State q P R V E} {e : Executor R (Except E V)} {r : R}

/-- The phase depends on the closure, the push and the output of a task, and on whether it
exists. -/
lemma phase_congr (he : (s'.base.task r).exec = (s.base.task r).exec)
    (hh : (s'.base.task r).handle = .unborn ↔ (s.base.task r).handle = .unborn)
    (hp : r ∈ s'.base.base.mem.pushed ↔ r ∈ s.base.base.mem.pushed)
    (hs : (s'.slot r).stored = (s.slot r).stored) : s'.phase r = s.phase r := by
  unfold State.phase phaseOf
  simp only [he, hs, hp, hh]

/-- A step that changes nothing of the executor. -/
lemma Represents.same (h : Represents s e) (hp : ∀ r, s'.phase r = s.phase r)
    (hc : ∀ r, (s'.base.task r).canceled = (s.base.task r).canceled)
    (ha : ∀ r v, .ready v ∈ (s'.slot r).answers ↔ .ready v ∈ (s.slot r).answers) :
    Represents s' e := by
  refine ⟨h.sound, fun r => ?_, fun r => ?_, fun r v => ?_⟩
  · rw [hp, h.phase]
  · rw [hc, h.canceled]
  · rw [ha, h.handed]

/-- A step in which one task moves on. -/
lemma Represents.moves [DecidableEq P] (h : Represents s e) {op : Executor.Op R (Except E V)}
    {e' : Executor R (Except E V)} {p : JobPhase (Except E V)}
    (hstep : e.step q.numWorkers op = some e') (hphase : e'.phase = Function.update e.phase r p)
    (hcanceled : e'.canceled = e.canceled) (hhanded : e'.handed = e.handed)
    (hp : s'.phase r = p) (hother : ∀ u, u ≠ r → s'.phase u = s.phase u)
    (hc : ∀ r, (s'.base.task r).canceled = (s.base.task r).canceled)
    (ha : ∀ r, (s'.slot r).answers = (s.slot r).answers) : Represents s' e' := by
  refine ⟨h.sound.step (.of_step hstep), fun u => ?_, fun u => ?_, fun u v => ?_⟩
  · rw [hphase]
    by_cases hu : u = r
    · subst hu
      rw [Function.update_self, hp]
    · rw [Function.update_of_ne hu, h.phase, hother u hu]
  · rw [hcanceled, h.canceled, hc]
  · rw [hhanded, ha]
    exact h.handed u v

variable {b : Local.State q P R} {slots : R → OneShot (Except E V)} {j : Local.Task}

/-- The other tasks keep their phases. -/
lemma phase_other (htask : b.task = Function.update s.base.task r j)
    (hpushed : ∀ u, u ≠ r → (u ∈ b.base.mem.pushed ↔ u ∈ s.base.base.mem.pushed))
    (hslots : ∀ u, u ≠ r → (slots u).stored = (s.slot u).stored) (u : R) (hu : u ≠ r) :
    State.phase ⟨b, slots⟩ u = s.phase u := by
  have hsame : b.task u = s.base.task u := by rw [htask, Function.update_of_ne hu]
  exact phase_congr (by rw [hsame]) (by rw [hsame]) (hpushed u hu) (hslots u hu)

/-- A step that cancels nothing. -/
lemma canceled_update (htask : b.task = Function.update s.base.task r j)
    (hj : j.canceled = (s.base.task r).canceled) (u : R) :
    (b.task u).canceled = (s.base.task u).canceled := by
  rw [htask]
  by_cases hu : u = r
  · subst hu
    rw [Function.update_self, hj]
  · rw [Function.update_of_ne hu]

/-- A step that moves no task on. -/
lemma phase_update (htask : b.task = Function.update s.base.task r j)
    (he : j.exec = (s.base.task r).exec)
    (hh : j.handle = .unborn ↔ (s.base.task r).handle = .unborn)
    (hpushed : b.base.mem.pushed = s.base.base.mem.pushed)
    (hslots : ∀ u, (slots u).stored = (s.slot u).stored) (u : R) :
    State.phase ⟨b, slots⟩ u = s.phase u := by
  by_cases hu : u = r
  · subst hu
    refine phase_congr ?_ ?_ (by rw [hpushed]) (hslots u)
    · simp only [htask, Function.update_self, he]
    · simp only [htask, Function.update_self, hh]
  · exact phase_other htask (fun u _ => by rw [hpushed]) (fun u _ => hslots u) u hu

/-- A step that leaves the task as it is for the executor. -/
lemma Represents.keeps (h : Represents s e) (htask : b.task = Function.update s.base.task r j)
    (he : j.exec = (s.base.task r).exec) (hc : j.canceled = (s.base.task r).canceled)
    (hh : j.handle = .unborn ↔ (s.base.task r).handle = .unborn)
    (hpushed : b.base.mem.pushed = s.base.base.mem.pushed)
    (hslots : ∀ u, (slots u).stored = (s.slot u).stored)
    (ha : ∀ u v, .ready v ∈ (slots u).answers ↔ .ready v ∈ (s.slot u).answers) :
    Represents ⟨b, slots⟩ e :=
  h.same (phase_update htask he hh hpushed hslots) (canceled_update htask hc) ha

end Operations

/-! ## The executor follows the pool -/

section Steps

variable [DecidableEq P] [DecidableEq R] {s s' : State q P R V E} {t : Thread q P}
  {e : Executor R (Except E V)} {b : Local.State q P R}

/-- The executor performs an operation, if there is one, and then stands for the state. -/
def Follows (e : Executor R (Except E V)) (op : Option (Executor.Op R (Except E V)))
    (s' : State q P R V E) : Prop :=
  (op = none ∧ Represents s' e) ∨
    ∃ b e', op = some b ∧ e.step q.numWorkers b = some e' ∧ Represents s' e'

omit [DecidableEq P] in
/-- A step of the pool keeps what was put into the cells and what they have answered. -/
lemma slots_eq (s : State q P R V E) (c : Local.Choice q P R) (u : R) :
    (s.slots c u).stored = (s.slot u).stored ∧ (s.slots c u).answers = (s.slot u).answers := by
  unfold State.slots
  cases dropped c with
  | none => exact ⟨rfl, rfl⟩
  | some r =>
    by_cases hu : u = r
    · subst hu
      simp only [Function.update_self]
      exact ⟨rfl, rfl⟩
    · simp only [Function.update_of_ne hu]
      exact ⟨trivial, trivial⟩

/-- A push enters its runnable into the history. -/
lemma pushed_of_spawn {b b' : AffinityPool.State q P R} {r : R} {hash : ℕ}
    {cell : Option ProducerRoute} (h : b.step (t, .spawn r hash cell) = some b') :
    b'.mem.pushed = b.mem.pushed ++ [r] := by
  obtain ⟨⟨m, pc⟩, hmove, rfl⟩ := Option.map_eq_some_iff.mp h
  obtain ⟨k, -, -, rfl, -⟩ := move_spawn hmove
  rfl

/-- The submission of a runnable. -/
lemma Represents.submit {r : R} {j : Local.Task} {slots : R → OneShot (Except E V)}
    (h : Represents s e) (hphase : s.phase r = .unborn ∨ s.phase r = .made)
    (htask : b.task = Function.update s.base.task r j) (he : j.exec = .idle)
    (hc : j.canceled = (s.base.task r).canceled)
    (hpushed : b.base.mem.pushed = s.base.base.mem.pushed ++ [r])
    (hslots : ∀ u, (slots u).stored = (s.slot u).stored ∧
      (slots u).answers = (s.slot u).answers) :
    Follows e (some (.submit r)) ⟨b, slots⟩ := by
  have hstep : e.step q.numWorkers (.submit r) = some (e.setPhase r .submitted) := by
    rcases hphase with hp | hp
    · simp only [Executor.step, h.phase, hp]
    · simp only [Executor.step, h.phase, hp]
  refine Or.inr ⟨_, _, rfl, hstep, h.moves hstep rfl rfl rfl ?_ ?_ (canceled_update htask hc)
    fun u => (hslots u).2⟩
  · simp [State.phase, phaseOf, htask, he, hpushed]
  · exact phase_other htask (fun u hu => by simp [hpushed, hu]) fun u _ => (hslots u).1

variable [Fintype P]

/-- The phase of a task that does not exist. -/
lemma phase_of_unborn {r : R} (hr : (machine q P R V E).Reachable s)
    (hu : (s.base.task r).handle = .unborn) : s.phase r = .unborn := by
  have hsound := Local.Sound.of_reachable (base_reachable hr)
  have hstorage := Storage.of_reachable (Local.base_reachable (base_reachable hr))
  have hidle := hsound.idle_of_unborn hstorage hu
  simp [State.phase, phaseOf, hidle, hu, (hsound.task r).unborn hu]

/-- The phase of a future that is not scheduled. -/
lemma phase_of_runnable {r : R} {f : Local.SpawnFuture} (hr : (machine q P R V E).Reachable s)
    (hf : (s.base.task r).handle = .future f) (hrun : f.runnable = true) : s.phase r = .made := by
  have hsound := Local.Sound.of_reachable (base_reachable hr)
  have hstorage := Storage.of_reachable (Local.base_reachable (base_reachable hr))
  have hidle := hsound.idle_of_runnable hstorage hf hrun
  simp [State.phase, phaseOf, hidle, hf, ((hsound.task r).fresh f hf hrun).1]

/-- What a worker is about to execute was submitted. -/
lemma phase_of_held {r : R} (hr : (machine q P R V E).Reachable s)
    (hheld : Local.held (s.base.base.pc t) = some r) (hidle : (s.base.task r).exec = .idle) :
    s.phase r = .submitted := by
  have hqueue := Local.base_reachable (base_reachable hr)
  have hreturned := State.Callees.of_reachable hqueue t r (Local.callee_of_held hheld)
  have hpushed := (Storage.of_reachable hqueue).returned_subset hreturned
  simp [State.phase, phaseOf, hidle, hpushed]

/-- The active jobs are closures in execution. -/
lemma Represents.running_of_active {r : R} (h : Represents s e)
    (hr : (machine q P R V E).Reachable s) (hactive : r ∈ e.active) :
    (s.base.task r).exec = .running := by
  have hphase := (h.phase r).symm.trans ((h.sound.active r).mp hactive)
  have hfits := (Coupled.of_reachable hr).fits r
  unfold State.phase phaseOf at hphase
  cases he : (s.base.task r).exec with
  | running => rfl
  | idle =>
    simp only [he] at hphase
    split at hphase
    · cases hphase
    · split at hphase <;> cases hphase
  | finished p =>
    obtain ⟨v, hv, -⟩ := hfits.finished p he
    simp only [he, hv] at hphase
    cases hphase
  | dropped =>
    simp only [he] at hphase
    cases hphase

/-- **Step lemma.**  The executor follows the entry of a closure. -/
theorem Represents.start {r : R} (h : Represents s e) (hr : (machine q P R V E).Reachable s)
    (hheld : Local.held (s.base.base.pc t) = some r) (hidle : (s.base.task r).exec = .idle)
    (hc : (s.base.task r).canceled = false) :
    Follows e (some (.start r)) ⟨s.base.setTask r
      { s.base.task r with exec := .running, ran := (s.base.task r).ran + 1 }, s.slot⟩ := by
  -- the worker is not among those that execute a closure
  have hfree : e.active.card < q.numWorkers := by
    obtain ⟨w, rfl⟩ := Local.worker_of_callee
      (Kinds.of_reachable (Local.base_reachable (base_reachable hr))) (Local.callee_of_held hheld)
    refine Local.card_running_lt (base_reachable hr) (fun x hx => ?_) w fun x hx hw => ?_
    · exact h.running_of_active hr hx
    · have hrunning := h.running_of_active hr hx
      rw [Local.callee_of_held hheld] at hw
      cases hw
      rw [hidle] at hrunning
      cases hrunning
  have hstep : e.step q.numWorkers (.start r) =
      some { e.setPhase r .active with active := insert r e.active } := by
    simp only [Executor.step, h.phase, h.canceled, phase_of_held hr hheld hidle, hc, hfree, if_true]
  refine Or.inr ⟨_, _, rfl, hstep, h.moves hstep rfl rfl rfl ?_ ?_ ?_ fun u => rfl⟩
  · simp [State.phase, phaseOf, Local.State.setTask]
  · exact phase_other rfl (fun u _ => Iff.rfl) fun u _ => rfl
  · exact canceled_update rfl rfl

omit [DecidableEq P] [Fintype P] in
/-- **Step lemma.**  The executor follows a cancellation. -/
theorem Represents.cancel {r : R} {j : Local.Task} {slots : R → OneShot (Except E V)}
    (h : Represents s e) (htask : b.task = Function.update s.base.task r j)
    (he : j.exec = (s.base.task r).exec) (hc : j.canceled = true)
    (hh : j.handle = .unborn ↔ (s.base.task r).handle = .unborn)
    (hpushed : b.base.mem.pushed = s.base.base.mem.pushed)
    (hslots : ∀ u, (slots u).stored = (s.slot u).stored ∧
      (slots u).answers = (s.slot u).answers) :
    Follows e (some (.cancel r)) ⟨b, slots⟩ := by
  refine Or.inr ⟨_, _, rfl, rfl, h.sound.step .cancel, fun u => ?_, fun u => ?_, fun u v => ?_⟩
  · rw [phase_update htask he hh hpushed (fun u => (hslots u).1) u]
    exact h.phase u
  · dsimp only
    rw [htask]
    by_cases hu : u = r
    · subst hu
      rw [Function.update_self, Function.update_self, hc]
    · rw [Function.update_of_ne hu, Function.update_of_ne hu]
      exact h.canceled u
  · dsimp only
    rw [(hslots u).2]
    exact h.handed u v

omit [Fintype P] in
/-- **Step lemma.**  The executor gives up a task whose future is dropped. -/
theorem Represents.giveUp {r : R} {j : Local.Task} {slots : R → OneShot (Except E V)}
    {op : Executor.Op R (Except E V)} (h : Represents s e)
    (hstep : e.step q.numWorkers op = some (e.setPhase r .dropped))
    (htask : b.task = Function.update s.base.task r j) (he : j.exec = .dropped)
    (hc : j.canceled = (s.base.task r).canceled)
    (hpushed : b.base.mem.pushed = s.base.base.mem.pushed)
    (hslots : ∀ u, (slots u).stored = (s.slot u).stored ∧
      (slots u).answers = (s.slot u).answers) :
    Follows e (some op) ⟨b, slots⟩ := by
  refine Or.inr ⟨_, _, rfl, hstep, h.moves hstep rfl rfl rfl ?_ ?_ ?_ fun u => (hslots u).2⟩
  · simp [State.phase, phaseOf, htask, he]
  · exact phase_other htask (fun u _ => by rw [hpushed]) fun u _ => (hslots u).1
  · exact canceled_update htask hc

/-- **Step lemma.**  The executor follows the pool. -/
theorem Represents.pool {c : Local.Choice q P R} (h : Represents s e)
    (hr : (machine q P R V E).Reachable s) (hc : s.allows t c)
    (hb : s.base.step (t, c) = some b) : Follows e (s.poolOp t c) ⟨b, s.slots c⟩ := by
  have hsound := Local.Sound.of_reachable (base_reachable hr)
  have hstorage := Storage.of_reachable (Local.base_reachable (base_reachable hr))
  have hslots := slots_eq s c
  cases Local.Move.of_step hb with
  | @queue c b' hns hallows hb' =>
    have hop : s.poolOp t (.queue c) = none := by
      cases c with
      | spawn r hash cell => exact absurd rfl (hns r hash cell)
      | _ => rfl
    obtain ⟨m, pc, hm, rfl⟩ := AffinityPool.State.step_cases hb'
    have hpushed : m.pushed = s.base.base.mem.pushed := by
      rcases hm.pushed_eq with heq | ⟨r, hash, cell, heq, -⟩
      · exact heq
      · exact absurd heq (hns r hash cell)
    exact Or.inl ⟨hop, h.same (fun u => phase_congr rfl Iff.rfl (by rw [hpushed]) rfl)
      (fun u => rfl) fun u v => Iff.rfl⟩
  | spawn hfree hu hb' =>
    have hidle := hsound.idle_of_unborn hstorage hu
    exact h.submit (Or.inl (phase_of_unborn hr hu)) rfl hidle rfl (pushed_of_spawn hb') hslots
  | @create r hcall hu =>
    have hidle := hsound.idle_of_unborn hstorage hu
    have hstep : e.step q.numWorkers (.make r) = some (e.setPhase r .made) := by
      simp only [Executor.step, h.phase, phase_of_unborn hr hu]
    refine Or.inr ⟨_, _, rfl, hstep, h.moves hstep rfl rfl rfl ?_ ?_ ?_ fun u => rfl⟩
    · simp [State.phase, phaseOf, Local.State.setTask, hidle, (hsound.task r).unborn hu]
    · exact phase_other rfl (fun u _ => Iff.rfl) fun u _ => rfl
    · exact canceled_update rfl rfl
  | @schedule r f hash cell b' hcall hf hrun hb' =>
    obtain ⟨run, task⟩ := f
    obtain rfl : run = true := hrun
    have hidle := hsound.idle_of_runnable hstorage hf rfl
    simp only [State.poolOp, hf]
    exact h.submit (Or.inr (phase_of_runnable hr hf rfl)) rfl hidle rfl (pushed_of_spawn hb')
      hslots
  | @poll r f hash cell hcall hf hrun =>
    obtain ⟨run, task⟩ := f
    obtain rfl : run = false := hrun
    refine Or.inl ⟨by simp only [State.poolOp, hf], ?_⟩
    exact h.keeps rfl rfl rfl Iff.rfl rfl (fun u => rfl) fun u v => Iff.rfl
  | ready ha | pending ha => simp [State.allows, ha, isPolling] at hc
  | @discard r f hcall hf hrun =>
    obtain ⟨run, task⟩ := f
    obtain rfl : run = true := hrun
    have hstep : e.step q.numWorkers (.discard r) = some (e.setPhase r .dropped) := by
      simp only [Executor.step, h.phase, phase_of_runnable hr hf rfl]
    simp only [State.poolOp, hf]
    exact h.giveUp hstep rfl rfl rfl rfl hslots
  | @close r f hcall hf hrun htask =>
    obtain ⟨run, task⟩ := f
    obtain rfl : run = false := hrun
    obtain rfl : task = true := htask
    simp only [State.poolOp, hf]
    exact h.cancel rfl rfl rfl (by simp [hf]) rfl hslots
  | @forget r f hcall hf hrun htask =>
    obtain ⟨run, task⟩ := f
    obtain rfl : run = false := hrun
    obtain rfl : task = false := htask
    simp only [State.poolOp, hf]
    refine Or.inl ⟨rfl, h.keeps rfl rfl rfl (by simp [hf]) rfl (fun u => (hslots u).1)
      fun u v => ?_⟩
    rw [(hslots u).2]
  | @stopped r ha he =>
    have hended := (hsound.cancelling t r false ha).1
    refine Or.inl ⟨rfl, h.keeps rfl rfl rfl (iff_of_false (by simp) fun hu => ?_) rfl
      (fun u => rfl) fun u v => Iff.rfl⟩
    rw [hu] at hended
    cases hended
  | park ha | unpark ha =>
    exact Or.inl ⟨rfl, h.same (fun u => rfl) (fun u => rfl) fun u v => Iff.rfl⟩
  | cancel hcall hj => exact h.cancel rfl rfl rfl Iff.rfl rfl hslots
  | @skip r hfree hheld hidle hcanceled =>
    have hstep : e.step q.numWorkers (.skip r) = some (e.setPhase r .dropped) := by
      simp only [Executor.step, h.phase, h.canceled, phase_of_held hr hheld hidle, hcanceled]
    have hop : s.poolOp t .begin = some (.skip r) := by
      simp only [State.poolOp, hheld, hcanceled, if_true]
    rw [hop]
    exact h.giveUp hstep rfl rfl rfl rfl hslots
  | @enter r hfree hheld hidle hcanceled =>
    have hop : s.poolOp t .begin = some (.start r) := by
      simp only [State.poolOp, hheld, hcanceled, Bool.false_eq_true, if_false]
    rw [hop]
    exact h.start hr hheld hidle hcanceled
  | finish => exact absurd hc id

omit [Fintype P] in
/-- A step outside the queue leaves it as it is. -/
lemma base_of_quiet {c : Local.Choice q P R} (hb : s.base.step (t, c) = some b)
    (hnone : s.base.queueAction (t, c) = none) : b.base = s.base.base := by
  rcases (Local.Move.of_step hb).queue_cases with ⟨-, hsame⟩ | ⟨c', hsome, -⟩
  · exact hsame
  · rw [hnone] at hsome
    cases hsome

omit [Fintype P] in
/-- **Step lemma.**  The executor follows the end of a closure. -/
theorem Represents.finish {r : R} {output : Except E V} {o : OneShot (Except E V)}
    (h : Represents s e) (hheld : Local.held (s.base.base.pc t) = some r)
    (hb : s.base.step (t, .finish (panicked output)) = some b)
    (ho : (s.slot r).put output = some o) :
    Follows e (some (.finish r output)) ⟨b, Function.update s.slot r o⟩ := by
  obtain ⟨hrunning, htask⟩ := finish_step hheld hb
  have hphase : s.phase r = .active := by
    unfold State.phase phaseOf
    rw [hrunning]
  have hstored : o.stored = [output] ∧ o.answers = (s.slot r).answers := by
    unfold OneShot.put at ho
    split at ho <;> cases ho
    exact ⟨rfl, rfl⟩
  have hbase := base_of_quiet hb rfl
  have hstep : e.step q.numWorkers (.finish r output) =
      some { e.setPhase r (.ended output) with active := e.active.erase r } := by
    simp only [Executor.step, h.phase, hphase]
  refine Or.inr ⟨_, _, rfl, hstep, h.moves hstep rfl rfl rfl ?_ ?_ ?_ ?_⟩
  · simp [State.phase, phaseOf, htask, hstored.1]
  · refine phase_other htask (fun u _ => by rw [hbase]) fun u hu => ?_
    rw [Function.update_of_ne hu]
  · exact canceled_update htask rfl
  · intro u
    by_cases hu : u = r
    · subst hu
      simp only [Function.update_self, hstored.2]
    · simp only [Function.update_of_ne hu]

/-- **Step lemma.**  The executor follows the poll of a cell. -/
theorem Represents.hand {r : R} {j : Local.Task} {o : OneShot (Except E V)}
    {a : Answer (Except E V)} (h : Represents s e) (hr : (machine q P R V E).Reachable s)
    (hcanceled : (s.base.task r).canceled = false) (ho : (s.slot r).poll = some (o, a))
    (htask : b.task = Function.update s.base.task r j) (he : j.exec = (s.base.task r).exec)
    (hc : j.canceled = (s.base.task r).canceled)
    (hh : j.handle = .unborn ↔ (s.base.task r).handle = .unborn)
    (hbase : b.base = s.base.base) :
    Follows e (s.handOp r) ⟨b, Function.update s.slot r o⟩ := by
  have hcoupled := Coupled.of_reachable hr
  have hslot : ∀ {u}, u ≠ r → Function.update s.slot r o u = s.slot u :=
    fun hu => Function.update_of_ne hu _ _
  have hstored : ∀ u, (Function.update s.slot r o u).stored = (s.slot u).stored := by
    intro u
    by_cases hu : u = r
    · subst hu
      rw [Function.update_self]
      rcases OneShot.poll_cases ho with ⟨-, -, rfl⟩ | ⟨x, -, -, rfl⟩ | ⟨-, -, rfl⟩ <;> rfl
    · rw [hslot hu]
  -- an answer that hands over nothing
  have hnothing : (∀ v, .ready v ∈ o.answers ↔ .ready v ∈ (s.slot r).answers) →
      Represents (⟨b, Function.update s.slot r o⟩ : State q P R V E) e := by
    intro hsame
    refine h.keeps htask he hc hh (by rw [hbase]) hstored fun u v => ?_
    by_cases hu : u = r
    · subst hu
      rw [Function.update_self]
      exact hsame v
    · rw [hslot hu]
  rcases OneShot.poll_cases ho with ⟨hcell, -, rfl⟩ | ⟨x, hcell, -, rfl⟩ | ⟨hcell, -, rfl⟩
  · refine Or.inl ⟨by simp only [State.handOp, hcell], hnothing fun v => ?_⟩
    simp [OneShot.tell]
  · -- the cell is full, so the closure is through and nothing was handed over
    obtain ⟨n, hx, hpending⟩ : ∃ n, (s.slot r).stored = [x] ∧
        (s.slot r).answers = List.replicate n .pending := by
      cases OneShot.Told.of_reachable (hcoupled.slot r) with
      | waiting n hs hempty ha => simp [hcell] at hempty
      | stored n y hs hfull ha =>
        obtain rfl : x = y := by simpa [hcell] using hfull
        exact ⟨n, hs, ha⟩
      | answered n m y hs htaken ha => simp [hcell] at htaken
    have hnone : ∀ v, .ready v ∉ (s.slot r).answers := by
      intro v hv
      rw [hpending] at hv
      cases List.eq_of_mem_replicate hv
    have hphase : s.phase r = .ended x := by
      cases hexec : (s.base.task r).exec with
      | finished p => simp [State.phase, phaseOf, hexec, hx]
      | _ =>
        have hempty := (hcoupled.fits r).unfinished (by simp [hexec])
        rw [hx] at hempty
        cases hempty
    have hfresh : e.handed r = none := by
      cases hhanded : e.handed r with
      | none => rfl
      | some v => exact absurd ((h.handed r v).mp hhanded) (hnone v)
    have hstep : e.step q.numWorkers (.hand r) =
        some { e with handed := Function.update e.handed r (some x) } := by
      simp only [Executor.step, h.phase, h.canceled, hphase, hcanceled, hfresh]
    refine Or.inr ⟨_, _, by simp only [State.handOp, hcell], hstep,
      h.sound.step (.of_step hstep), fun u => ?_, fun u => ?_, fun u v => ?_⟩
    · rw [phase_update htask he hh (by rw [hbase]) hstored u]
      exact h.phase u
    · rw [canceled_update htask hc u]
      exact h.canceled u
    · dsimp only
      by_cases hu : u = r
      · subst hu
        rw [Function.update_self, Function.update_self]
        simp only [OneShot.tell, List.mem_append, hnone v, false_or, List.mem_singleton,
          Option.some.injEq, Answer.ready.injEq]
        exact eq_comm
      · rw [Function.update_of_ne hu, hslot hu]
        exact h.handed u v
  · refine Or.inl ⟨by simp only [State.handOp, hcell], hnothing fun v => ?_⟩
    simp [OneShot.tell]

/-- **Step lemma.**  Every step of the machine is one operation of the executor, or none. -/
theorem Represents.step {a : Thread q P × Choice q P R V E} (h : Represents s e)
    (hr : (machine q P R V E).Reachable s) (hstep : s.step a = some s') :
    Follows e (s.op a) s' := by
  obtain ⟨t, c⟩ := a
  have hcoupled := Coupled.of_reachable hr
  cases Move.of_step hstep with
  | pool hc hb => exact h.pool hr hc hb
  | finish hheld hb ho =>
    simp only [State.op, hheld]
    exact h.finish hheld hb ho
  | @poll r f b o answer hact hf ht ho hb =>
    simp only [State.op, hact]
    have hbase := base_of_quiet hb rfl
    have hcanceled := (hcoupled.fits r).uncanceled (Or.inr ⟨f, hf⟩)
    rcases (Local.Move.of_step hb).polling_cases hact hf with ⟨-, htask⟩ | ⟨-, -, p, -, htask⟩
    · exact h.hand hr hcanceled ho htask rfl rfl Iff.rfl hbase
    · exact h.hand hr hcanceled ho htask rfl rfl (by simp [hf]) hbase
  | @refuse r f b hact hf ht hb =>
    simp only [State.op, hact]
    have htaken : (s.slot r).cell = .taken := by
      by_contra hne
      have htask := ((hcoupled.fits r).future f hf).2.mpr hne
      rw [ht] at htask
      cases htask
    have hcanceled := (hcoupled.fits r).uncanceled (Or.inr ⟨f, hf⟩)
    have hpoll : (s.slot r).poll = some ((s.slot r).refuse, .completed) := by
      simp only [OneShot.poll, htaken, OneShot.refuse]
    rcases (Local.Move.of_step hb).polling_cases hact hf with ⟨-, htask⟩ | ⟨hready, -⟩
    · exact h.hand hr hcanceled hpoll htask rfl rfl Iff.rfl (base_of_quiet hb rfl)
    · cases hready
  | @join r o answer hh hc ho =>
    simp only [State.op]
    exact h.hand hr hc ho (Function.update_eq_self r s.base.task).symm rfl rfl Iff.rfl rfl

end Steps

/-! ## Runs -/

section Runs

variable [DecidableEq P] [DecidableEq R] [Fintype P] {s : State q P R V E}

/-- The pool with the executor that follows it. -/
def executed (q : Shape) (P R V E : Type) [DecidableEq P] [DecidableEq R] :
    System (State q P R V E × Executor R (Except E V)) (Thread q P × Choice q P R V E) :=
  (machine q P R V E).record .empty (followed (executor q.numWorkers R (Except E V)) State.op)

variable {y : State q P R V E × Executor R (Except E V)}

/-- **Run lemma.**  The executor follows every run of the pool. -/
lemma represents_of_reachable (h : (executed q P R V E).Reachable y) :
    Represents y.1 y.2 ∧ (executor q.numWorkers R (Except E V)).Reachable y.2 := by
  refine Reach.followed (R := Represents) rfl ?_ ?_ h
  · rintro _ rfl
    exact ⟨.of_reachable (.of_init rfl), fun r => rfl, fun r => rfl, fun r v => by
      simp [Executor.empty, OneShot.empty]⟩
  · intro s a s' e hs he hstep
    exact he.step hs hstep

/-- **The pool refines an executor.**  In every run, every step of every thread is at most one
operation on the jobs, `State.op`.  With these operations, each of them atomic, an executor with
as many places as the pool has workers goes through a run of its own, and in every reachable state
the phases of its jobs, their cancellations and what was handed over are those of the tasks. -/
theorem executor_refined (h : (executed q P R V E).Reachable y) :
    (executor q.numWorkers R (Except E V)).Reachable y.2 ∧ Represents y.1 y.2 ∧
      ∀ a s', y.1.step a = some s' → Follows y.2 (y.1.op a) s' := by
  obtain ⟨hrepresents, hreach⟩ := represents_of_reachable h
  exact ⟨hreach, hrepresents, fun a s' hstep => hrepresents.step h.of_record hstep⟩

/-- The executor after the run in which the closure of a task returns 7 and its handle is polled. -/
def joinedJobs : State solo Unit ℕ ℕ String × Executor ℕ (Except String ℕ) :=
  (executed solo Unit ℕ ℕ String).final (⟨.start solo Unit ℕ, fun _ => .empty⟩, .empty)
    (scheduledRun ++ joinedRun) (by decide)

/-- The job of that task has ended, and its output was handed over. -/
theorem executor_refined_joined :
    (executor 1 ℕ (Except String ℕ)).Reachable joinedJobs.2 ∧
      joinedJobs.2.phase 0 = .ended (.ok 7) ∧ joinedJobs.2.handed 0 = some (.ok 7) := by
  have hinit : (executed solo Unit ℕ ℕ String).init
      (⟨.start solo Unit ℕ, fun _ => .empty⟩, .empty) := ⟨rfl, rfl⟩
  have h : (executed solo Unit ℕ ℕ String).Reachable joinedJobs := .final hinit _
  obtain ⟨hreach, hrepresents, -⟩ := executor_refined h
  refine ⟨hreach, ?_, (hrepresents.handed 0 (.ok 7)).mpr (by decide)⟩
  rw [hrepresents.phase]
  decide

/-- **Parallelism is bounded.**  In every reachable state at most as many closures are in execution
as the pool has workers. -/
theorem closures_bounded (h : (machine q P R V E).Reachable s) {A : Finset R}
    (hA : ∀ r ∈ A, (s.base.task r).exec = .running) : A.card ≤ q.numWorkers := by
  obtain ⟨e, he⟩ : ∃ e, (executed q P R V E).Reachable (s, e) := h.exists_record
  obtain ⟨hrepresents, -⟩ := represents_of_reachable he
  have hsub : A ⊆ e.active := by
    intro r hr
    rw [hrepresents.sound.active, hrepresents.phase]
    simp [State.phase, phaseOf, hA r hr]
  exact (Finset.card_le_card hsub).trans hrepresents.sound.places

end Runs

/-- A worker of the pool of two takes a runnable from the injector and enters its closure. -/
def entersRun (w : Thread duo Unit) : List (Thread duo Unit × Choice duo Unit ℕ ℕ String) :=
  pooled (Local.goes w 3 ++ [(w, .queue (.steal (.batch 1))), (w, .begin)])

/-- Two tasks are scheduled, and both workers enter a closure. -/
def busyRun : List (Thread duo Unit × Choice duo Unit ℕ ℕ String) :=
  pooled ((.inr (), .queue (.spawn 0 0 none)) :: Local.goes (.inr ()) 2 ++
    (.inr (), .queue (.spawn 1 0 none)) :: Local.goes (.inr ()) 2) ++
  entersRun (duo.worker 0 Nat.two_pos) ++ entersRun (duo.worker 1 Nat.one_lt_two)

/-- The state after `busyRun`. -/
def busy : State duo Unit ℕ ℕ String :=
  (machine duo Unit ℕ ℕ String).final ⟨.start duo Unit ℕ, fun _ => .empty⟩ busyRun (by decide)

/-- As long as the two are in execution no third one is. -/
theorem closures_bounded_busy :
    (busy.base.task 0).exec = .running ∧ (busy.base.task 1).exec = .running ∧
      ∀ r, r ≠ 0 → r ≠ 1 → (busy.base.task r).exec ≠ .running := by
  have hzero : (busy.base.task 0).exec = .running := by decide
  have hone : (busy.base.task 1).exec = .running := by decide
  refine ⟨hzero, hone, fun r h0 h1 hr => ?_⟩
  have hreach : (machine duo Unit ℕ ℕ String).Reachable busy := .final rfl _
  have hle := closures_bounded (A := {0, 1, r}) hreach (by simp [hzero, hone, hr])
  rw [Finset.card_eq_three.mpr ⟨0, 1, r, by simp, h0.symm, h1.symm, rfl⟩] at hle
  exact absurd hle (by decide)

end Await

end AffinityPool
