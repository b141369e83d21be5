import AffinityPool.Foundation.OneShot
import AffinityPool.Local.DropBlocking

/-!
# What an await returns

The closure of a task runs inside `catch_unwind`, so its task ends with a value or with the
payload of a panic.  `async-task` keeps this output for the handle of the task: a poll before
the end is pending, the first one after it takes the output, a later one panics; when the
handle is dropped the output is discarded.  `JoinHandle::poll` and `SpawnFuture::poll` pass on
a value and re-raise a payload.

The machine of this file adds the outputs to the pool with its futures.  In every run a handle
resolves at most once, with the output of the one execution of its closure (`polls_agree`).
-/

namespace AffinityPool

namespace Local

/-! ## What a step does to a handle -/

section Handles

variable {q : Shape} {P R : Type} [DecidableEq P] [DecidableEq R] {s s' : State q P R}
  {t : Thread q P} {c : Choice q P R}

/-- The step of a task from `j` to `j'` when its closure does not end and its output is not
taken. -/
structure Task.Passes (j j' : Task) : Prop where
  finished : ∀ p, j'.exec = .finished p ↔ j.exec = .finished p
  canceled : j'.canceled = j.canceled ∨
    j'.canceled = true ∧ (j'.handle = .join ∨ j'.handle.isEnded = true)
  handle : j'.handle = j.handle ∨
    (j.handle = .unborn ∧ (j'.handle = .join ∨ j'.handle = .future ⟨true, true⟩)) ∨
    (∃ f f', j.handle = .future f ∧ j'.handle = .future f' ∧ f'.task = f.task) ∨
    j'.handle.isEnded = true

lemma Task.Passes.refl (j : Task) : j.Passes j := ⟨fun _ => Iff.rfl, Or.inl rfl, Or.inl rfl⟩

omit [DecidableEq P] in
lemma Task.Passes.update {x : R} {j : Task} (h : (s.task x).Passes j) (r : R) :
    (s.task r).Passes (Function.update s.task x j r) := by
  by_cases hr : r = x
  · subst hr
    rw [Function.update_self]
    exact h
  · rw [Function.update_of_ne hr]
    exact .refl _

/-- **Inversion.**  What a step does to a task, unless it is the end of a closure or the poll of
an inner task. -/
theorem Task.Passes.of_move [Fintype P] (hsound : Local.Sound s) (hs : Storage s.base)
    (hm : Move s t c s') (hfinish : ∀ p, c ≠ .finish p)
    (hattempt : ∀ ready, c = .attempt ready → ∀ r, s.act t ≠ .polling r) (r : R) :
    (s.task r).Passes (s'.task r) := by
  cases hm with
  | queue | park | unpark => exact .refl _
  | spawn hfree hu =>
    refine Task.Passes.update ?_ r
    exact ⟨fun _ => Iff.rfl, Or.inl rfl, Or.inr (Or.inl ⟨hu, Or.inl rfl⟩)⟩
  | create hcall hu =>
    refine Task.Passes.update ?_ r
    exact ⟨fun _ => Iff.rfl, Or.inl rfl, Or.inr (Or.inl ⟨hu, Or.inr rfl⟩)⟩
  | schedule hcall hf =>
    refine Task.Passes.update ?_ r
    exact ⟨fun _ => Iff.rfl, Or.inl rfl, Or.inr (Or.inr (Or.inl ⟨_, _, hf, rfl, rfl⟩))⟩
  | poll =>
    refine Task.Passes.update ?_ r
    exact ⟨fun _ => Iff.rfl, Or.inl rfl, Or.inl rfl⟩
  | ready ha | pending ha => exact absurd ha (hattempt _ rfl _)
  | discard hcall hf hr =>
    have hidle := hsound.idle_of_runnable hs hf hr
    refine Task.Passes.update ?_ r
    exact ⟨fun p => by simp [hidle], Or.inl rfl, Or.inr (Or.inr (Or.inr rfl))⟩
  | close =>
    refine Task.Passes.update ?_ r
    exact ⟨fun _ => Iff.rfl, Or.inr ⟨rfl, Or.inr rfl⟩, Or.inr (Or.inr (Or.inr rfl))⟩
  | forget | stopped =>
    refine Task.Passes.update ?_ r
    exact ⟨fun _ => Iff.rfl, Or.inl rfl, Or.inr (Or.inr (Or.inr rfl))⟩
  | cancel hcall hj =>
    refine Task.Passes.update ?_ r
    exact ⟨fun _ => Iff.rfl, Or.inr ⟨rfl, Or.inl hj⟩, Or.inl rfl⟩
  | skip hfree hr hidle | enter hfree hr hidle =>
    refine Task.Passes.update ?_ r
    exact ⟨fun p => by simp [hidle], Or.inl rfl, Or.inl rfl⟩
  | finish => exact absurd rfl (hfinish _)

/-- The poll of an inner task, when it has ended and its output is there, and otherwise. -/
lemma Move.polling_cases {r : R} {f : SpawnFuture} {ready : Bool}
    (hm : Move s t (.attempt ready) s') (hact : s.act t = .polling r)
    (hf : (s.task r).handle = .future f) :
    (ready = false ∧ s'.task = Function.update s.task r { s.task r with lent := false }) ∨
      (ready = true ∧ f.task = true ∧ ∃ p, (s.task r).exec = .finished p ∧
        s'.task = Function.update s.task r
          { s.task r with
            lent := false, handle := .future { f with task := false },
            outcome := some (.ofResult p) }) := by
  cases hm with
  | ready ha hout hf' ht he =>
    rw [hact] at ha
    cases ha
    rw [hf] at hf'
    cases hf'
    exact Or.inr ⟨rfl, ht, _, he, rfl⟩
  | pending ha =>
    rw [hact] at ha
    cases ha
    exact Or.inl ⟨rfl, rfl⟩
  | stopped ha | park ha =>
    rw [hact] at ha
    cases ha

end Handles

end Local

namespace Await

open Transition System

variable {q : Shape} {P R V E : Type}

/-- The closure has panicked. -/
def panicked : Except E V → Bool
  | .ok _ => false
  | .error _ => true

/-- What a call of `poll` does to its caller. -/
inductive Poll (V E : Type)
  | pending
  | ready (value : V)
  /-- `resume_unwind`. -/
  | raised (payload : E)
  /-- The panic of a poll after completion. -/
  | refused
  deriving DecidableEq

/-- The `match` of `JoinHandle::poll` and `SpawnFuture::poll` on the poll of the inner task. -/
def Poll.ofAnswer : Answer (Except E V) → Poll V E
  | .ready (.ok value) => .ready value
  | .ready (.error payload) => .raised payload
  | .pending => .pending
  | .completed => .refused

/-- A state: the pool with its futures, and the outputs of the tasks. -/
structure State (q : Shape) (P R V E : Type) where
  base : Local.State q P R
  slot : R → OneShot (Except E V)

/-- What a thread does next. -/
inductive Choice (q : Shape) (P R V E : Type)
  /-- A step of the pool that neither makes an output nor asks for one. -/
  | pool (c : Local.Choice q P R)
  /-- The closure that the worker runs returns or panics. -/
  | finish (output : Except E V)
  /-- `SpawnFuture::poll` comes to its inner task. -/
  | pollTask
  /-- Call `JoinHandle::poll`. -/
  | join (r : R)

/-- The thread is inside `SpawnFuture::poll`. -/
def isPolling : Local.Act R → Bool
  | .polling _ => true
  | _ => false

/-- The handle that a step drops. -/
def dropped : Local.Choice q P R → Option R
  | .drop r | .cancel r => some r
  | _ => none

namespace State

/-- What the polls of the handle of a task have done so far. -/
def polls (s : State q P R V E) (r : R) : List (Poll V E) := (s.slot r).answers.map .ofAnswer

/-- The outputs do not keep the pool from this step: closures end and inner tasks are polled by
steps of this machine, and a `JoinHandle` is dropped once. -/
def allows (s : State q P R V E) (t : Thread q P) : Local.Choice q P R → Prop
  | .finish _ => False
  | .attempt _ => isPolling (s.base.act t) = false
  | .cancel r => (s.base.task r).canceled = false
  | _ => True

instance allows.decidable (s : State q P R V E) (t : Thread q P) : ∀ c, Decidable (s.allows t c)
  | .finish _ => inferInstanceAs (Decidable False)
  | .attempt _ => inferInstanceAs (Decidable (_ = false))
  | .cancel _ => inferInstanceAs (Decidable (_ = false))
  | .queue _ | .create _ | .poll .. | .drop _ | .unpark | .begin =>
    inferInstanceAs (Decidable True)

variable [DecidableEq R]

/-- The outputs after a step of the pool: a handle that is dropped discards its own. -/
def slots (s : State q P R V E) (c : Local.Choice q P R) : R → OneShot (Except E V) :=
  match dropped c with
  | some r => Function.update s.slot r (s.slot r).close
  | none => s.slot

variable [DecidableEq P]

/-- The end of the closure of `r`, inside `catch_unwind`. -/
def finish (s : State q P R V E) (t : Thread q P) (r : R) (output : Except E V) :
    Option (State q P R V E) :=
  (s.base.step (t, .finish (panicked output))).bind fun b =>
    ((s.slot r).put output).map fun o => ⟨b, Function.update s.slot r o⟩

/-- `SpawnFuture::poll` from its inner task on. -/
def pollTask (s : State q P R V E) (t : Thread q P) (r : R) (f : Local.SpawnFuture) :
    Option (State q P R V E) :=
  if f.task then
    (s.slot r).poll.bind fun (o, answer) =>
      (s.base.step (t, .attempt answer.isReady)).map fun b => ⟨b, Function.update s.slot r o⟩
  else
    -- the panic "SpawnFuture polled after completion"
    (s.base.step (t, .attempt false)).map fun b =>
      ⟨b, Function.update s.slot r (s.slot r).refuse⟩

omit [DecidableEq P] in
/-- `JoinHandle::poll`. -/
def join (s : State q P R V E) (r : R) : Option (State q P R V E) :=
  (s.slot r).poll.map fun (o, _) => ⟨s.base, Function.update s.slot r o⟩

/-- One step of thread `t`. -/
def step (s : State q P R V E) (a : Thread q P × Choice q P R V E) : Option (State q P R V E) :=
  match a.2 with
  | .pool c =>
    if s.allows a.1 c then (s.base.step (a.1, c)).map fun b => ⟨b, s.slots c⟩ else none
  | .finish output =>
    match Local.held (s.base.base.pc a.1) with
    | some r => s.finish a.1 r output
    | none => none
  | .pollTask =>
    match s.base.act a.1 with
    | .polling r =>
      match (s.base.task r).handle with
      | .future f => s.pollTask a.1 r f
      | _ => none
    | _ => none
  | .join r =>
    -- the handle exists until it is dropped, which cancels its task
    if s.base.atCall a.1 ∧ (s.base.task r).handle = .join ∧ (s.base.task r).canceled = false then
      s.join r
    else none

end State

/-- The pool with its futures and outputs as a transition system. -/
def machine (q : Shape) (P R V E : Type) [DecidableEq P] [DecidableEq R] :
    System (State q P R V E) (Thread q P × Choice q P R V E) where
  init s := s = ⟨.start q P R, fun _ => .empty⟩
  step := State.step

/-! ## What one step can do -/

section Moves

variable [DecidableEq P] [DecidableEq R] {s s' : State q P R V E} {t : Thread q P}
  {c : Choice q P R V E}

/-- The steps of a thread, with what each of them has found. -/
inductive Move (s : State q P R V E) (t : Thread q P) :
    Choice q P R V E → State q P R V E → Prop
  | pool {c : Local.Choice q P R} {b : Local.State q P R} (hc : s.allows t c)
      (hb : s.base.step (t, c) = some b) : Move s t (.pool c) ⟨b, s.slots c⟩
  | finish {output : Except E V} {r : R} {b : Local.State q P R} {o : OneShot (Except E V)}
      (hr : Local.held (s.base.base.pc t) = some r)
      (hb : s.base.step (t, .finish (panicked output)) = some b)
      (ho : (s.slot r).put output = some o) :
    Move s t (.finish output) ⟨b, Function.update s.slot r o⟩
  | poll {r : R} {f : Local.SpawnFuture} {b : Local.State q P R} {o : OneShot (Except E V)}
      {answer : Answer (Except E V)} (hact : s.base.act t = .polling r)
      (hf : (s.base.task r).handle = .future f) (ht : f.task = true)
      (ho : (s.slot r).poll = some (o, answer))
      (hb : s.base.step (t, .attempt answer.isReady) = some b) :
    Move s t .pollTask ⟨b, Function.update s.slot r o⟩
  /-- A `SpawnFuture` that has given up its task. -/
  | refuse {r : R} {f : Local.SpawnFuture} {b : Local.State q P R}
      (hact : s.base.act t = .polling r) (hf : (s.base.task r).handle = .future f)
      (ht : f.task = false) (hb : s.base.step (t, .attempt false) = some b) :
    Move s t .pollTask ⟨b, Function.update s.slot r (s.slot r).refuse⟩
  | join {r : R} {o : OneShot (Except E V)} {answer : Answer (Except E V)}
      (hh : (s.base.task r).handle = .join) (hc : (s.base.task r).canceled = false)
      (ho : (s.slot r).poll = some (o, answer)) :
    Move s t (.join r) ⟨s.base, Function.update s.slot r o⟩

/-- **Inversion.**  Every step is one of the listed ones. -/
theorem Move.of_step (h : s.step (t, c) = some s') : Move s t c s' := by
  unfold State.step at h
  cases c with
  | pool c =>
    dsimp only at h
    split at h
    · obtain ⟨b, hb, rfl⟩ := Option.map_eq_some_iff.mp h
      exact .pool ‹_› hb
    · cases h
  | finish output =>
    dsimp only at h
    split at h
    · obtain ⟨b, hb, hput⟩ := Option.bind_eq_some_iff.mp h
      obtain ⟨o, ho, rfl⟩ := Option.map_eq_some_iff.mp hput
      exact .finish ‹_› hb ho
    · cases h
  | pollTask =>
    dsimp only at h
    split at h
    · rename_i r hact
      split at h
      · rename_i f hf
        unfold State.pollTask at h
        split at h
        · obtain ⟨⟨o, answer⟩, ho, hstep⟩ := Option.bind_eq_some_iff.mp h
          obtain ⟨b, hb, rfl⟩ := Option.map_eq_some_iff.mp hstep
          exact .poll hact hf ‹_› ho hb
        · obtain ⟨b, hb, rfl⟩ := Option.map_eq_some_iff.mp h
          exact .refuse hact hf (Bool.eq_false_of_not_eq_true ‹_›) hb
      · cases h
    · cases h
  | join r =>
    dsimp only at h
    split at h
    · rename_i hcall
      obtain ⟨⟨o, answer⟩, ho, rfl⟩ := Option.map_eq_some_iff.mp h
      exact .join hcall.2.1 hcall.2.2 ho
    · cases h

/-- The pool under the outputs takes steps of its own only. -/
lemma base_reachable (h : (machine q P R V E).Reachable s) :
    (Local.machine q P R).Reachable s.base := by
  refine h.map State.base ?_ ?_
  · rintro _ rfl
    rfl
  · rintro u ⟨t, c⟩ u' hstep
    have hlocal : ∀ {a : Thread q P × Local.Choice q P R} {b : Local.State q P R},
        u.base.step a = some b → ∃ a, (Local.machine q P R).step u.base a = some b :=
      fun hb => ⟨_, hb⟩
    cases Move.of_step hstep with
    | pool hc hb | finish hr hb ho | poll hact hf ht ho hb | refuse hact hf ht hb =>
      exact Or.inr (hlocal hb)
    | join hh hc ho => exact Or.inl rfl

end Moves

/-! ## The outputs and the tasks -/

/-- The output of a task agrees with what has become of its closure and its handle. -/
structure Fits (j : Local.Task) (o : OneShot (Except E V)) : Prop where
  unfinished : (∀ p, j.exec ≠ .finished p) → o.stored = []
  finished : ∀ p, j.exec = .finished p → ∃ v, o.stored = [v] ∧ panicked v = p
  unborn : j.handle = .unborn → o.cell ≠ .closed ∧ o.cell ≠ .taken
  uncanceled : (j.handle = .unborn ∨ ∃ f, j.handle = .future f) → j.canceled = false
  join : j.handle = .join → j.canceled = false → o.cell ≠ .closed
  future : ∀ f, j.handle = .future f → o.cell ≠ .closed ∧ (f.task = true ↔ o.cell ≠ .taken)

section Fits

variable {j j' : Local.Task} {o o' : OneShot (Except E V)}

/-- A step of the pool that is no end of a closure. -/
lemma Fits.passes (h : Fits j o) (hj : j.Passes j') : Fits j' o := by
  refine ⟨fun he => h.unfinished fun p hp => he p ((hj.finished p).mpr hp),
    fun p hp => h.finished p ((hj.finished p).mp hp), fun hu => ?_, fun hnew => ?_,
    fun hh hc => ?_, fun f hf => ?_⟩
  · rcases hj.handle with hsame | ⟨-, hmade | hmade⟩ | ⟨f, f', -, hf', -⟩ | hended
    · exact h.unborn (hsame ▸ hu)
    · rw [hmade] at hu; cases hu
    · rw [hmade] at hu; cases hu
    · rw [hf'] at hu; cases hu
    · rw [hu] at hended; cases hended
  · rcases hj.canceled with hsame | ⟨-, hjoin | hended⟩
    · rw [hsame]
      refine h.uncanceled ?_
      rcases hj.handle with hkept | ⟨hunborn, -⟩ | ⟨f, f', hf, -⟩ | hended
      · rwa [hkept] at hnew
      · exact Or.inl hunborn
      · exact Or.inr ⟨f, hf⟩
      · rcases hnew with hu | ⟨f, hf⟩
        · rw [hu] at hended; cases hended
        · rw [hf] at hended; cases hended
    · rcases hnew with hu | ⟨f, hf⟩
      · rw [hu] at hjoin; cases hjoin
      · rw [hf] at hjoin; cases hjoin
    · rcases hnew with hu | ⟨f, hf⟩
      · rw [hu] at hended; cases hended
      · rw [hf] at hended; cases hended
  · rcases hj.handle with hsame | ⟨hunborn, -⟩ | ⟨f, f', -, hf', -⟩ | hended
    · refine h.join (hsame ▸ hh) ?_
      rcases hj.canceled with hkept | ⟨htrue, -⟩
      · exact hkept ▸ hc
      · rw [hc] at htrue; cases htrue
    · exact (h.unborn hunborn).1
    · rw [hf'] at hh; cases hh
    · rw [hh] at hended; cases hended
  · rcases hj.handle with hsame | ⟨hunborn, hmade | hmade⟩ | ⟨g, g', hg, hg', htask⟩ | hended
    · exact h.future f (hsame ▸ hf)
    · rw [hmade] at hf; cases hf
    · rw [hmade] at hf
      cases hf
      exact ⟨(h.unborn hunborn).1, iff_of_true rfl (h.unborn hunborn).2⟩
    · rw [hg'] at hf
      cases hf
      rw [htask]
      exact h.future g hg
    · rw [hf] at hended; cases hended

/-- A handle that is dropped. -/
lemma Fits.close (h : Fits j o)
    (hj : j.handle.isEnded = true ∨ j.handle = .join ∧ j.canceled = true) : Fits j o.close := by
  refine ⟨h.unfinished, h.finished, fun hu => ?_, h.uncanceled, fun hh hc => ?_, fun f hf => ?_⟩
  · simp [hu, Local.Handle.isEnded] at hj
  · simp [hh, hc, Local.Handle.isEnded] at hj
  · simp [hf, Local.Handle.isEnded] at hj

/-- The closure ends. -/
lemma Fits.put {output : Except E V} (h : Fits j o) (ht : o.Told)
    (ho : o.put output = some o') :
    Fits { j with exec := .finished (panicked output) } o' := by
  have hstored : o.stored = [] := by
    cases hs : o.stored with
    | nil => rfl
    | cons x xs => simp [OneShot.put, hs] at ho
  have hcell : o.cell = .empty ∨ o.cell = .closed := by
    cases ht with
    | waiting n hs hc ha => exact hc
    | stored n x hs hc ha => simp [hs] at hstored
    | answered n m x hs hc ha => simp [hs] at hstored
  simp only [OneShot.put, hstored, Option.some.injEq] at ho
  subst ho
  have hclosed : o.cell ≠ .closed → o.cell.filled output = .full output := by
    intro hne
    rw [hcell.resolve_right hne]
    rfl
  refine ⟨fun he => absurd rfl (he _), fun p hp => ?_, fun hu => ?_, h.uncanceled,
    fun hh hc => ?_, fun f hf => ?_⟩
  · injection hp with hp
    exact ⟨output, rfl, hp⟩
  · simp [hclosed (h.unborn hu).1]
  · simp [hclosed (h.join hh hc)]
  · obtain ⟨hopen, htask⟩ := h.future f hf
    have hempty := hcell.resolve_right hopen
    simp [hclosed hopen, htask.mpr (by simp [hempty])]

/-- `JoinHandle::poll`. -/
lemma Fits.joined {a : Answer (Except E V)} (h : Fits j o) (hh : j.handle = .join)
    (ho : o.poll = some (o', a)) : Fits j o' := by
  have hstored : o'.stored = o.stored ∧ o'.cell ≠ .closed := by
    rcases OneShot.poll_cases ho with ⟨hc, -, rfl⟩ | ⟨x, hc, -, rfl⟩ | ⟨hc, -, rfl⟩
    · exact ⟨rfl, by simp [OneShot.tell, hc]⟩
    · exact ⟨rfl, by simp [OneShot.tell]⟩
    · exact ⟨rfl, by simp [OneShot.tell, hc]⟩
  refine ⟨fun he => hstored.1.trans (h.unfinished he), fun p hp => ?_, fun hu => ?_,
    h.uncanceled, fun _ _ => hstored.2, fun f hf => ?_⟩
  · rw [hstored.1]
    exact h.finished p hp
  · rw [hh] at hu; cases hu
  · rw [hh] at hf; cases hf

end Fits

/-- Every output is a one-shot cell that fits its task. -/
structure Coupled (s : State q P R V E) : Prop where
  slot : ∀ r, (oneShot (Except E V)).Reachable (s.slot r)
  fits : ∀ r, Fits (s.base.task r) (s.slot r)

section Steps

variable [DecidableEq P] [DecidableEq R] {s s' : State q P R V E} {t : Thread q P}

/-- The task of the closure that ends. -/
lemma finish_step {b b' : Local.State q P R} {r : R} {p : Bool}
    (hr : Local.held (b.base.pc t) = some r) (h : b.step (t, .finish p) = some b') :
    (b.task r).exec = .running ∧
      b'.task = Function.update b.task r { b.task r with exec := .finished p } := by
  cases Local.Move.of_step h with
  | finish hfree hr' he =>
    rw [hr] at hr'
    cases hr'
    exact ⟨he, rfl⟩

/-- A handle that is dropped is gone, or its task is cancelled. -/
lemma ended_of_dropped {b b' : Local.State q P R} {c : Local.Choice q P R} {r : R}
    (hc : dropped c = some r) (h : b.step (t, c) = some b') :
    (b'.task r).handle.isEnded = true ∨
      (b'.task r).handle = .join ∧ (b'.task r).canceled = true := by
  cases Local.Move.of_step h with
  | discard | close | forget =>
    cases hc
    exact Or.inl (by simp [Local.State.setTask, Local.State.setAct, Local.Handle.isEnded])
  | cancel hcall hj =>
    cases hc
    exact Or.inr (by simp [Local.State.setTask, hj])
  | _ => cases hc

/-- **Step lemma.**  The outputs change by operations on their cells only. -/
theorem Coupled.slot_step {c : Choice q P R V E} (h : Coupled s) (hm : Move s t c s') (r : R) :
    (oneShot (Except E V)).Reachable (s'.slot r) := by
  have hupdate : ∀ {x : R} {op : OneShot.Op (Except E V)} {o : OneShot (Except E V)},
      (s.slot x).step op = some o →
        (oneShot (Except E V)).Reachable (Function.update s.slot x o r) := by
    intro x op o ho
    by_cases hr : r = x
    · subst hr
      rw [Function.update_self]
      exact (h.slot r).step trivial ho
    · rw [Function.update_of_ne hr]
      exact h.slot r
  cases hm with
  | @pool c b hc hb =>
    cases hx : dropped c with
    | some x =>
      simp only [State.slots, hx]
      have hop : (s.slot x).step .close = some (s.slot x).close := rfl
      exact hupdate hop
    | none =>
      simp only [State.slots, hx]
      exact h.slot r
  | @finish output x b o hx hb ho =>
    have hop : (s.slot x).step (.put output) = some o := ho
    exact hupdate hop
  | @poll x _ _ o _ hact hf ht ho hb | @join x o _ hh hc ho =>
    have hop : (s.slot x).step .poll = some o := by
      simp only [OneShot.step, ho, Option.map_some]
    exact hupdate hop
  | @refuse x f b hact hf ht hb =>
    -- a future gives up its task when it takes the output
    have htaken : (s.slot x).cell = .taken := by
      by_contra hne
      have htask := ((h.fits x).future f hf).2.mpr hne
      rw [ht] at htask
      cases htask
    have hop : (s.slot x).step .refuse = some (s.slot x).refuse := by
      simp only [OneShot.step, htaken]
    exact hupdate hop

/-- **Step lemma.**  The outputs keep fitting their tasks. -/
theorem Coupled.fits_step [Fintype P] {c : Choice q P R V E} (h : Coupled s)
    (hs : (Local.machine q P R).Reachable s.base) (hm : Move s t c s') (r : R) :
    Fits (s'.base.task r) (s'.slot r) := by
  have hupdate : ∀ {x : R} {j : Local.Task} {o : OneShot (Except E V)}, Fits j o →
      Fits (Function.update s.base.task x j r) (Function.update s.slot x o r) := by
    intro x j o hjo
    by_cases hr : r = x
    · subst hr
      rw [Function.update_self, Function.update_self]
      exact hjo
    · rw [Function.update_of_ne hr, Function.update_of_ne hr]
      exact h.fits r
  cases hm with
  | @pool c b hc hb =>
    have hpasses := Local.Task.Passes.of_move (.of_reachable hs)
      (.of_reachable (Local.base_reachable hs)) (.of_step hb) (by rintro p rfl; exact hc)
      (by
        rintro ready rfl x hact
        simp [State.allows, hact, isPolling] at hc) r
    have hfits := (h.fits r).passes hpasses
    cases hx : dropped c with
    | some x =>
      simp only [State.slots, hx]
      by_cases hr : r = x
      · subst hr
        rw [Function.update_self]
        exact hfits.close (ended_of_dropped hx hb)
      · rw [Function.update_of_ne hr]
        exact hfits
    | none =>
      simp only [State.slots, hx]
      exact hfits
  | @finish output x b o hx hb ho =>
    dsimp only
    rw [(finish_step hx hb).2]
    exact hupdate ((h.fits x).put (.of_reachable (h.slot x)) ho)
  | @poll x f b o answer hact hf ht ho hb =>
    dsimp only
    have hx := h.fits x
    rcases (Local.Move.of_step hb).polling_cases hact hf with
      ⟨hready, htasks⟩ | ⟨hready, -, p, he, htasks⟩
    · rw [htasks]
      refine hupdate ?_
      rcases OneShot.poll_cases ho with ⟨-, -, rfl⟩ | ⟨v, -, rfl, -⟩ | ⟨hc, -⟩
      · exact ⟨hx.unfinished, hx.finished, hx.unborn, hx.uncanceled, hx.join, hx.future⟩
      · cases hready
      · exact absurd hc (((hx.future f hf).2).mp ht)
    · rw [htasks]
      refine hupdate ?_
      rcases OneShot.poll_cases ho with ⟨-, rfl, -⟩ | ⟨v, -, -, rfl⟩ | ⟨-, rfl, -⟩
      · cases hready
      · refine ⟨hx.unfinished, hx.finished, by simp, fun _ => hx.uncanceled (Or.inr ⟨f, hf⟩),
          by simp, ?_⟩
        rintro g hg
        injection hg with hg
        subst hg
        simp [OneShot.tell]
      · cases hready
  | @refuse x f b hact hf ht hb =>
    dsimp only
    have hx := h.fits x
    rcases (Local.Move.of_step hb).polling_cases hact hf with ⟨-, htasks⟩ | ⟨hready, -⟩
    · rw [htasks]
      exact hupdate ⟨hx.unfinished, hx.finished, hx.unborn, hx.uncanceled, hx.join, hx.future⟩
    · cases hready
  | @join x o answer hh hc ho =>
    have hx : Fits (Function.update s.base.task x (s.base.task x) r)
        (Function.update s.slot x o r) := hupdate ((h.fits x).joined hh ho)
    rwa [Function.update_eq_self] at hx

/-- The outputs fit the tasks in every run. -/
theorem Coupled.of_reachable [Fintype P] (h : (machine q P R V E).Reachable s) : Coupled s := by
  refine h.invariant ?_ ?_
  · rintro _ rfl
    refine ⟨fun r => .of_init rfl, fun r => ⟨fun _ => rfl, ?_, ?_, fun _ => rfl, ?_, ?_⟩⟩
    · rintro p hp
      cases hp
    · exact fun _ => ⟨by simp [OneShot.empty], by simp [OneShot.empty]⟩
    · rintro hh
      cases hh
    · rintro f hf
      cases hf
  · rintro u ⟨t, c⟩ u' hu hc - hstep
    have hm := Move.of_step hstep
    exact ⟨hc.slot_step hm, hc.fits_step (base_reachable hu) hm⟩

/-- **An await returns what its closure returned.**  In every run, the polls of the handle of a task
are first pending; at most one resolves, and passes on the value of the closure, which has been
executed exactly once, or re-raises its panic; and all later ones panic. -/
theorem polls_agree [Fintype P] (h : (machine q P R V E).Reachable s) (r : R) :
    (∃ n, s.polls r = List.replicate n .pending) ∨
      ∃ n m v, s.polls r =
          List.replicate n .pending ++ .ofAnswer (.ready v) :: List.replicate m .refused ∧
        (s.slot r).stored = [v] ∧ (s.base.task r).exec = .finished (panicked v) ∧
        (s.base.task r).ran = 1 := by
  have hcoupled := Coupled.of_reachable h
  have hpolls : ∀ n, (List.replicate n (.pending : Answer (Except E V))).map Poll.ofAnswer =
      List.replicate n .pending := fun n => List.map_replicate
  cases OneShot.Told.of_reachable (hcoupled.slot r) with
  | waiting n hs hc ha | stored n x hs hc ha =>
    refine Or.inl ⟨n, ?_⟩
    simp only [State.polls, ha, hpolls]
  | answered n m v hs hc ha =>
    obtain ⟨he, hran⟩ : (s.base.task r).exec = .finished (panicked v) ∧
        (s.base.task r).ran = 1 := by
      have hfits := hcoupled.fits r
      have hran := ((Local.Sound.of_reachable (base_reachable h)).task r).ran
      cases he : (s.base.task r).exec with
      | finished p =>
        obtain ⟨w, hw, rfl⟩ := hfits.finished p he
        rw [hs] at hw
        cases hw
        rw [he] at hran
        exact ⟨rfl, by simpa using hran⟩
      | _ =>
        have hnone := hfits.unfinished (by simp [he])
        rw [hs] at hnone
        cases hnone
    refine Or.inr ⟨n, m, v, ?_, hs, he, hran⟩
    simp only [State.polls, ha, List.map_append, List.map_cons, hpolls, List.map_replicate,
      Poll.ofAnswer]

end Steps

/-- Steps of the pool under the outputs. -/
def pooled (as : List (Thread q P × Local.Choice q P R)) : List (Thread q P × Choice q P R V E) :=
  as.map fun a => (a.1, .pool a.2)

/-- A task is scheduled; its handle is polled before a worker has taken it. -/
def scheduledRun : List (Thread solo Unit × Choice solo Unit ℕ ℕ String) :=
  pooled ((.inr (), .queue (.spawn 0 0 none)) :: Local.goes (.inr ()) 2) ++ [(.inr (), .join 0)]

/-- The closure of that task returns 7, and the handle is polled twice. -/
def joinedRun : List (Thread solo Unit × Choice solo Unit ℕ ℕ String) :=
  pooled (Local.goes solo.worker 3 ++
    [(solo.worker, .queue (.steal (.batch 1))), (solo.worker, .begin)]) ++
  [(solo.worker, .finish (.ok 7)), (.inr (), .join 0), (.inr (), .join 0)]

/-- The state after `joinedRun`. -/
def joined : State solo Unit ℕ ℕ String :=
  (machine solo Unit ℕ ℕ String).final ⟨.start solo Unit ℕ, fun _ => .empty⟩
    (scheduledRun ++ joinedRun) (by decide)

/-- The three polls of that handle. -/
theorem polls_agree_joined :
    joined.polls 0 = [.pending, .ready 7, .refused] ∧ (joined.base.task 0).ran = 1 := by
  have hpolls : joined.polls 0 = [.pending, .ready 7, .refused] := by decide
  refine ⟨hpolls, ?_⟩
  have hreach : (machine solo Unit ℕ ℕ String).Reachable joined := .final rfl _
  rcases polls_agree hreach 0 with ⟨n, hn⟩ | ⟨-, -, -, -, -, -, hran⟩
  · have hready : Poll.ready 7 ∈ List.replicate n (Poll.pending : Poll ℕ String) := by
      rw [← hn, hpolls]
      decide
    cases List.eq_of_mem_replicate hready
  · exact hran

end Await

end AffinityPool
