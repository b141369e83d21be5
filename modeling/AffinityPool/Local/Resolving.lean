import AffinityPool.Local.Await
import AffinityPool.Local.Completion

/-!
# Every await returns

The outputs add no work to the pool: a poll of a handle is a call, and the end of a closure
stores its output in the same step.  So a pool left to itself comes to rest as it does without
them, every scheduled task that was not cancelled in time has then been executed, and its
output is there: the next poll of its handle passes it on, whichever thread makes it
(`await_returns`).
-/

namespace AffinityPool

namespace Await

open Transition System

variable {q : Shape} {P R V E : Type}

/-! ## The pool with the logs of its scans -/

section Observed

variable [DecidableEq P] [DecidableEq R]

/-- The logs after a step. -/
def note (l : q.Worker → CallLog q) (s : State q P R V E) (a : Thread q P × Choice q P R V E)
    (s' : State q P R V E) : q.Worker → CallLog q :=
  match a.2 with
  | .pool c => Local.noteQueue l s.base (a.1, c) s'.base
  | _ => l

/-- The pool with its outputs and a log of the calls of every worker to the queue. -/
def observed (q : Shape) (P R V E : Type) [DecidableEq P] [DecidableEq R] :
    System (State q P R V E × (q.Worker → CallLog q)) (Thread q P × Choice q P R V E) :=
  (machine q P R V E).record (fun _ => .fresh) note

/-- The pool with its logs, without the outputs. -/
def inner (x : State q P R V E × (q.Worker → CallLog q)) :
    Local.State q P R × (q.Worker → CallLog q) := (x.1.base, x.2)

/-- A condition on the steps of the pool. -/
def onPool (ok : Local.State q P R × (q.Worker → CallLog q) →
      Thread q P × Local.Choice q P R → Prop)
    (x : State q P R V E × (q.Worker → CallLog q)) (a : Thread q P × Choice q P R V E) : Prop :=
  match a.2 with
  | .pool c => ok (inner x) (a.1, c)
  | _ => True

instance onPool.decidable (ok : Local.State q P R × (q.Worker → CallLog q) →
      Thread q P × Local.Choice q P R → Prop) [∀ x a, Decidable (ok x a)]
    (x : State q P R V E × (q.Worker → CallLog q)) (a : Thread q P × Choice q P R V E) :
    Decidable (onPool ok x a) :=
  match a with
  | (t, .pool c) => inferInstanceAs (Decidable (ok (inner x) (t, c)))
  | (_, .finish _) | (_, .pollTask) | (_, .join _) => inferInstanceAs (Decidable True)

/-- The step is a call: all but the steps of the queue by itself and of the closures. -/
def isGiven (a : Thread q P × Choice q P R V E) : Bool :=
  match a.2 with
  | .pool c => c.isCall
  | .finish _ => false
  | _ => true

variable {x y x' : State q P R V E × (q.Worker → CallLog q)} {t : Thread q P}
  {c : Choice q P R V E} {r : R}
  {ok : Local.State q P R × (q.Worker → CallLog q) → Thread q P × Local.Choice q P R → Prop}

/-- A step leaves the pool alone or is one of its steps; steps of its queue are made as such. -/
lemma inner_step (h : (observed q P R V E).step x (t, c) = some x') :
    (isGiven (t, c) = true ∧ inner x' = inner x) ∨
      ∃ c', (Local.observed q P R).step (inner x) (t, c') = some (inner x') ∧
        c'.isCall = isGiven (t, c) ∧
        (c = .pool c' ∨ x.1.base.queueAction (t, c') = none) := by
  obtain ⟨hstep, hlog⟩ := record_step.mp h
  have hm := Move.of_step hstep
  have hquiet : ∀ {c' : Local.Choice q P R}, x.1.base.queueAction (t, c') = none →
      x.1.base.step (t, c') = some x'.1.base → x'.2 = x.2 →
        (Local.observed q P R).step (inner x) (t, c') = some (inner x') := by
    intro c' hnone hb hsame
    refine record_step.mpr ⟨hb, ?_⟩
    simp only [inner, hsame, Local.noteQueue, hnone, Option.map_none, Option.getD_none]
  obtain ⟨s', l'⟩ := x'
  dsimp only at hm
  cases hm with
  | @pool c' b hc hb => exact Or.inr ⟨c', record_step.mpr ⟨hb, hlog⟩, rfl, Or.inl rfl⟩
  | @finish output u b o hu hb ho => exact Or.inr ⟨_, hquiet rfl hb hlog, rfl, Or.inr rfl⟩
  | @poll u f b o answer hact hf ht ho hb =>
    exact Or.inr ⟨_, hquiet rfl hb hlog, rfl, Or.inr rfl⟩
  | @refuse u f b hact hf ht hb => exact Or.inr ⟨_, hquiet rfl hb hlog, rfl, Or.inr rfl⟩
  | @join u o answer hh hc ho => exact Or.inl ⟨rfl, Prod.ext rfl hlog⟩

omit [DecidableEq P] [DecidableEq R] in
/-- A condition that asks nothing of a step outside the queue is met under the outputs. -/
lemma met_inner {c' : Local.Choice q P R}
    (hquiet : ∀ x a, x.1.queueAction a = none → ok x a) (hok : onPool ok x (t, c))
    (hc : c = .pool c' ∨ x.1.base.queueAction (t, c') = none) : ok (inner x) (t, c') := by
  rcases hc with rfl | hnone
  · exact hok
  · exact hquiet _ _ hnone

/-- The pool under the outputs is an observed pool. -/
theorem inner_reach (hquiet : ∀ x a, x.1.queueAction a = none → ok x a)
    (h : (observed q P R V E).Reach (onPool ok) x) : (Local.observed q P R).Reach ok (inner x) := by
  refine h.map inner ?_ ?_
  · rintro ⟨s, l⟩ ⟨rfl, hl⟩
    exact ⟨rfl, hl⟩
  · rintro u ⟨t, c⟩ u' hok hstep
    rcases inner_step hstep with ⟨-, hsame⟩ | ⟨c', hlocal, -, hc⟩
    · exact Or.inl hsame
    · exact Or.inr ⟨_, met_inner hquiet hok hc, hlocal⟩

omit [DecidableEq P] [DecidableEq R] in
/-- A step outside the queue retries no steal. -/
lemma justified_of_quiet (x : Local.State q P R × (q.Worker → CallLog q))
    (a : Thread q P × Local.Choice q P R) (h : x.1.queueAction a = none) :
    Local.Justified x a := by
  intro b hb
  rw [h] at hb
  cases hb

omit [DecidableEq P] [DecidableEq R] in
/-- A step outside the queue calls no function of it. -/
lemma owned_of_quiet [Fintype P] (x : Local.State q P R × (q.Worker → CallLog q))
    (a : Thread q P × Local.Choice q P R) (h : x.1.queueAction a = none) :
    Local.OwnedCall x a := by
  intro b hb
  rw [h] at hb
  cases hb

/-- Left to itself, the pool under the outputs is left to itself. -/
lemma inner_alone
    (hl : (observed q P R V E).Leads (alone (onPool Local.Justified) isGiven) x y) :
    (Local.observed q P R).Leads (alone Local.Justified Local.isGiven) (inner x) (inner y) := by
  refine hl.map inner ?_
  rintro u ⟨t, c⟩ u' ⟨hok, hgiven⟩ hstep
  rcases inner_step hstep with ⟨-, hsame⟩ | ⟨c', hlocal, hcall, hc⟩
  · exact Or.inl hsame
  · exact Or.inr ⟨_, ⟨met_inner justified_of_quiet hok hc, hcall.trans hgiven⟩, hlocal⟩

variable [Fintype P]

/-- **Step lemma.**  Every step that is no call uses up work of the pool. -/
theorem innerWork_potential : Potential (observed q P R V E) (onPool Local.Justified) isGiven
    (fun x => Local.taskWork (inner x)) (3 * q.stimulusSteps + 1) := by
  rintro x ⟨t, c⟩ x' h hok hstep
  dsimp only
  rcases inner_step hstep with ⟨hgiven, hsame⟩ | ⟨c', hlocal, hcall, hc⟩
  · rw [hsame, if_pos hgiven]
    omega
  · have hwork := Local.taskWork_potential (inner x) (t, c') (inner x')
      (inner_reach justified_of_quiet h) (met_inner justified_of_quiet hok hc) hlocal
    rwa [show Local.isGiven (t, c') = isGiven (t, c) from hcall] at hwork

/-- Where only calls are left, only calls of the pool are left: an output can always be put. -/
lemma settled_inner [Inhabited V] (h : (machine q P R V E).Reachable y.1)
    (hy : Settled (observed q P R V E) (onPool Local.Justified) isGiven y) :
    Settled (Local.observed q P R) Local.Justified Local.isGiven (inner y) := by
  rintro ⟨t, c⟩ hok hgiven
  by_contra hsome
  obtain ⟨z, hz⟩ := Option.ne_none_iff_exists'.mp hsome
  have hstep : y.1.base.step (t, c) = some z.1 := (record_step.mp hz).1
  have hblocked : ∀ (c : Choice q P R V E) (s' : State q P R V E),
      onPool Local.Justified y (t, c) → isGiven (t, c) = false → y.1.step (t, c) ≠ some s' := by
    intro c s' hjustified hown hs'
    have hnone := hy (t, c) hjustified hown
    rw [observed, record_of_step hs'] at hnone
    cases hnone
  cases c with
  | queue c =>
    refine hblocked (.pool (.queue c)) ⟨z.1, y.1.slots (.queue c)⟩ hok hgiven ?_
    simp only [State.step, State.allows, if_true, hstep, Option.map_some]
  | begin =>
    refine hblocked (.pool .begin) ⟨z.1, y.1.slots .begin⟩ hok hgiven ?_
    simp only [State.step, State.allows, if_true, hstep, Option.map_some]
  | finish p =>
    -- whatever the closure ends with, there is room for its output
    generalize z.1 = b at hstep
    cases Local.Move.of_step hstep with
    | @finish r p hfree hr he =>
      have hstored : (y.1.slot r).stored = [] :=
        ((Coupled.of_reachable h).fits r).unfinished (by simp [he])
      have hfinish : y.1.base.step (t, .finish (panicked (.ok default : Except E V))) = some _ :=
        (Local.Move.finish hfree hr he).step
      obtain ⟨s', hs'⟩ : ∃ s', y.1.step (t, .finish (.ok default)) = some s' := by
        simp [State.step, hr, State.finish, hfinish, OneShot.put, hstored]
      exact hblocked (.finish (.ok default)) s' trivial rfl hs'
  | _ => cases hgiven

/-! ## Every await returns -/

/-- As long as all polls of the handle of `r` were pending, its next poll passes on the output `v`,
whichever thread makes it. -/
structure State.Answers (s : State q P R V E) (r : R) (v : Except E V) : Prop where
  join : ∀ t, s.base.atCall t → (s.base.task r).handle = .join →
    (s.base.task r).canceled = false → (∀ a ∈ s.polls r, a = .pending) →
    ∃ s', s.step (t, .join r) = some s' ∧ s'.polls r = s.polls r ++ [.ofAnswer (.ready v)]
  future : ∀ t f hash cell, s.base.atCall t → (s.base.task r).handle = .future f →
    f.runnable = false → (s.base.task r).lent = false → (∀ a ∈ s.polls r, a = .pending) →
    ∃ s', (machine q P R V E).exec s [(t, .pool (.poll r hash cell)), (t, .pollTask)] = some s' ∧
      s'.polls r = s.polls r ++ [.ofAnswer (.ready v)]

omit [Fintype P] in
/-- A cell that has its value and was not taken hands it out. -/
lemma poll_of_pending {o : OneShot (Except E V)} {v : Except E V} (ht : o.Told)
    (hs : o.stored = [v]) (hc : o.cell ≠ .closed)
    (ha : ∀ a ∈ o.answers.map Poll.ofAnswer, a = .pending) :
    o.cell = .full v ∧ o.poll = some ({ o with cell := .taken }.tell (.ready v), .ready v) := by
  have hfull : o.cell = .full v := by
    cases ht with
    | waiting n hnone hcell hans => simp [hs] at hnone
    | stored n x hstored hcell hans =>
      rw [hs] at hstored
      cases hstored
      exact hcell.resolve_right hc
    | answered n m x hstored hcell hans =>
      have hready := ha (.ofAnswer (.ready x)) (List.mem_map.mpr ⟨_, by simp [hans], rfl⟩)
      cases x <;> cases hready
  refine ⟨hfull, ?_⟩
  simp only [OneShot.poll, hfull]

omit [Fintype P] in
/-- The poll of an inner task whose future still has it. -/
lemma step_pollTask {s : State q P R V E} {b : Local.State q P R} {f : Local.SpawnFuture}
    {o : OneShot (Except E V)} {a : Answer (Except E V)} (hact : s.base.act t = .polling r)
    (hf : (s.base.task r).handle = .future f) (ht : f.task = true)
    (ho : (s.slot r).poll = some (o, a)) (hb : s.base.step (t, .attempt a.isReady) = some b) :
    s.step (t, .pollTask) = some ⟨b, Function.update s.slot r o⟩ := by
  simp [State.step, hact, hf, State.pollTask, ht, ho, hb]

/-- A handle whose closure is through answers. -/
lemma answers_of_finished {s : State q P R V E} {v : Except E V}
    (h : (machine q P R V E).Reachable s) (hs : (s.slot r).stored = [v])
    (he : (s.base.task r).exec = .finished (panicked v)) : s.Answers r v := by
  have hcoupled := Coupled.of_reachable h
  have hfits := hcoupled.fits r
  have htold := OneShot.Told.of_reachable (hcoupled.slot r)
  -- the output after the poll
  have htaken : ∀ b : Local.State q P R,
      State.polls ⟨b, Function.update s.slot r
        ({ s.slot r with cell := .taken }.tell (.ready v))⟩ r =
        s.polls r ++ [.ofAnswer (.ready v)] := by
    intro b
    simp [State.polls, OneShot.tell]
  constructor
  · intro t hcall hh hc ha
    obtain ⟨-, hpoll⟩ := poll_of_pending htold hs (hfits.join hh hc) ha
    refine ⟨_, ?_, htaken s.base⟩
    simp [State.step, hcall, hh, hc, State.join, hpoll]
  · intro t f hash cell hcall hf hrun hlent ha
    obtain ⟨hclosed, htask⟩ := hfits.future f hf
    obtain ⟨hfull, hpoll⟩ := poll_of_pending htold hs hclosed ha
    have hgiven : f.task = true := htask.mpr (by simp [hfull])
    have hpolled : s.base.step (t, .poll r hash cell) = some _ :=
      (Local.Move.poll ⟨hcall, hlent⟩ hf hrun).step
    obtain ⟨b, hstart, hact', hf', he', hout'⟩ : ∃ b,
        s.step (t, .pool (.poll r hash cell)) = some ⟨b, s.slot⟩ ∧ b.act t = .polling r ∧
          (b.task r).handle = .future f ∧ (b.task r).exec = .finished (panicked v) ∧
          Local.isOut (b.base.pc t) = true := by
      refine ⟨(s.base.setTask r { s.base.task r with lent := true, polled := true }).setAct t
        (.polling r), ?_, ?_⟩
      · simp only [State.step, State.allows, if_true, hpolled, State.slots, dropped,
          Option.map_some]
      · simp [Local.State.setAct, Local.State.setTask, hf, he, hcall.2]
    obtain ⟨b', hb'⟩ : ∃ b', b.step (t, .attempt true) = some b' :=
      ⟨_, (Local.Move.ready hact' hout' hf' hgiven he').step⟩
    have hnext : State.step ⟨b, s.slot⟩ (t, .pollTask) = some ⟨b', Function.update s.slot r _⟩ :=
      step_pollTask hact' hf' hgiven hpoll hb'
    refine ⟨_, ?_, htaken b'⟩
    simp only [exec, machine, hstart, hnext, Option.bind_some]

/-- **Every await returns.**  Suppose that a shutdown, if there was one, was called when every
foreign push had returned, and that no worker is inside a call of `poll` or `drop`.  Left to
itself the pool comes to rest, after a number of steps bounded by its work, and whichever steps it
takes, then every task scheduled before that was not cancelled in time has been executed once
and left an output, and its handle answers with it. -/
theorem await_returns [Inhabited V]
    (h : (observed q P R V E).Reach
      (onPool fun x a => Local.Justified x a ∧ Local.OwnedCall x a) x)
    (hfree : ∀ w, x.1.base.act (.inl w) = .free) :
    (∃ y, (observed q P R V E).Leads (alone (onPool Local.Justified) isGiven) x y ∧
      Settled (observed q P R V E) (onPool Local.Justified) isGiven y) ∧
    (∀ as y, (observed q P R V E).Meets (alone (onPool Local.Justified) isGiven) x as →
      (observed q P R V E).exec x as = some y → as.length ≤ Local.taskWork (inner x)) ∧
    ∀ y, (observed q P R V E).Leads (alone (onPool Local.Justified) isGiven) x y →
      Settled (observed q P R V E) (onPool Local.Justified) isGiven y →
      ∀ r ∈ x.1.base.base.mem.pushed, ¬ (x.1.base.task r).Skipped →
        ∃ v, (y.1.slot r).stored = [v] ∧ (y.1.base.task r).ran = 1 ∧ y.1.Answers r v := by
  have hjustified : (observed q P R V E).Reach (onPool Local.Justified) x := by
    refine h.mono ?_
    rintro u ⟨t, c⟩ hok
    cases c with
    | pool c => exact hok.1
    | _ => trivial
  have hinner : (Local.observed q P R).Reach
      (fun x a => Local.Justified x a ∧ Local.OwnedCall x a) (inner x) :=
    inner_reach (fun u a hnone => ⟨justified_of_quiet u a hnone, owned_of_quiet u a hnone⟩) h
  refine ⟨exists_settled innerWork_potential hjustified, fun as y hm hexec => ?_,
    fun y hl hy r hr hskipped => ?_⟩
  · exact exec_length_le_of_alone innerWork_potential hjustified hm hexec
  · have hreach : (machine q P R V E).Reachable y.1 := by
      have hobserved := hjustified.leads hl.of_alone
      unfold observed at hobserved
      exact hobserved.of_record
    have hends := Local.ends_of_settled hinner hfree (inner_alone hl) (settled_inner hreach hy) hr
    obtain ⟨p, he, hran, -⟩ := hends.executed hskipped
    obtain ⟨v, hv, rfl⟩ := ((Coupled.of_reachable hreach).fits r).finished p he
    exact ⟨v, hv, hran, answers_of_finished hreach hv he⟩

end Observed

/-- The state after `scheduledRun`. -/
def scheduled : State solo Unit ℕ ℕ String × (solo.Worker → CallLog solo) :=
  (observed solo Unit ℕ ℕ String).final (⟨.start solo Unit ℕ, fun _ => .empty⟩, fun _ => .fresh)
    scheduledRun (by decide)

/-- Left to itself the pool of the first run executes the closure, and its handle answers. -/
theorem await_returns_scheduled :
    scheduled.1.polls 0 = [.pending] ∧
      (∃ y, (observed solo Unit ℕ ℕ String).Leads (alone (onPool Local.Justified) isGiven)
          scheduled y ∧
        Settled (observed solo Unit ℕ ℕ String) (onPool Local.Justified) isGiven y) ∧
      ∀ y, (observed solo Unit ℕ ℕ String).Leads (alone (onPool Local.Justified) isGiven)
          scheduled y →
        Settled (observed solo Unit ℕ ℕ String) (onPool Local.Justified) isGiven y →
        ∃ v, (y.1.slot 0).stored = [v] ∧ (y.1.base.task 0).ran = 1 ∧ y.1.Answers 0 v := by
  have hreach : (observed solo Unit ℕ ℕ String).Reach
      (onPool fun x a => Local.Justified x a ∧ Local.OwnedCall x a) scheduled := by
    have hinit : (observed solo Unit ℕ ℕ String).init
        (⟨.start solo Unit ℕ, fun _ => .empty⟩, fun _ => .fresh) := ⟨rfl, rfl⟩
    exact .final hinit (by decide) _
  obtain ⟨hexists, -, hends⟩ := await_returns hreach (by decide)
  exact ⟨by decide, hexists, fun y hl hy => hends y hl hy 0 (by decide) (by decide)⟩

end Await

end AffinityPool
