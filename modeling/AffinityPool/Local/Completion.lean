import AffinityPool.Local.DropBlocking
import AffinityPool.Queue.Settling

/-!
# Every task comes to its end

What the callers do with futures and handles are calls; the rest, the queue by itself and the
closures it runs, uses up work: that of the queue and the steps of the runnables in service.  So
where no worker is inside a call of `poll` or `drop`, a pool left to itself comes to rest, and then
every scheduled task is over.  A task that was cancelled before its closure was entered has
been dropped by the worker that took it, every other one has run exactly once and to its end
(`tasks_complete`), and a poll of its future resolves.  The same holds of a pool that is shut down
when the pushes of other threads have returned (`tasks_complete_on_shutdown`).
-/

namespace AffinityPool

open Transition System

variable {q : Shape} {P R : Type}

section Callees

variable [DecidableEq P] {t : Thread q P} {c : Choice q P R} {m m' : Mem q P R} {pc pc' : Pc q R}
  {r : R}

/-- A worker is done with a runnable when `Runnable::run` returns. -/
lemma Move.callee_keeps (hm : Move t c m pc m' pc') (hr : pc.callee = some r) :
    pc'.callee = some r ∨ c = .ret := by
  cases hm
  case ret x hc => exact Or.inr hc
  all_goals first | exact Or.inl hr | cases hr

/-- What `pop_blocking` returns is run. -/
lemma Move.returned_cases (hm : Move t c m pc m' pc') (hr : r ∈ m'.returned) :
    r ∈ m.returned ∨ pc'.callee = some r := by
  cases hm
  case cheapFound w o round sc st x ht ho h | giveBack x =>
    rcases List.mem_append.mp hr with hold | hnew
    · exact Or.inl hold
    · obtain rfl := List.mem_singleton.mp hnew
      exact Or.inr rfl
  all_goals exact Or.inl hr

/-- Only `Runnable::run` returns. -/
lemma move_ret [DecidableEq R] {res : Mem q P R × Pc q R} (h : move t m pc .ret = some res) :
    ∃ r, pc = .out (.running r) := by
  cases pc with
  | out k =>
    cases k with
    | foreign => simp [move] at h
    | running r => exact ⟨r, rfl⟩
  | push k x u => cases u <;> simp [move, pushMove] at h
  | cheap round sc => cases t <;> simp [move, Choice.report] at h
  | sweep sc => cases t <;> simp [move, Choice.report] at h
  | _ => simp [move] at h

/-- A push returns nothing. -/
lemma Move.returned_eq (hm : Move t c m pc m' pc') (hp : m'.pushed ≠ m.pushed) :
    m'.returned = m.returned := by
  cases hm
  case spawn k x hash cell hc hx hown hfor => rfl
  all_goals exact absurd rfl hp

end Callees

namespace Local

/-! ## What a step does to a task -/

/-- The step of a task from `j` to `j'`, as far as its future is concerned. -/
inductive Task.Advance (j j' : Task) : Prop
  | keep (he : j'.exec = j.exec) (hr : j'.ran = j.ran)
      (hc : j.canceled = true → j'.canceled = true)
  /-- `Runnable::run` drops the future of a cancelled task. -/
  | skip (hi : j.exec = .idle) (hc : j.canceled = true) (hj : j' = { j with exec := .dropped })
  | enter (hi : j.exec = .idle) (hc : j.canceled = false)
      (hj : j' = { j with exec := .running, ran := j.ran + 1 })
  | finish (panicked : Bool) (he : j.exec = .running)
      (hj : j' = { j with exec := .finished panicked })
  /-- The future was dropped before it was polled. -/
  | discard (f : SpawnFuture) (hf : j.handle = .future f) (hr : f.runnable = true)
      (hj : j' = { j with handle := .gone, exec := .dropped, outcome := some .dropped })

/-- The steps of `Runnable::run` that a future has before it. -/
def Exec.work : Exec → ℕ
  | .idle => 2
  | .running => 1
  | _ => 0

lemma Task.Advance.work_le {j j' : Task} (h : j.Advance j') : j'.exec.work ≤ j.exec.work := by
  cases h with
  | keep he hr hc => rw [he]
  | skip hi hc hj => rw [hj, hi]; exact Nat.zero_le _
  | enter hi hc hj => rw [hj, hi]; exact Nat.le_succ 1
  | finish p he hj => rw [hj, he]; exact Nat.zero_le _
  | discard f hf hr hj => rw [hj]; exact Nat.zero_le _

section Steps

variable [DecidableEq P] [DecidableEq R] {s s' : State q P R} {t : Thread q P} {c : Choice q P R}

omit [DecidableEq P] in
lemma Task.Advance.update {x : R} {j : Task} (r : R) (h : (s.task x).Advance j) :
    (s.task r).Advance (Function.update s.task x j r) := by
  by_cases hr : r = x
  · subst hr
    rw [Function.update_self]
    exact h
  · rw [Function.update_of_ne hr]
    exact .keep rfl rfl id

/-- **Inversion.**  Every step of the pool is one of the listed steps for every task. -/
theorem Task.Advance.of_move (hm : Move s t c s') (r : R) : (s.task r).Advance (s'.task r) := by
  cases hm with
  | queue | park | unpark => exact .keep rfl rfl id
  | discard hcall hf hr =>
    refine Task.Advance.update r ?_
    exact .discard _ hf hr rfl
  | close | cancel =>
    refine Task.Advance.update r ?_
    exact .keep rfl rfl fun _ => rfl
  | skip hfree hr he hc =>
    refine Task.Advance.update r ?_
    exact .skip he hc rfl
  | enter hfree hr he hc =>
    refine Task.Advance.update r ?_
    exact .enter he hc rfl
  | finish hfree hr he =>
    refine Task.Advance.update r ?_
    exact .finish _ he rfl
  | _ =>
    refine Task.Advance.update r ?_
    exact .keep rfl rfl id

/-! ## The queue under the tasks -/

omit [DecidableEq P] [DecidableEq R] in
/-- The step of the queue in a step of the pool. -/
def State.queueAction (s : State q P R) :
    Thread q P × Choice q P R → Option (Thread q P × AffinityPool.Choice q P R)
  | (t, .queue c) => some (t, c)
  | (t, .poll r hash cell) =>
    match (s.task r).handle with
    | .future f => if f.runnable then some (t, .spawn r hash cell) else none
    | _ => none
  | _ => none

/-- **Inversion.**  A step of the pool leaves the queue alone or is one of its steps, and
`Runnable::run` returns when it is through with its future. -/
theorem Move.queue_cases (hm : Move s t c s') :
    (s.queueAction (t, c) = none ∧ s'.base = s.base) ∨
      ∃ c', s.queueAction (t, c) = some (t, c') ∧ s.base.step (t, c') = some s'.base ∧
        (c' = .ret → ∀ r ∈ held (s.base.pc t), (s.task r).exec.isOver = true) ∧
        (c = .queue c' ∨ c'.isStimulus = true) := by
  cases hm with
  | @queue c b hc hallows hb =>
    refine Or.inr ⟨c, rfl, hb, ?_, Or.inl rfl⟩
    rintro rfl
    exact hallows.2
  | spawn hfree hu hb => exact Or.inr ⟨_, rfl, hb, by simp, Or.inl rfl⟩
  | schedule hcall hf hr hb =>
    exact Or.inr ⟨_, by simp only [State.queueAction, hf, hr, if_true], hb, by simp, Or.inr rfl⟩
  | poll hcall hf hr =>
    exact Or.inl ⟨by simp only [State.queueAction, hf, hr, Bool.false_eq_true, if_false], rfl⟩
  | _ => exact Or.inl ⟨rfl, rfl⟩

/-- The start and the end of a closure are steps of the worker that runs it. -/
lemma Move.service_cases (hm : Move s t c s') (hc : c = .begin ∨ ∃ p, c = .finish p) :
    ∃ r, held (s.base.pc t) = some r ∧ (s'.task r).exec.work + 1 ≤ (s.task r).exec.work := by
  cases hm with
  | skip hfree hr he | enter hfree hr he | finish hfree hr he =>
    refine ⟨_, hr, ?_⟩
    rw [he]
    simp [State.setTask, Exec.work]
  | _ => simp at hc

/-- What the callers decide: all but the steps of the queue by itself and of the closures. -/
def Choice.isCall : Choice q P R → Bool
  | .queue c => c.isStimulus
  | .begin | .finish _ => false
  | _ => true

/-- The step is a call. -/
def isGiven (a : Thread q P × Choice q P R) : Bool := a.2.isCall

/-- Without a call no thread enters or leaves one, and nothing is cancelled. -/
lemma Move.calls_eq (hm : Move s t c s') (hc : c.isCall = false) :
    s'.act = s.act ∧ ∀ r, (s'.task r).canceled = (s.task r).canceled := by
  have hupdate : ∀ x j, j.canceled = (s.task x).canceled →
      ∀ r, (Function.update s.task x j r).canceled = (s.task r).canceled := by
    intro x j hj r
    by_cases hr : r = x
    · subst hr
      rw [Function.update_self]
      exact hj
    · rw [Function.update_of_ne hr]
  cases hm with
  | queue => exact ⟨rfl, fun _ => rfl⟩
  | skip | enter | finish => exact ⟨rfl, hupdate _ _ rfl⟩
  | _ => cases hc

end Steps

/-! ## The pool with the logs of its scans -/

section Observed

variable [DecidableEq P] [DecidableEq R]

/-- The logs after a step of the pool. -/
def noteQueue (l : q.Worker → CallLog q) (s : State q P R) (a : Thread q P × Choice q P R)
    (s' : State q P R) : q.Worker → CallLog q :=
  ((s.queueAction a).map fun b => noteCalls l s.base b s'.base).getD l

/-- The pool with a log of the calls of every worker to the queue. -/
def observed (q : Shape) (P R : Type) [DecidableEq P] [DecidableEq R] :
    System (State q P R × (q.Worker → CallLog q)) (Thread q P × Choice q P R) :=
  (machine q P R).record (fun _ => .fresh) noteQueue

/-- The queue in a state of the pool, with its logs. -/
def queueOf (x : State q P R × (q.Worker → CallLog q)) :
    AffinityPool.State q P R × (q.Worker → CallLog q) := (x.1.base, x.2)

/-- A steal reports `Retry` only after its victim was changed. -/
def Justified (x : State q P R × (q.Worker → CallLog q)) (a : Thread q P × Choice q P R) : Prop :=
  ∀ b ∈ x.1.queueAction a, RetriesJustified (queueOf x) b

instance (x : State q P R × (q.Worker → CallLog q)) (a : Thread q P × Choice q P R) :
    Decidable (Justified x a) :=
  inferInstanceAs (Decidable (∀ b ∈ x.1.queueAction a, RetriesJustified (queueOf x) b))

variable {x x' : State q P R × (q.Worker → CallLog q)} {a : Thread q P × Choice q P R}

/-- A step of the pool leaves the logged queue alone or is one of its steps. -/
lemma queueOf_step (h : (observed q P R).step x a = some x') :
    (x.1.queueAction a = none ∧ queueOf x' = queueOf x) ∨
      ∃ c, x.1.queueAction a = some (a.1, c) ∧
        (watched q P R).step (queueOf x) (a.1, c) = some (queueOf x') ∧
        (a.2 = .queue c ∨ c.isStimulus = true) := by
  obtain ⟨hstep, hlog⟩ := record_step.mp h
  rcases (Move.of_step hstep).queue_cases with ⟨hnone, hbase⟩ | ⟨c, hsome, hbase, -, hchoice⟩
  · refine Or.inl ⟨hnone, ?_⟩
    simp only [queueOf, hbase, hlog, noteQueue, hnone, Option.map_none, Option.getD_none]
  · refine Or.inr ⟨c, hsome, ?_, hchoice⟩
    refine record_step.mpr ⟨hbase, ?_⟩
    simp only [queueOf, hlog, noteQueue, hsome, Option.map_some, Option.getD_some]

/-- The queue under the tasks is a watched queue. -/
theorem watched_of_observed (h : (observed q P R).Reach Justified x) :
    (watched q P R).Reach RetriesJustified (queueOf x) := by
  refine h.map queueOf ?_ ?_
  · rintro ⟨s, l⟩ ⟨rfl, hl⟩
    exact ⟨rfl, hl⟩
  · intro u a u' hok hstep
    rcases queueOf_step hstep with ⟨-, hsame⟩ | ⟨c, hsome, hb, -⟩
    · exact Or.inl hsame
    · exact Or.inr ⟨_, hok _ hsome, hb⟩

omit [DecidableEq P] [DecidableEq R] in
lemma callee_of_held {pc : Pc q R} {r : R} (h : held pc = some r) : pc.callee = some r := by
  cases pc with
  | out k =>
    cases k with
    | foreign => cases h
    | running x => exact h
  | _ => cases h

/-- What the runnable that a thread runs has before it. -/
def State.service (s : State q P R) (t : Thread q P) : ℕ :=
  ((s.base.pc t).callee.map fun r => (s.task r).exec.work).getD 0

omit [DecidableEq P] [DecidableEq R] in
lemma State.service_le (s : State q P R) (t : Thread q P) : s.service t ≤ 2 := by
  unfold State.service
  cases (s.base.pc t).callee with
  | none => exact Nat.zero_le _
  | some r =>
    dsimp only [Option.map_some, Option.getD_some]
    cases (s.task r).exec <;> simp [Exec.work]

/-- A thread that makes no step of the queue has no more before it. -/
lemma State.service_mono {s s' : State q P R} (h : s.step a = some s') {u : Thread q P}
    (hu : s'.base.pc u = s.base.pc u) : s'.service u ≤ s.service u := by
  unfold State.service
  rw [hu]
  cases (s.base.pc u).callee with
  | none => exact le_rfl
  | some r => exact (Task.Advance.of_move (.of_step h) r).work_le

variable [Fintype P]

/-- The work before the pool. -/
def taskWork (x : State q P R × (q.Worker → CallLog q)) : ℕ :=
  3 * workAhead (queueOf x) + tally id x.1.service

/-- The work of a step is that of the thread that makes it. -/
lemma service_step {s s' : State q P R} {t : Thread q P} {c : Choice q P R}
    (h : s.step (t, c) = some s') (hpc : ∀ u, u ≠ t → s'.base.pc u = s.base.pc u) :
    tally id s'.service + s.service t ≤ tally id s.service + s'.service t := by
  have hle := tally_le_add_of_ne id s.service s'.service (d := 0) t fun u hu =>
    State.service_mono h (hpc u hu)
  simpa using hle

/-- **Step lemma.**  Every step that is no call uses up work. -/
theorem taskWork_potential : Potential (observed q P R) Justified isGiven taskWork
    (3 * q.stimulusSteps + 1) := by
  rintro x ⟨t, c⟩ x' h hok hstep
  have hlocal := (record_step.mp hstep).1
  unfold taskWork
  rcases queueOf_step hstep with ⟨hnone, hsame⟩ | ⟨c', hsome, hb, hchoice⟩
  · have hbase : x'.1.base = x.1.base := congrArg Prod.fst hsame
    have hthreads := service_step hlocal fun u _ => by rw [hbase]
    rw [hsame]
    cases hcall : c.isCall with
    | true =>
      have hmono : x'.1.service t ≤ x.1.service t := State.service_mono hlocal (by rw [hbase])
      have hgiven : isGiven (t, c) = true := hcall
      rw [if_pos hgiven]
      omega
    | false =>
      -- a closure begins or ends
      have hrun : c = .begin ∨ ∃ p, c = .finish p := by
        cases c with
        | begin => exact Or.inl rfl
        | finish p => exact Or.inr ⟨p, rfl⟩
        | queue c => cases hnone
        | _ => cases hcall
      obtain ⟨r, hheld, hless⟩ := (Move.of_step hlocal).service_cases hrun
      have hcallee : (x.1.base.pc t).callee = some r := callee_of_held hheld
      have hworker : x'.1.service t + 1 ≤ x.1.service t := by
        simp only [State.service, hbase, hcallee, Option.map_some, Option.getD_some]
        exact hless
      omega
  · obtain ⟨hbase, -⟩ := record_step.mp hb
    have hthreads := service_step hlocal fun u hu => by
      obtain ⟨m, pc, -, hstate⟩ := AffinityPool.State.step_cases hbase
      rw [show x'.1.base = _ from hstate]
      exact Function.update_of_ne hu _ _
    have hmore := x'.1.service_le t
    have hqueue := workAhead_potential (queueOf x) (t, c') (queueOf x') (watched_of_observed h)
      (hok _ hsome) hb
    have hgiven : AffinityPool.isGiven (t, c') = true → isGiven (t, c) = true := by
      intro hstimulus
      rcases hchoice with rfl | -
      · exact hstimulus
      · cases c with
        | queue c => cases hsome; exact hstimulus
        | poll r hash cell => rfl
        | _ => cases hsome
    by_cases hstimulus : AffinityPool.isGiven (t, c') = true
    · rw [if_pos hstimulus] at hqueue
      rw [if_pos (hgiven hstimulus)]
      omega
    · rw [if_neg hstimulus] at hqueue
      omega

/-! ## Nobody is stuck -/

omit [Fintype P] in
/-- Where only calls are left and no worker is inside one, no worker runs a runnable. -/
lemma not_running_of_settled (hx : Settled (observed q P R) Justified isGiven x)
    {t : Thread q P} (hfree : x.1.act t = .free) {r : R} :
    x.1.base.pc t ≠ .out (.running r) := by
  intro hpc
  have hheld : held (x.1.base.pc t) = some r := by
    rw [hpc]
    rfl
  have hnone : ∀ {c : Choice q P R} {s' : State q P R}, Move x.1 t c s' → c.isCall = false →
      ¬ Justified x (t, c) := by
    intro c s' hm hc hok
    have hstep := hx (t, c) hok hc
    rw [observed, record_of_step hm.step] at hstep
    cases hstep
  have hover : (x.1.task r).exec.isOver = true := by
    cases he : (x.1.task r).exec with
    | idle =>
      have hok : Justified x (t, .begin) := by rintro b ⟨⟩
      cases hc : (x.1.task r).canceled with
      | true => exact absurd hok (hnone (.skip hfree hheld he hc) rfl)
      | false => exact absurd hok (hnone (.enter hfree hheld he hc) rfl)
    | running =>
      have hok : Justified x (t, .finish false) := by rintro b ⟨⟩
      exact absurd hok (hnone (.finish hfree hheld he) rfl)
    | finished p => rfl
    | dropped => rfl
  have hallows : x.1.allows t .ret := by
    refine ⟨hfree, fun u hu => ?_⟩
    rw [hheld] at hu
    cases hu
    exact hover
  have hbase : x.1.base.step (t, .ret) =
      some ⟨x.1.base.mem, Function.update x.1.base.pc t (.cheap 0 .own)⟩ := by
    simp only [AffinityPool.State.step, hpc, move, Option.map_some]
  refine hnone (.queue (by rintro u hash cell ⟨⟩) hallows hbase) rfl ?_
  rintro b ⟨⟩ hreport
  cases hreport

/-- **Nobody is stuck.**  Where only calls are left and no worker is inside one, every thread
rests. -/
theorem resting_of_calls (h : (observed q P R).Reach Justified x)
    (hx : Settled (observed q P R) Justified isGiven x)
    (hfree : ∀ w, x.1.act (.inl w) = .free) (t : Thread q P) : x.1.base.Resting t := by
  have hwatched := watched_of_observed h
  have hreach := reachable_of_watched hwatched
  have hk := Kinds.of_reachable hreach
  refine resting_of_stuck hk (.of_reachable hreach) (slotted_of_scan hwatched)
    (fun u c hc hreport => ?_) t
  by_contra hmove
  obtain ⟨res, hres⟩ := Option.ne_none_iff_exists'.mp hmove
  have hbase : x.1.base.step (u, c) = some ⟨res.1, Function.update x.1.base.pc u res.2⟩ :=
    Option.map_eq_some_iff.mpr ⟨res, hres, rfl⟩
  have hallows : x.1.allows u c := by
    cases c with
    | spawn r hash cell | close | spurious => cases hc
    | go | steal o | pick v => trivial
    | ret =>
      -- only a worker runs a runnable, and no worker does
      obtain ⟨r, hpc⟩ := move_ret hres
      have hkind := hk u
      rw [hpc] at hkind
      cases u with
      | inl w => exact absurd hpc (not_running_of_settled hx (hfree w))
      | inr p => cases hkind
  have hqueue : ∀ r hash cell, c ≠ .spawn r hash cell := by
    rintro r hash cell rfl
    cases hc
  have hnone := hx (u, .queue c) (by
    rintro b ⟨⟩ hretry
    exact absurd hretry hreport) hc
  rw [observed, record_of_step (Move.queue hqueue hallows hbase).step] at hnone
  cases hnone

end Observed

/-! ## What became of a returned runnable -/

section Traces

variable [DecidableEq P] [DecidableEq R] {s s' : State q P R} {t : Thread q P} {c : Choice q P R}
  {r : R}

lemma Task.Advance.isOver {j j' : Task} (h : j.Advance j') (hover : j.exec.isOver = true) :
    j'.exec.isOver = true := by
  cases h with
  | keep he hr hc => rw [he]; exact hover
  | skip hi hc hj => rw [hj]; rfl
  | enter hi hc hj => rw [hi] at hover; cases hover
  | finish p he hj => rw [hj]; rfl
  | discard f hf hr hj => rw [hj]; rfl

/-- A runnable that was returned is being run or is over, and of those that were returned only
cancelled ones have been dropped. -/
structure Traced (s : State q P R) : Prop where
  served : ∀ r ∈ s.base.mem.returned,
    (s.task r).exec.isOver = true ∨ ∃ t, (s.base.pc t).callee = some r
  dropped : ∀ r ∈ s.base.mem.returned, (s.task r).exec = .dropped → (s.task r).canceled = true

/-- A runnable in service stays in service until it is over. -/
lemma Traced.served_step (h : Traced s) (hstep : s.step (t, c) = some s')
    (hr : r ∈ s'.base.mem.returned) :
    (s'.task r).exec.isOver = true ∨ ∃ u, (s'.base.pc u).callee = some r := by
  have hadvance := Task.Advance.of_move (.of_step hstep) r
  rcases (Move.of_step hstep).queue_cases with ⟨-, hbase⟩ | ⟨c', -, hbase, hret, -⟩
  · rw [hbase] at hr ⊢
    exact (h.served r hr).imp_left hadvance.isOver
  · obtain ⟨m, pc, hm, hstate⟩ := AffinityPool.State.step_cases hbase
    have hself : s'.base.pc t = pc := by
      rw [hstate]
      exact Function.update_self _ _ _
    rw [hstate] at hr
    rcases hm.returned_cases hr with hold | hnew
    · rcases h.served r hold with hover | ⟨u, hu⟩
      · exact Or.inl (hadvance.isOver hover)
      · by_cases hut : u = t
        · subst hut
          rcases hm.callee_keeps hu with hkeeps | hc
          · exact Or.inr ⟨u, by rw [hself]; exact hkeeps⟩
          · -- the worker has returned from `Runnable::run`
            refine Or.inl (hadvance.isOver (hret hc r ?_))
            dsimp only at hc
            subst hc
            obtain ⟨⟨m₁, pc₁⟩, hmove, -⟩ := Option.map_eq_some_iff.mp hbase
            obtain ⟨x, hx⟩ := move_ret hmove
            dsimp only at hx
            rw [hx] at hu ⊢
            exact hu
        · refine Or.inr ⟨u, ?_⟩
          rw [hstate]
          exact (congrArg Pc.callee (Function.update_of_ne hut _ _)).trans hu
    · exact Or.inr ⟨t, by rw [hself]; exact hnew⟩

variable [Fintype P]

/-- What a step has returned was pushed before it. -/
lemma mem_pushed_of_step (hs : Storage s.base) (hs' : Storage s'.base)
    (hstep : s.step (t, c) = some s') (hr : r ∈ s'.base.mem.returned) :
    r ∈ s.base.mem.pushed := by
  rcases (Move.of_step hstep).queue_cases with ⟨-, hbase⟩ | ⟨c', -, hbase, -⟩
  · rw [hbase] at hr
    exact hs.returned_subset hr
  · have hpushed := hs'.returned_subset hr
    obtain ⟨m, pc, hm, hstate⟩ := AffinityPool.State.step_cases hbase
    rw [hstate] at hr hpushed
    by_cases hp : m.pushed = s.base.mem.pushed
    · exact hp ▸ hpushed
    · rw [hm.returned_eq hp] at hr
      exact hs.returned_subset hr

/-- **Step lemma.** -/
theorem Traced.step (h : Traced s) (hsound : Sound s) (hs : Storage s.base)
    (hs' : Storage s'.base) (hstep : s.step (t, c) = some s') : Traced s' := by
  refine ⟨fun r hr => h.served_step hstep hr, fun r hr he => ?_⟩
  have hpushed := mem_pushed_of_step hs hs' hstep hr
  cases Task.Advance.of_move (.of_step hstep) r with
  | keep hexec hran hc =>
    have hdropped : (s.task r).exec = .dropped := hexec ▸ he
    have hreturned := ((hsound.task r).started (by simp [hdropped])).resolve_right
      fun hgone => hgone.2 hpushed
    exact hc (h.dropped r hreturned hdropped)
  | skip hi hc hj =>
    rw [hj]
    exact hc
  | enter hi hc hj =>
    rw [hj] at he
    cases he
  | finish p hrun hj =>
    rw [hj] at he
    cases he
  | discard f hf hrun hj => exact absurd hpushed ((hsound.task r).fresh f hf hrun).1

/-- The invariant holds in every run. -/
theorem Traced.of_reachable (h : (machine q P R).Reachable s) : Traced s := by
  refine h.invariant ?_ ?_
  · rintro _ rfl
    exact ⟨fun r hr => absurd hr List.not_mem_nil, fun r hr => absurd hr List.not_mem_nil⟩
  · intro s a s' hr ht hok hstep
    exact ht.step (.of_reachable hr) (.of_reachable (base_reachable hr))
      (.of_reachable (base_reachable (hr.step hok hstep))) hstep

end Traces

/-! ## Cancellation -/

section Cancellation

variable [DecidableEq P] [DecidableEq R] {s s' : State q P R} {r : R}

/-- A task that was cancelled before its closure was entered. -/
def Task.Skipped (j : Task) : Prop := j.canceled = true ∧ j.ran = 0

instance (j : Task) : Decidable j.Skipped := inferInstanceAs (Decidable (_ ∧ _))

lemma Task.Advance.skipped {j j' : Task} (h : j.Advance j') (hj : j.Skipped) :
    j'.Skipped := by
  obtain ⟨hc, hran⟩ := hj
  cases h with
  | keep he hr hcancel => exact ⟨hcancel hc, hr.trans hran⟩
  | skip hi hcancel hj =>
    rw [hj]
    exact ⟨hc, hran⟩
  | enter hi hcancel hj =>
    rw [hc] at hcancel
    cases hcancel
  | finish p he hj =>
    rw [hj]
    exact ⟨hc, hran⟩
  | discard f hf hr hj =>
    rw [hj]
    exact ⟨hc, hran⟩

lemma Task.Advance.ran_le {j j' : Task} (h : j.Advance j') : j.ran ≤ j'.ran := by
  cases h with
  | keep he hr hcancel => exact hr.ge
  | skip hi hcancel hj =>
    rw [hj]
  | enter hi hcancel hj =>
    rw [hj]
    exact Nat.le_succ _
  | finish p he hj =>
    rw [hj]
  | discard f hf hr hj =>
    rw [hj]

/-- **Run lemma.**  A task that was cancelled in time stays so. -/
lemma Task.Skipped.leads (hl : (machine q P R).Leads (fun _ _ => True) s s')
    (h : (s.task r).Skipped) : (s'.task r).Skipped := by
  induction hl with
  | refl => exact h
  | tail _ _ hstep ih => exact (Task.Advance.of_move (.of_step hstep) r).skipped ih

/-- The closure of such a task is there untouched or has been dropped. -/
lemma Task.Skipped.exec_cases [Fintype P] (h : (s.task r).Skipped)
    (hr : (machine q P R).Reachable s) :
    (s.task r).exec = .idle ∨ (s.task r).exec = .dropped := by
  have hran := ((Sound.of_reachable hr).task r).ran
  rw [h.2] at hran
  split at hran
  · assumption
  · cases hran

end Cancellation

/-! ## The end of every task -/

section Runs

variable [Fintype P] [DecidableEq P] [DecidableEq R]
  {x y : State q P R × (q.Worker → CallLog q)} {s : State q P R} {r : R}

/-- The next poll of the future, by any thread, may resolve it with the result of the closure. -/
def State.Resolves (s : State q P R) (r : R) (panicked : Bool) : Prop :=
  ∀ t f hash cell, (s.task r).handle = .future f → f.runnable = false → f.task = true →
    (s.task r).lent = false → s.atCall t →
    ∃ s', (machine q P R).exec s [(t, .poll r hash cell), (t, .attempt true)] = some s' ∧
      (s'.task r).outcome = some (.ofResult panicked)

/-- What becomes of the task `r` between `s` and `s'`: a task that was cancelled in time is dropped
unexecuted, every other one has run once and to its end. -/
structure Ends (s s' : State q P R) (r : R) : Prop where
  skipped : (s.task r).Skipped → (s'.task r).exec = .dropped ∧ (s'.task r).ran = 0
  executed : ¬ (s.task r).Skipped →
    ∃ panicked, (s'.task r).exec = .finished panicked ∧ (s'.task r).ran = 1 ∧
      s'.Resolves r panicked

omit [Fintype P] in
/-- A future whose closure is through resolves. -/
lemma resolves_of_finished {panicked : Bool} (he : (s.task r).exec = .finished panicked) :
    s.Resolves r panicked := by
  rintro t f hash cell hf hrun htask hlent ⟨hact, hout⟩
  have hpoll : s.step (t, .poll r hash cell) =
      some ((s.setTask r { s.task r with lent := true, polled := true }).setAct t
        (.polling r)) := by
    simp [State.step, hf, State.atCall, hact, hout, hlent, State.poll, hrun]
  obtain ⟨s', hs', houtcome⟩ : ∃ s',
      ((s.setTask r { s.task r with lent := true, polled := true }).setAct t
        (.polling r)).step (t, .attempt true) = some s' ∧
      (s'.task r).outcome = some (.ofResult panicked) := by
    simp [State.step, State.setAct, State.setTask, hf, hout, State.pollTask, htask, he]
  refine ⟨s', ?_, houtcome⟩
  simp only [exec, machine, hpoll, hs', Option.bind_some]

omit [Fintype P] in
/-- Left to itself, the queue under the tasks is left to itself. -/
lemma queueOf_alone (hl : (observed q P R).Leads (alone Justified isGiven) x y) :
    (watched q P R).Leads (alone RetriesJustified AffinityPool.isGiven) (queueOf x)
      (queueOf y) := by
  refine hl.map queueOf ?_
  rintro u ⟨t, c⟩ u' ⟨hok, hgiven⟩ hstep
  rcases queueOf_step hstep with ⟨-, hsame⟩ | ⟨c', hsome, hb, -⟩
  · exact Or.inl hsame
  · refine Or.inr ⟨_, ⟨hok _ hsome, ?_⟩, hb⟩
    cases c with
    | queue c =>
      cases hsome
      exact hgiven
    | poll r hash cell => cases hgiven
    | _ => cases hsome

omit [Fintype P] in
/-- A pool left to itself keeps its calls and its cancellations, and closures that were entered. -/
lemma calls_of_alone (hl : (observed q P R).Leads (alone Justified isGiven) x y) :
    y.1.act = x.1.act ∧
      ∀ r, (y.1.task r).canceled = (x.1.task r).canceled ∧ (x.1.task r).ran ≤ (y.1.task r).ran := by
  induction hl with
  | refl => exact ⟨rfl, fun r => ⟨rfl, le_rfl⟩⟩
  | @tail u v a _ hok hstep ih =>
    obtain ⟨hstep, -⟩ := record_step.mp hstep
    obtain ⟨hact, hcanceled⟩ := (Move.of_step hstep).calls_eq hok.2
    refine ⟨hact.trans ih.1, fun r => ⟨(hcanceled r).trans (ih.2 r).1, ?_⟩⟩
    exact (ih.2 r).2.trans (Task.Advance.of_move (.of_step hstep) r).ran_le

/-- Where all threads rest and everything has been returned, every task has come to its end. -/
lemma ends_of_returned (hy : (machine q P R).Reachable y.1)
    (hl : (observed q P R).Leads (alone Justified isGiven) x y)
    (hrest : ∀ t, y.1.base.Resting t) (hr : r ∈ y.1.base.mem.returned) : Ends x.1 y.1 r := by
  obtain ⟨-, hcalls⟩ := calls_of_alone hl
  obtain ⟨hcanceled, hmore⟩ := hcalls r
  have htraced := Traced.of_reachable hy
  have hran := ((Sound.of_reachable hy).task r).ran
  have hover : (y.1.task r).exec.isOver = true := by
    refine (htraced.served r hr).resolve_right ?_
    rintro ⟨t, ht⟩
    rcases hrest t with hpc | hpc | hwait
    · rw [hpc] at ht
      cases ht
    · rw [hpc] at ht
      cases ht
    · rw [(Handshake.of_reachable (base_reachable hy)).waiting t hwait] at ht
      cases ht
  constructor
  · intro hskipped
    have hmachine : (machine q P R).Leads (fun _ _ => True) x.1 y.1 :=
      hl.map Prod.fst fun u a u' _ hstep => Or.inr ⟨a, trivial, (record_step.mp hstep).1⟩
    have hstill := hskipped.leads hmachine
    refine ⟨(hstill.exec_cases hy).resolve_left fun hidle => ?_, hstill.2⟩
    rw [hidle] at hover
    cases hover
  · intro hexecuted
    cases he : (y.1.task r).exec with
    | idle | running =>
      rw [he] at hover
      cases hover
    | finished p =>
      rw [he] at hran
      exact ⟨p, rfl, by simpa using hran, resolves_of_finished he⟩
    | dropped =>
      -- it was dropped because it was cancelled in time
      rw [he] at hran
      have hzero : (x.1.task r).ran = 0 := Nat.le_zero.mp (hmore.trans (by simpa using hran.le))
      exact absurd ⟨hcanceled ▸ htraced.dropped r hr he, hzero⟩ hexecuted

omit [Fintype P] in
/-- The logs add no behaviour to the pool. -/
lemma reachable_of_observed {ok : State q P R × (q.Worker → CallLog q) →
    Thread q P × Choice q P R → Prop} (h : (observed q P R).Reach ok x) :
    (machine q P R).Reachable x.1 := by
  unfold observed at h
  exact h.of_record

/-- What has become of the tasks where a pool that is not shut down has come to rest. -/
lemma ends_of_open (h : (observed q P R).Reach Justified x)
    (hfree : ∀ w, x.1.act (.inl w) = .free) (hopen : x.1.base.mem.shutdown = false)
    (hl : (observed q P R).Leads (alone Justified isGiven) x y)
    (hy : Settled (observed q P R) Justified isGiven y) :
    y.1.base.Quiescent ∧ ∀ r ∈ x.1.base.mem.pushed, Ends x.1 y.1 r := by
  have hreach := h.leads hl.of_alone
  have hlocal := reachable_of_observed hreach
  have hrest := resting_of_calls hreach hy fun w => by rw [(calls_of_alone hl).1, hfree w]
  obtain ⟨hpushed, hshut⟩ := history_of_alone (queueOf_alone hl)
  obtain ⟨hquiet, -, hperm⟩ := returned_of_resting (base_reachable hlocal) hrest
    (hshut.trans hopen)
  refine ⟨hquiet, fun r hr => ends_of_returned hlocal hl hrest ?_⟩
  exact hperm.subset (by rwa [show y.1.base.mem.pushed = _ from hpushed])

/-- **Every task comes to its end.**  From every state in which no worker is inside a call of
`poll` or `drop`, the pool left to itself comes to rest, after a number of steps bounded by its
work; and whichever steps it takes, unless it is shut down every scheduled task has then come to
its end. -/
theorem tasks_complete (h : (observed q P R).Reach Justified x)
    (hfree : ∀ w, x.1.act (.inl w) = .free) (hopen : x.1.base.mem.shutdown = false) :
    (∃ y, (observed q P R).Leads (alone Justified isGiven) x y ∧
      Settled (observed q P R) Justified isGiven y) ∧
    (∀ as y, (observed q P R).Meets (alone Justified isGiven) x as →
      (observed q P R).exec x as = some y → as.length ≤ taskWork x) ∧
    ∀ y, (observed q P R).Leads (alone Justified isGiven) x y →
      Settled (observed q P R) Justified isGiven y →
      y.1.base.Quiescent ∧ ∀ r ∈ x.1.base.mem.pushed, Ends x.1 y.1 r := by
  refine ⟨exists_settled taskWork_potential h, fun as y hm hexec => ?_, fun y hl hy => ?_⟩
  · exact exec_length_le_of_alone taskWork_potential h hm hexec
  · exact ends_of_open h hfree hopen hl hy

/-- A step of the queue in a step of the pool is such as ownership of the pool allows. -/
def OwnedCall (x : State q P R × (q.Worker → CallLog q)) (a : Thread q P × Choice q P R) : Prop :=
  ∀ b ∈ x.1.queueAction a, x.1.base.Owned b

instance (x : State q P R × (q.Worker → CallLog q)) (a : Thread q P × Choice q P R) :
    Decidable (OwnedCall x a) :=
  inferInstanceAs (Decidable (∀ b ∈ x.1.queueAction a, x.1.base.Owned b))

omit [Fintype P] in
/-- Ownership of the pool is ownership of its queue. -/
lemma owned_of_observed (h : (observed q P R).Reach OwnedCall x) :
    (AffinityPool.machine q P R).Reach AffinityPool.State.Owned x.1.base := by
  refine h.map (fun x => x.1.base) ?_ ?_
  · rintro ⟨s, l⟩ ⟨rfl, -⟩
    rfl
  · intro u a u' hok hstep
    rcases queueOf_step hstep with ⟨-, hsame⟩ | ⟨c, hsome, hb, -⟩
    · exact Or.inl (congrArg Prod.fst hsame)
    · exact Or.inr ⟨_, hok _ hsome, (record_step.mp hb).1⟩

omit [Fintype P] [DecidableEq P] [DecidableEq R] in
/-- Ownership allows a pool everything it does by itself. -/
lemma ownedCall_of_alone {a : Thread q P × Choice q P R} (ha : isGiven a = false) :
    OwnedCall x a := by
  obtain ⟨t, c⟩ := a
  rintro ⟨u, c'⟩ hb
  cases c with
  | queue c =>
    cases hb
    exact State.owned_of_not_stimulus ha
  | poll r hash cell => cases ha
  | _ => cases hb

/-- What has become of the tasks where a pool that is shut down has come to rest. -/
lemma ends_of_shut (h : (observed q P R).Reach (fun x a => Justified x a ∧ OwnedCall x a) x)
    (hfree : ∀ w, x.1.act (.inl w) = .free) (hset : x.1.base.mem.shutdown = true)
    (hl : (observed q P R).Leads (alone Justified isGiven) x y)
    (hy : Settled (observed q P R) Justified isGiven y) :
    (∀ w, y.1.base.pc (.inl w) = .finished) ∧ ∀ r ∈ x.1.base.mem.pushed, Ends x.1 y.1 r := by
  have hjustified : (observed q P R).Reach Justified x := h.mono fun _ _ hok => hok.1
  have hreach := hjustified.leads hl.of_alone
  have hlocal := reachable_of_observed hreach
  have hrest := resting_of_calls hreach hy fun w => by rw [(calls_of_alone hl).1, hfree w]
  obtain ⟨hpushed, hshut⟩ := history_of_alone (queueOf_alone hl)
  have hfinished := finished_of_resting (base_reachable hlocal) hrest (hshut.trans hset)
  have howned : (observed q P R).Reach OwnedCall y :=
    (h.mono fun _ _ hok => hok.2).leads (hl.mono fun _ _ hok => ownedCall_of_alone hok.2)
  obtain ⟨-, hperm⟩ := emptied_of_finished (owned_of_observed howned) hfinished
  refine ⟨hfinished, fun r hr => ends_of_returned hlocal hl hrest ?_⟩
  exact hperm.subset (by rwa [show y.1.base.mem.pushed = _ from hpushed])

/-- **Shutdown abandons no task.**  Suppose that shutdown is called when every foreign push has
returned, and that no worker is inside a call of `poll` or `drop`.  Left to itself after
that call, the pool comes to rest, and whichever steps it takes, then every worker has left and
every task scheduled before or after the call has come to its end. -/
theorem tasks_complete_on_shutdown
    (h : (observed q P R).Reach (fun x a => Justified x a ∧ OwnedCall x a) x)
    (hfree : ∀ w, x.1.act (.inl w) = .free) (hset : x.1.base.mem.shutdown = true) :
    (∃ y, (observed q P R).Leads (alone Justified isGiven) x y ∧
      Settled (observed q P R) Justified isGiven y) ∧
    ∀ y, (observed q P R).Leads (alone Justified isGiven) x y →
      Settled (observed q P R) Justified isGiven y →
      (∀ w, y.1.base.pc (.inl w) = .finished) ∧ ∀ r ∈ x.1.base.mem.pushed, Ends x.1 y.1 r := by
  have hjustified : (observed q P R).Reach Justified x := h.mono fun _ _ hok => hok.1
  refine ⟨exists_settled taskWork_potential hjustified, fun y hl hy => ?_⟩
  exact ends_of_shut h hfree hset hl hy

/-- What has become of the tasks where a pool has come to rest, shut down or not. -/
lemma ends_of_settled (h : (observed q P R).Reach (fun x a => Justified x a ∧ OwnedCall x a) x)
    (hfree : ∀ w, x.1.act (.inl w) = .free)
    (hl : (observed q P R).Leads (alone Justified isGiven) x y)
    (hy : Settled (observed q P R) Justified isGiven y) (hr : r ∈ x.1.base.mem.pushed) :
    Ends x.1 y.1 r := by
  cases hshut : x.1.base.mem.shutdown with
  | false => exact (ends_of_open (h.mono fun _ _ hok => hok.1) hfree hshut hl hy).2 r hr
  | true => exact (ends_of_shut h hfree hshut hl hy).2 r hr

end Runs

/-- Two tasks are scheduled and the second one is cancelled; a future is made, polled and
dropped halfway; no worker has started. -/
def callsRun : List (Thread duo Unit × Choice duo Unit ℕ) :=
  [(.inr (), .queue (.spawn 0 0 none))] ++ goes (.inr ()) 2 ++
    [(.inr (), .queue (.spawn 1 0 none))] ++ goes (.inr ()) 2 ++
    [(.inr (), .cancel 1), (.inr (), .create 2), (.inr (), .poll 2 0 none)] ++ goes (.inr ()) 2 ++
    [(.inr (), .attempt false)]

/-- The state after `callsRun`. -/
def called : State duo Unit ℕ × (duo.Worker → CallLog duo) :=
  (observed duo Unit ℕ).final (.start duo Unit ℕ, fun _ => .fresh) callsRun (by decide)

lemma called_reached : (observed duo Unit ℕ).Reach (fun x a => Justified x a ∧ OwnedCall x a)
    called := by
  have hinit : (observed duo Unit ℕ).init (.start duo Unit ℕ, fun _ => .fresh) := ⟨rfl, rfl⟩
  exact .final hinit (by decide) _

/-- Left to itself that pool executes the other two tasks. -/
theorem tasks_complete_called :
    called.1.base.mem.returned = [] ∧ called.1.base.mem.pushed = [0, 1, 2] ∧
      (∃ y, (observed duo Unit ℕ).Leads (alone Justified isGiven) called y ∧
        Settled (observed duo Unit ℕ) Justified isGiven y) ∧
      ∀ y, (observed duo Unit ℕ).Leads (alone Justified isGiven) called y →
        Settled (observed duo Unit ℕ) Justified isGiven y →
        (y.1.task 0).ran = 1 ∧ (y.1.task 1).exec = .dropped ∧ (y.1.task 2).ran = 1 := by
  have hreach := called_reached.mono fun _ _ hok => hok.1
  obtain ⟨hexists, -, hends⟩ := tasks_complete hreach (by decide) (by decide)
  refine ⟨by decide, by decide, hexists, fun y hl hy => ?_⟩
  obtain ⟨-, htasks⟩ := hends y hl hy
  obtain ⟨-, -, hzero, -⟩ := (htasks 0 (by decide)).executed (by decide)
  obtain ⟨-, -, htwo, -⟩ := (htasks 2 (by decide)).executed (by decide)
  exact ⟨hzero, ((htasks 1 (by decide)).skipped (by decide)).1, htwo⟩

/-- The same pool when it is shut down. -/
def closedEarly : State duo Unit ℕ × (duo.Worker → CallLog duo) :=
  (observed duo Unit ℕ).final called [(.inr (), .queue .close)] (by decide)

/-- Its workers still execute the two tasks, and leave. -/
theorem tasks_complete_on_shutdown_called :
    closedEarly.1.base.mem.shutdown = true ∧
      ∀ y, (observed duo Unit ℕ).Leads (alone Justified isGiven) closedEarly y →
        Settled (observed duo Unit ℕ) Justified isGiven y →
        (∀ w, y.1.base.pc (.inl w) = .finished) ∧ (y.1.task 0).ran = 1 ∧
          (y.1.task 1).exec = .dropped ∧ (y.1.task 2).ran = 1 := by
  have hreach : (observed duo Unit ℕ).Reach (fun x a => Justified x a ∧ OwnedCall x a)
      closedEarly := called_reached.leads (.of_exec (by decide) (exec_final _ _ _))
  obtain ⟨-, hends⟩ := tasks_complete_on_shutdown hreach (by decide) (by decide)
  refine ⟨by decide, fun y hl hy => ?_⟩
  obtain ⟨hfinished, htasks⟩ := hends y hl hy
  obtain ⟨-, -, hzero, -⟩ := (htasks 0 (by decide)).executed (by decide)
  obtain ⟨-, -, htwo, -⟩ := (htasks 2 (by decide)).executed (by decide)
  exact ⟨hfinished, hzero, ((htasks 1 (by decide)).skipped (by decide)).1, htwo⟩

end Local

end AffinityPool
