import AffinityPool.Local.SpawnFuture
import AffinityPool.Queue.Delivery

/-!
# The drop-blocking contract

The closure of a `SpawnFuture` may borrow from its caller, so nothing may touch it once
`poll` has resolved or `drop` has returned.  The invariant `Sound` ties the three sides of a
task together: what the handle says, what has become of the future inside, and where the
queue has its runnable.  From it, a task whose owner has seen an outcome is over
(`Quiet`), and no later step executes it (`drop_blocking`).
-/

namespace AffinityPool

open Transition System

variable {q : Shape} {P R : Type}

/-! ## The history of returns -/

/-- The runnable a caller of the queue is running. -/
def Caller.callee : Caller R → Option R
  | .foreign => none
  | .running r => some r

/-- The runnable a worker is running, wherever it is inside `Runnable::run`. -/
def Pc.callee : Pc q R → Option R
  | .out k | .push k _ _ | .close k _ => k.callee
  | _ => none

section Step

variable [DecidableEq P] {t : Thread q P} {c : Choice q P R} {m m' : Mem q P R} {pc pc' : Pc q R}

/-- The history of returns only grows. -/
lemma Move.returned_subset (hm : Move t c m pc m' pc') : m.returned ⊆ m'.returned := by
  cases hm
  case cheapFound w o round sc st r ht ho h | giveBack r => exact List.subset_append_left _ _
  all_goals exact List.Subset.refl _

/-- A worker runs what it was running before, or what `pop_blocking` has just returned. -/
lemma Move.callee_cases (hm : Move t c m pc m' pc') {r : R} (hr : pc'.callee = some r) :
    pc.callee = some r ∨ r ∈ m'.returned := by
  cases hm
  case cheapFound w o round sc st x ht ho h | giveBack x =>
    cases hr
    exact Or.inr (List.mem_append_right _ (List.mem_singleton_self _))
  all_goals first | exact Or.inl hr | cases hr

/-- The history of pushes changes by a choice to push. -/
lemma Move.pushed_eq (hm : Move t c m pc m' pc') :
    m'.pushed = m.pushed ∨
      ∃ r hash cell, c = .spawn r hash cell ∧ r ∉ m.pushed ∧ m'.pushed = m.pushed ++ [r] := by
  cases hm
  case spawn k x hash cell hc hx hown hfor => exact Or.inr ⟨x.item, hash, cell, hc, hx, rfl⟩
  all_goals exact Or.inl rfl

end Step

/-- What a worker runs was returned by `pop_blocking`. -/
def State.Callees (s : State q P R) : Prop :=
  ∀ t r, (s.pc t).callee = some r → r ∈ s.mem.returned

theorem State.Callees.of_reachable [DecidableEq P] [DecidableEq R] {s : State q P R}
    (h : (machine q P R).Reachable s) : s.Callees := by
  refine h.invariant ?_ ?_
  · rintro _ rfl (w | p) r hr
    · cases hr
    · cases hr
  · intro s a s' _ hs _ hstep t r hr
    obtain ⟨m, pc, hm, rfl⟩ := State.step_cases hstep
    have hold : (s.pc t).callee = some r → r ∈ m.returned := fun h =>
      hm.returned_subset (hs t r h)
    by_cases ht : t = a.1
    · subst ht
      simp only [Function.update_self] at hr
      rcases hm.callee_cases hr with hr | hr
      · exact hold hr
      · exact hr
    · simp only [Function.update_of_ne ht] at hr
      exact hold hr

/-- Only pushed runnables are returned. -/
lemma Storage.returned_subset [Fintype P] {s : State q P R} (hs : Storage s) {r : R}
    (hr : r ∈ s.mem.returned) : r ∈ s.mem.pushed := by
  have hmem : r ∈ (s.mem.pushed : Multiset R) := by
    rw [hs.conserved, add_assoc]
    exact Multiset.mem_add.mpr (Or.inl hr)
  exact hmem

/-- A runnable that was returned or never pushed is neither stored nor in hand. -/
lemma Storage.absent [Fintype P] [DecidableEq R] {s : State q P R} (hs : Storage s) {r : R}
    (hr : r ∈ s.mem.returned ∨ r ∉ s.mem.pushed) :
    (∀ v, r ∉ s.mem.store.queue v) ∧ ∀ t, r ∉ (s.pc t).inHand := by
  have hcount := congrArg (Multiset.count r) hs.conserved
  simp only [Multiset.count_add, Multiset.coe_count] at hcount
  have hzero : Multiset.count r s.mem.store.items = 0 ∧
      Multiset.count r (tally Pc.inHand s.pc) = 0 := by
    rcases hr with hr | hr
    · have hone := List.nodup_iff_count_le_one.mp hs.nodup r
      have hpos := List.count_pos_iff.mpr hr
      omega
    · have hnone := List.count_eq_zero.mpr hr
      omega
  constructor
  · intro v hv
    exact Multiset.count_eq_zero.mp hzero.1 (Store.mem_items.mpr ⟨v, hv⟩)
  · intro t ht
    refine Multiset.count_eq_zero.mp hzero.2 ?_
    exact Multiset.mem_sum.mpr ⟨t, Finset.mem_univ t, ht⟩

namespace Local

/-! ## The invariant -/

/-- The handle is past the point of no return of the destructor. -/
def Handle.isEnded : Handle → Bool
  | .closing | .gone => true
  | _ => false

/-- A task agrees with the histories of the queue. -/
structure Task.Sound (pushed returned : List R) (r : R) (j : Task) : Prop where
  unborn : j.handle = .unborn → r ∉ pushed
  fresh : ∀ f, j.handle = .future f → f.runnable = true → r ∉ pushed ∧ f.task = true
  scheduled : ∀ f, j.handle = .future f → f.runnable = false → r ∈ pushed
  resolved : ∀ f, j.handle = .future f → f.runnable = false → f.task = false → j.outcome ≠ none
  gone : j.handle = .gone → j.outcome ≠ none
  polled : j.handle ≠ .join → r ∈ pushed → j.polled = true
  settled : j.outcome ≠ none → j.exec.isOver = true
  started : j.exec ≠ .idle → r ∈ returned ∨ (j.handle = .gone ∧ r ∉ pushed)
  ran : j.ran = if j.exec = .idle ∨ j.exec = .dropped then 0 else 1

/-- Every task is sound, and a thread inside `block_on_cancel` cancels a scheduled task. -/
structure Sound (s : State q P R) : Prop where
  task : ∀ r, (s.task r).Sound s.base.mem.pushed s.base.mem.returned r
  cancelling : ∀ t r parked, s.act t = .cancelling r parked →
    (s.task r).handle.isEnded = true ∧ r ∈ s.base.mem.pushed

/-! ## Steps -/

section Step

variable {s : State q P R} {t : Thread q P} {r : R} {j : Task} {b : AffinityPool.State q P R}

/-- Soundness of a task depends on what became of its own runnable only. -/
lemma Task.Sound.mono {pushed pushed' returned returned' : List R}
    (h : j.Sound pushed returned r) (hp : r ∈ pushed' ↔ r ∈ pushed)
    (hr : returned ⊆ returned') : j.Sound pushed' returned' r := by
  refine ⟨fun hu => ?_, fun f hf ht => ?_, fun f hf ht => ?_, h.resolved, h.gone, fun hj hm => ?_,
    h.settled, fun he => ?_, h.ran⟩
  · rw [hp]
    exact h.unborn hu
  · rw [hp]
    exact h.fresh f hf ht
  · rw [hp]
    exact h.scheduled f hf ht
  · exact h.polled hj (hp.mp hm)
  · rw [hp]
    exact (h.started he).imp_left fun hmem => hr hmem

/-- Without a finished destructor, only a returned runnable has been taken up. -/
lemma Task.Sound.mem_returned {pushed returned : List R} (h : j.Sound pushed returned r)
    (hgone : j.handle ≠ .gone) (he : j.exec ≠ .idle) : r ∈ returned :=
  (h.started he).resolve_right fun hg => hgone hg.1

lemma Sound.setTask [DecidableEq R] (h : Sound s)
    (hj : j.Sound s.base.mem.pushed s.base.mem.returned r)
    (hended : (s.task r).handle.isEnded = true → j.handle.isEnded = true) :
    Sound (s.setTask r j) := by
  have htask : ∀ r', ((s.setTask r j).task r') = if r' = r then j else s.task r' :=
    fun r' => Function.update_apply _ _ _ _
  constructor
  · intro r'
    rw [htask]
    split
    · subst r'
      exact hj
    · exact h.task r'
  · intro u r' parked hact
    obtain ⟨hold, hmem⟩ := h.cancelling u r' parked hact
    refine ⟨?_, hmem⟩
    rw [htask]
    split
    · subst r'
      exact hended hold
    · exact hold

lemma Sound.setAct [DecidableEq P] (h : Sound s) {a : Act R}
    (ha : ∀ r parked, a = .cancelling r parked →
      (s.task r).handle.isEnded = true ∧ r ∈ s.base.mem.pushed) : Sound (s.setAct t a) := by
  refine ⟨h.task, fun u r' parked hact => ?_⟩
  rcases update_cases hact with ⟨-, hself⟩ | ⟨-, hold⟩
  · exact ha r' parked hself
  · exact h.cancelling u r' parked hold

variable [DecidableEq P] [DecidableEq R]

/-- A step of the queue that pushes nothing. -/
lemma Sound.queue (h : Sound s) {c : AffinityPool.Choice q P R}
    (hc : ∀ r hash cell, c ≠ .spawn r hash cell) (hb : s.base.step (t, c) = some b) :
    Sound { s with base := b } := by
  obtain ⟨m, pc, hm, rfl⟩ := AffinityPool.State.step_cases hb
  have hpushed : m.pushed = s.base.mem.pushed := by
    rcases hm.pushed_eq with heq | ⟨r, hash, cell, heq, -⟩
    · exact heq
    · exact absurd heq (hc r hash cell)
  constructor
  · intro r'
    exact (h.task r').mono (by rw [hpushed]) hm.returned_subset
  · intro u r' parked hact
    dsimp only
    rw [hpushed]
    exact h.cancelling u r' parked hact

/-- A step of the queue that pushes the runnable of a task, with what the call makes of it. -/
lemma Sound.push (h : Sound s) {hash : ℕ} {cell : Option ProducerRoute}
    (hb : s.base.step (t, .spawn r hash cell) = some b)
    (hj : r ∈ b.mem.pushed → s.base.mem.returned ⊆ b.mem.returned →
      j.Sound b.mem.pushed b.mem.returned r)
    (hended : (s.task r).handle.isEnded = true → j.handle.isEnded = true) :
    Sound ({ s with base := b }.setTask r j) := by
  obtain ⟨⟨m, pc⟩, hmove, rfl⟩ := Option.map_eq_some_iff.mp hb
  have hm := AffinityPool.Move.of_move hmove
  have hpushed : m.pushed = s.base.mem.pushed ++ [r] := by
    obtain ⟨k, -, -, rfl, -⟩ := move_spawn hmove
    rfl
  have hmem : r ∈ m.pushed := by
    rw [hpushed]
    exact List.mem_append_right _ (List.mem_singleton_self r)
  have htask : ∀ r', (Function.update s.task r j r') = if r' = r then j else s.task r' :=
    fun r' => Function.update_apply _ _ _ _
  constructor
  · intro r'
    simp only [State.setTask]
    rw [htask]
    split
    · subst r'
      exact hj hmem hm.returned_subset
    · have hne : r' ≠ r := ‹_›
      refine (h.task r').mono ?_ hm.returned_subset
      rw [hpushed, List.mem_append, List.mem_singleton]
      simp [hne]
  · intro u r' parked hact
    obtain ⟨hold, hmem⟩ := h.cancelling u r' parked hact
    refine ⟨?_, hm.pushed_subset hmem⟩
    simp only [State.setTask]
    rw [htask]
    split
    · subst r'
      exact hended hold
    · exact hold

/-- **Step lemma.**  A step keeps the tasks sound. -/
theorem Sound.step [Fintype P] {c : Choice q P R} {s' : State q P R} (h : Sound s)
    (hs : Storage s.base) (hcallee : s.base.Callees) (hm : Move s t c s') : Sound s' := by
  have htaken : ∀ r, held (s.base.pc t) = some r → r ∈ s.base.mem.returned := by
    intro r hr
    refine hcallee t r ?_
    cases hpc : s.base.pc t with
    | out k => cases k <;> rw [hpc] at hr <;> cases hr; rfl
    | _ => rw [hpc] at hr; cases hr
  have hidle : ∀ r, (s.task r).exec = .idle → (s.task r).ran = 0 := by
    intro r he
    rw [(h.task r).ran, he]
    rfl
  cases hm
  case queue c' b hc hallows hb => exact h.queue hc hb
  case spawn r hash cell b hfree hu hb =>
    have hr := h.task r
    refine h.push hb (fun _ hret => ?_) (by rw [hu]; nofun)
    exact
      { unborn := nofun, fresh := nofun, scheduled := nofun, resolved := nofun, gone := nofun
        polled := fun hj => absurd rfl hj
        settled := hr.settled
        started := fun he => Or.inl (hret (hr.mem_returned (by rw [hu]; nofun) he))
        ran := hr.ran }
  case create r hcall hu =>
    have hr := h.task r
    refine h.setTask ?_ (by rw [hu]; nofun)
    exact
      { unborn := nofun
        fresh := by rintro _ ⟨⟩ -; exact ⟨hr.unborn hu, rfl⟩
        scheduled := by rintro _ ⟨⟩ ⟨⟩
        resolved := by rintro _ ⟨⟩ ⟨⟩
        gone := nofun
        polled := fun _ hmem => absurd hmem (hr.unborn hu)
        settled := hr.settled
        started := fun he => Or.inl (hr.mem_returned (by rw [hu]; nofun) he)
        ran := hr.ran }
  case schedule r f hash cell b hcall hf hrun hb =>
    have hr := h.task r
    refine (h.push hb (fun hmem hret => ?_) (by rw [hf]; nofun)).setAct nofun
    exact
      { unborn := nofun
        fresh := by rintro _ ⟨⟩ ⟨⟩
        scheduled := fun _ _ _ => hmem
        resolved := by
          rintro _ ⟨⟩ - htask
          rw [(hr.fresh f hf hrun).2] at htask
          cases htask
        gone := nofun
        polled := fun _ _ => rfl
        settled := hr.settled
        started := fun he => Or.inl (hret (hr.mem_returned (by rw [hf]; nofun) he))
        ran := hr.ran }
  case poll r f hash cell hcall hf hrun =>
    refine (h.setTask ?_ ?_).setAct nofun
    · exact { h.task r with polled := fun _ _ => rfl }
    · exact id
  case ready r f panicked ha hout hf htask he =>
    have hr := h.task r
    have hmem : r ∈ s.base.mem.pushed :=
      hs.returned_subset (hr.mem_returned (by rw [hf]; nofun) (by rw [he]; nofun))
    refine (h.setTask ?_ (by rw [hf]; nofun)).setAct nofun
    exact
      { unborn := nofun
        fresh := by
          rintro _ ⟨⟩ hrun
          exact absurd hmem (hr.fresh f hf hrun).1
        scheduled := fun _ _ _ => hmem
        resolved := fun _ _ _ _ => nofun
        gone := nofun
        polled := fun _ => hr.polled (by rw [hf]; nofun)
        settled := fun _ => by dsimp only; rw [he]; rfl
        started := fun he' => Or.inl (hr.mem_returned (by rw [hf]; nofun) he')
        ran := hr.ran }
  case pending r f ha hout hf =>
    refine (h.setTask ?_ ?_).setAct nofun
    · exact { h.task r with }
    · exact id
  case discard r f hcall hf hrun =>
    have hr := h.task r
    have hnew := (hr.fresh f hf hrun).1
    have he : (s.task r).exec = .idle := by
      by_contra hne
      exact hnew (hs.returned_subset (hr.mem_returned (by rw [hf]; nofun) hne))
    refine h.setTask ?_ fun _ => rfl
    exact
      { unborn := nofun, fresh := nofun, scheduled := nofun, resolved := nofun
        gone := fun _ => nofun
        polled := fun _ hmem => absurd hmem hnew
        settled := fun _ => rfl
        started := fun _ => Or.inr ⟨rfl, hnew⟩
        ran := hidle r he }
  case close r f hcall hf hrun htask =>
    have hr := h.task r
    refine (h.setTask ?_ fun _ => rfl).setAct ?_
    · exact
        { unborn := nofun, fresh := nofun, scheduled := nofun, resolved := nofun, gone := nofun
          polled := fun _ => hr.polled (by rw [hf]; nofun)
          settled := hr.settled
          started := fun he => Or.inl (hr.mem_returned (by rw [hf]; nofun) he)
          ran := hr.ran }
    · rintro _ _ ⟨⟩
      refine ⟨?_, hr.scheduled f hf hrun⟩
      simp [State.setTask, Handle.isEnded]
  case forget r f hcall hf hrun htask =>
    have hr := h.task r
    refine h.setTask ?_ fun _ => rfl
    exact
      { unborn := nofun, fresh := nofun, scheduled := nofun, resolved := nofun
        gone := fun _ => hr.resolved f hf hrun htask
        polled := fun _ => hr.polled (by rw [hf]; nofun)
        settled := hr.settled
        started := fun he => Or.inl (hr.mem_returned (by rw [hf]; nofun) he)
        ran := hr.ran }
  case stopped r ha he =>
    have hr := h.task r
    have hended := (h.cancelling t r false ha).1
    refine (h.setTask ?_ fun _ => rfl).setAct nofun
    exact
      { unborn := nofun, fresh := nofun, scheduled := nofun, resolved := nofun
        gone := fun _ => nofun
        polled := fun _ => hr.polled fun hj => by rw [hj] at hended; cases hended
        settled := fun _ => he
        started := fun he' => (hr.started he').imp_right fun hg => ⟨rfl, hg.2⟩
        ran := hr.ran }
  case park r ha | unpark r ha =>
    refine h.setAct ?_
    rintro _ _ ⟨⟩
    exact h.cancelling t r _ ha
  case cancel r hcall hj =>
    refine h.setTask ?_ id
    exact { h.task r with }
  case skip r hfree hheld he hc =>
    refine h.setTask ?_ id
    exact
      { h.task r with
        settled := fun _ => rfl
        started := fun _ => Or.inl (htaken r hheld)
        ran := hidle r he }
  case enter r hfree hheld he hc =>
    refine h.setTask ?_ id
    exact
      { h.task r with
        settled := fun ho => by
          have hover := (h.task r).settled ho
          rw [he] at hover
          cases hover
        started := fun _ => Or.inl (htaken r hheld)
        ran := by
          dsimp only
          rw [hidle r he]
          rfl }
  case finish r panicked hfree hheld he =>
    refine h.setTask ?_ id
    exact
      { h.task r with
        settled := fun _ => rfl
        started := fun _ => (h.task r).started (by rw [he]; nofun)
        ran := by
          dsimp only
          rw [(h.task r).ran, he]
          rfl }

end Step

/-! ## Tasks that are over -/

/-- Nothing touches the closure of `r`: it is over, and its runnable is in no queue and in no
worker's hand on the way out of `pop_blocking`.  The worker that ran it may still be on its way
back from `Runnable::run`. -/
structure Quiet (s : State q P R) (r : R) : Prop where
  settled : (s.task r).exec.isOver = true
  unqueued : ∀ v, r ∉ s.base.mem.store.queue v
  unheld : ∀ t, r ∉ (s.base.pc t).inHand

/-- A task that is over is quiet. -/
lemma Sound.quiet [Fintype P] [DecidableEq R] {s : State q P R} (h : Sound s)
    (hs : Storage s.base) {r : R} (hover : (s.task r).exec.isOver = true) : Quiet s r := by
  have hne : (s.task r).exec ≠ .idle := by
    intro he
    rw [he] at hover
    cases hover
  have habsent := hs.absent (((h.task r).started hne).imp_right And.right)
  exact ⟨hover, habsent.1, habsent.2⟩

/-- A task that does not exist has not been executed. -/
lemma Sound.idle_of_unborn [Fintype P] {s : State q P R} (h : Sound s) (hs : Storage s.base)
    {r : R} (hr : (s.task r).handle = .unborn) : (s.task r).exec = .idle := by
  by_contra hne
  have hreturned := (h.task r).mem_returned (by rw [hr]; simp) hne
  exact (h.task r).unborn hr (hs.returned_subset hreturned)

/-- A future that was not scheduled has not been executed. -/
lemma Sound.idle_of_runnable [Fintype P] {s : State q P R} (h : Sound s) (hs : Storage s.base)
    {r : R} {f : SpawnFuture} (hf : (s.task r).handle = .future f) (hr : f.runnable = true) :
    (s.task r).exec = .idle := by
  by_contra hne
  have hreturned := (h.task r).mem_returned (by rw [hf]; simp) hne
  exact ((h.task r).fresh f hf hr).1 (hs.returned_subset hreturned)

/-- A task that is over stays so and is not entered again. -/
lemma Move.settled [DecidableEq P] [DecidableEq R] {t : Thread q P} {c : Choice q P R}
    {s s' : State q P R} (hm : Move s t c s') {r : R} (hover : (s.task r).exec.isOver = true) :
    (s'.task r).exec.isOver = true ∧ (s'.task r).ran = (s.task r).ran := by
  have hset : ∀ (x : R) (j : Task), (x = r → j.exec.isOver = true ∧ j.ran = (s.task x).ran) →
      (Function.update s.task x j r).exec.isOver = true ∧
        (Function.update s.task x j r).ran = (s.task r).ran := by
    intro x j hj
    by_cases hx : x = r
    · subst hx
      rw [Function.update_self]
      exact hj rfl
    · rw [Function.update_of_ne (Ne.symm hx)]
      exact ⟨hover, rfl⟩
  have hne : ∀ x, (s.task x).exec.isOver = false → x ≠ r := by
    rintro x hx rfl
    rw [hover] at hx
    cases hx
  cases hm
  case queue | park | unpark => exact ⟨hover, rfl⟩
  case discard | skip => exact hset _ _ fun _ => ⟨rfl, rfl⟩
  case enter x hfree hheld he hc => exact hset x _ fun hx => absurd hx (hne x (by rw [he]; rfl))
  case finish => exact hset _ _ fun _ => ⟨rfl, rfl⟩
  all_goals
    refine hset _ _ ?_
    rintro rfl
    exact ⟨hover, rfl⟩

/-! ## Runs -/

section Runs

variable [DecidableEq P] [DecidableEq R] {s : State q P R}

/-- The queue under the futures takes steps of its own only. -/
theorem base_reachable (h : (machine q P R).Reachable s) :
    (AffinityPool.machine q P R).Reachable s.base := by
  refine h.map State.base ?_ ?_
  · rintro _ rfl
    rfl
  · intro s a s' hstep
    rcases (Move.of_step hstep).base_eq with hb | ⟨c, hb⟩
    · exact Or.inl hb
    · exact Or.inr ⟨_, hb⟩

/-- Every task is sound in every run. -/
theorem Sound.of_reachable [Fintype P] (h : (machine q P R).Reachable s) : Sound s := by
  refine h.invariant ?_ ?_
  · rintro _ rfl
    constructor
    · intro r
      exact
        { unborn := fun _ => List.not_mem_nil
          fresh := nofun, scheduled := nofun, resolved := nofun, gone := nofun
          polled := fun _ hmem => absurd hmem List.not_mem_nil
          settled := fun ho => absurd rfl ho
          started := fun he => absurd rfl he
          ran := rfl }
    · intro t r parked hact
      cases hact
  · intro s a s' hr hs _ hstep
    have hbase := base_reachable hr
    exact hs.step (.of_reachable hbase) (.of_reachable hbase) (.of_step hstep)

/-- **Drop-blocking safety.**  A runnable is pushed at most once, and by a future only when it
was polled; its closure is entered at most once; and once the owner of the future has seen its
end, the closure is over, its runnable is nowhere, and this stays so in every further run. -/
theorem drop_blocking [Fintype P] (h : (machine q P R).Reachable s) (r : R) :
    s.base.mem.pushed.count r ≤ 1 ∧
      ((s.task r).handle ≠ .join → r ∈ s.base.mem.pushed → (s.task r).polled = true) ∧
      (s.task r).ran ≤ 1 ∧
      ((s.task r).handle = .gone → (s.task r).outcome ≠ none) ∧
      ((s.task r).outcome ≠ none → ∀ s', (machine q P R).Leads (fun _ _ => True) s s' →
        Quiet s' r ∧ (s'.task r).ran = (s.task r).ran) := by
  have hsound := (Sound.of_reachable h).task r
  have hstorage := Storage.of_reachable (base_reachable h)
  refine ⟨List.nodup_iff_count_le_one.mp hstorage.nodup r, hsound.polled, ?_, hsound.gone, ?_⟩
  · rw [hsound.ran]
    split <;> omega
  · intro ho s' hl
    have hstep : ∀ u a u', (machine q P R).Reachable u →
        ((u.task r).exec.isOver = true ∧ (u.task r).ran = (s.task r).ran) → True →
        (machine q P R).step u a = some u' →
        (u'.task r).exec.isOver = true ∧ (u'.task r).ran = (s.task r).ran := by
      intro u a u' _ hu _ hs
      have hover := (Move.of_step hs).settled hu.1
      exact ⟨hover.1, hover.2.trans hu.2⟩
    have hover := hl.stable h hstep ⟨hsound.settled ho, rfl⟩
    have hreach := h.leads hl
    exact ⟨(Sound.of_reachable hreach).quiet (.of_reachable (base_reachable hreach)) hover.1,
      hover.2⟩

end Runs

/-- A foreign thread polls a future once and drops it while the worker runs its closure, which
then panics. -/
def lentRun : List (Thread solo Unit × Choice solo Unit ℕ) :=
  [(.inr (), .create 0), (.inr (), .poll 0 0 none)] ++ goes (.inr ()) 2 ++
    [(.inr (), .attempt false)] ++ goes solo.worker 3 ++
    [(solo.worker, .queue (.steal (.batch 1))), (solo.worker, .begin), (.inr (), .drop 0),
      (.inr (), .attempt false), (solo.worker, .finish true), (.inr (), .unpark),
      (.inr (), .attempt true)]

/-- The state after `lentRun`. -/
def outlived : State solo Unit ℕ :=
  (machine solo Unit ℕ).final (.start solo Unit ℕ) lentRun (by decide)

/-- The closure ran once and is over. -/
theorem drop_blocking_outlived :
    (outlived.task 0).handle = .gone ∧ (outlived.task 0).ran = 1 ∧ Quiet outlived 0 := by
  have hblocking := drop_blocking (.final rfl _ : (machine solo Unit ℕ).Reachable outlived) 0
  have hgone : (outlived.task 0).handle = .gone := by decide
  exact ⟨hgone, by decide, (hblocking.2.2.2.2 (hblocking.2.2.2.1 hgone) outlived .refl).1⟩

end Local

end AffinityPool
