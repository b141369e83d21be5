import AffinityPool.Pool.Recovery
import AffinityPool.Queue.Settling

/-!
# The drop of a pool, end to end

The machine of this file puts the threads of a pool and its queue together.  A worker thread
leaves its loop when its `pop_blocking` has returned `None`, and `Threadpool::drop` shuts the
queue down by the steps of `Queue::shutdown`.  What each of the two machines takes for
granted of the other is a consequence here: the threads find the flag set when they leave, and no
foreign push is under way when the flag is set, since pushes borrow the pool that is being
dropped.

Closures that panic do not unwind a worker, which catches the panic; so no worker is replaced
here.

When the last owner is released outside the pool, the drop comes to its end, and then all
threads have terminated and every runnable ever pushed has been returned (`drop_completes`).
-/

namespace AffinityPool

namespace Teardown

open Transition System

variable {q : Shape} {P R : Type}

/-- The number of a worker among the threads of its pool. -/
def number : Thread q P → Option ℕ
  | .inl w => some w.val
  | .inr _ => none

/-- The thread is in code of the caller. -/
def isOut : Pc q R → Bool
  | .out _ => true
  | _ => false

/-- A state: the queue with the logs of its calls, the threads, and the thread that has released the
last owner. -/
structure State (q : Shape) (P R : Type) where
  queue : AffinityPool.State q P R × (q.Worker → CallLog q)
  life : Lifecycle.State
  owner : Option (Thread q P)

/-- The steps of a pool. -/
inductive Action (q : Shape) (P R : Type)
  /-- A step of the queue; `Queue::shutdown` is called by `Threadpool::drop` only. -/
  | queue (t : Thread q P) (c : Choice q P R)
  /-- The last owner is released. -/
  | begin (t : Thread q P)
  /-- `Threadpool::drop` calls `Queue::shutdown`. -/
  | close
  /-- The next step of `Threadpool::drop` after this call. -/
  | drop
  /-- The worker leaves its loop. -/
  | exit (w : q.Worker)
  /-- The worker thread terminates. -/
  | terminate (w : q.Worker)
  deriving DecidableEq

/-- What the surroundings decide. -/
def Action.isGiven : Action q P R → Bool
  | .queue _ c => c.isStimulus
  | .begin _ => true
  | _ => false

/-- The step is one of the queue alone. -/
def Action.inQueue : Action q P R → Bool
  | .queue _ _ => true
  | _ => false

namespace State

/-- The thread is executing `Threadpool::drop`, outside `Queue::shutdown`. -/
def dropping (s : State q P R) (t : Thread q P) : Prop :=
  s.owner = some t ∧ s.life.dropper ≠ .released ∧ isOut (s.queue.1.pc t) = true

/-- The thread is free to take this step of the queue: it does not execute the drop, and a foreign
push borrows a pool that is owned. -/
def allows (s : State q P R) (t : Thread q P) (c : Choice q P R) : Prop :=
  c ≠ .close ∧ ¬ s.dropping t ∧ (t.isRight = true → c.isSpawn = true → s.life.dropper = .idle)

variable [DecidableEq P] [DecidableEq R]

instance (s : State q P R) (t : Thread q P) : Decidable (s.dropping t) :=
  inferInstanceAs (Decidable (_ ∧ _ ∧ _))

instance (s : State q P R) (t : Thread q P) (c : Choice q P R) : Decidable (s.allows t c) :=
  inferInstanceAs (Decidable (_ ∧ _ ∧ _))

variable [Fintype P]

/-- One step. -/
def step (s : State q P R) : Action q P R → Option (State q P R)
  | .queue t c =>
    if s.allows t c then ((watched q P R).step s.queue (t, c)).map fun x => { s with queue := x }
    else none
  | .begin t =>
    if isOut (s.queue.1.pc t) = true ∧ ∀ p, (s.queue.1.pc (.inr p)).isPush = false then
      (s.life.step (.begin (number t))).map fun l => { s with life := l, owner := some t }
    else none
  | .close =>
    match s.owner, s.life.dropper with
    | some t, .begun _ =>
      ((watched q P R).step s.queue (t, .close)).bind fun x =>
        (s.life.step .drop).map fun l => { s with queue := x, life := l }
    | _, _ => none
  | .drop =>
    match s.owner, s.life.dropper with
    | _, .begun _ => none
    | some t, _ =>
      if isOut (s.queue.1.pc t) then (s.life.step .drop).map fun l => { s with life := l } else none
    | none, _ => none
  | .exit w =>
    if s.queue.1.pc (.inl w) = .finished then
      (s.life.step (.exit w.val)).map fun l => { s with life := l }
    else none
  | .terminate w => (s.life.step (.advance w.val)).map fun l => { s with life := l }

end State

/-- A new pool. -/
def State.start (q : Shape) (P R : Type) : State q P R where
  queue := (.start q P R, fun _ => .fresh)
  life := .start q.numWorkers
  owner := none

/-- The pool as a transition system. -/
def machine (q : Shape) (P R : Type) [Fintype P] [DecidableEq P] [DecidableEq R] :
    System (State q P R) (Action q P R) where
  init s := s = State.start q P R
  step := State.step

/-- Steals report `Retry` only after a change of their victim. -/
def Justified (s : State q P R) : Action q P R → Prop
  | .queue t c => RetriesJustified s.queue (t, c)
  | _ => True

instance [DecidableEq P] [DecidableEq R] (s : State q P R) :
    ∀ a : Action q P R, Decidable (Justified s a)
  | .queue t c => inferInstanceAs (Decidable (RetriesJustified s.queue (t, c)))
  | .begin _ | .close | .drop | .exit _ | .terminate _ => inferInstanceAs (Decidable True)

/-! ## What one step can do -/

section Moves

variable [Fintype P] [DecidableEq P] [DecidableEq R] {s s' : State q P R} {a : Action q P R}

/-- The steps, with what each of them has found. -/
inductive Move (s : State q P R) : Action q P R → State q P R → Prop
  | queue {t : Thread q P} {c : Choice q P R}
      {x : AffinityPool.State q P R × (q.Worker → CallLog q)} (hc : s.allows t c)
      (hx : (watched q P R).step s.queue (t, c) = some x) :
    Move s (.queue t c) { s with queue := x }
  | begin {t : Thread q P} (hout : isOut (s.queue.1.pc t) = true)
      (hquiet : ∀ p, (s.queue.1.pc (.inr p)).isPush = false) (hi : s.life.dropper = .idle)
      (hw : ∀ k ∈ number t, s.life.status k = .running) :
    Move s (.begin t)
      { s with life := { s.life with dropper := .begun (number t) }, owner := some t }
  | close {t : Thread q P} {e : Option ℕ}
      {x : AffinityPool.State q P R × (q.Worker → CallLog q)} (ho : s.owner = some t)
      (hd : s.life.dropper = .begun e) (hx : (watched q P R).step s.queue (t, .close) = some x) :
    Move s .close
      { s with queue := x, life := { s.life with shutdown := true, dropper := .shut e } }
  | drop {t : Thread q P} {l : Lifecycle.State} (ho : s.owner = some t)
      (hout : isOut (s.queue.1.pc t) = true) (hd : ∀ e, s.life.dropper ≠ .begun e)
      (hl : s.life.step .drop = some l) : Move s .drop { s with life := l }
  | exit {w : q.Worker} (hpc : s.queue.1.pc (.inl w) = .finished) (hw : s.life.inLoop w.val)
      (hset : s.life.shutdown = true) :
    Move s (.exit w) { s with life := s.life.setStatus w.val .ending }
  | terminate {w : q.Worker} {l : Lifecycle.State} (hl : s.life.step (.advance w.val) = some l) :
    Move s (.terminate w) { s with life := l }

/-- **Inversion.**  Every step is one of the listed ones. -/
theorem Move.of_step (h : s.step a = some s') : Move s a s' := by
  cases a with
  | queue t c =>
    simp only [State.step] at h
    split at h
    · obtain ⟨x, hx, rfl⟩ := Option.map_eq_some_iff.mp h
      exact .queue ‹_› hx
    · cases h
  | begin t =>
    simp only [State.step] at h
    split at h
    · obtain ⟨l, hl, rfl⟩ := Option.map_eq_some_iff.mp h
      cases Lifecycle.Move.of_step hl with
      | begin hi hw => exact .begin (And.left ‹_›) (And.right ‹_›) hi hw
    · cases h
  | close =>
    simp only [State.step] at h
    split at h
    · rename_i t e ho hd
      obtain ⟨x, hx, h⟩ := Option.bind_eq_some_iff.mp h
      obtain ⟨l, hl, rfl⟩ := Option.map_eq_some_iff.mp h
      have hmove := Lifecycle.Move.of_step hl
      cases hmove with
      | shutdown hd' =>
        obtain rfl : e = _ := Lifecycle.Dropper.begun.inj (hd.symm.trans hd')
        exact .close ho hd hx
      | drain hd' | join hd' | panic hd' | reset hd' | release hd' | abandon hd' =>
        rw [hd] at hd'
        cases hd'
    · cases h
  | drop =>
    simp only [State.step] at h
    split at h
    · cases h
    · split at h
      · obtain ⟨l, hl, rfl⟩ := Option.map_eq_some_iff.mp h
        exact .drop ‹_› ‹_› ‹_› hl
      · cases h
    · cases h
  | exit w =>
    simp only [State.step] at h
    split at h
    · obtain ⟨l, hl, rfl⟩ := Option.map_eq_some_iff.mp h
      cases Lifecycle.Move.of_step hl with
      | exit hw hset => exact .exit ‹_› hw hset
    · cases h
  | terminate w =>
    obtain ⟨l, hl, rfl⟩ := Option.map_eq_some_iff.mp h
    exact .terminate hl

/-- The worker that executes `Threadpool::drop`, if one does. -/
def executor : Lifecycle.Dropper → Option ℕ
  | .begun e | .shut e | .joining e _ | .returned e => e
  | .panicked k => some k
  | .idle | .released => none

/-- What a step of `Threadpool::drop` after the shutdown call leaves as it is. -/
lemma drop_cases {l l' : Lifecycle.State} (h : l.step .drop = some l')
    (hd : ∀ e, l.dropper ≠ .begun e) :
    l'.shutdown = l.shutdown ∧ l'.status = l.status ∧ l.dropper ≠ .idle ∧ l'.dropper ≠ .idle ∧
      (∀ e, l'.dropper ≠ .begun e) ∧
      (l'.dropper = .released ∨
        l.dropper ≠ .released ∧ executor l'.dropper = executor l.dropper) := by
  cases Lifecycle.Move.of_step h with
  | shutdown hb => exact absurd hb (hd _)
  | drain hb | join hb | panic hb | reset hb | release hb | abandon hb =>
    simp [hb, executor]

/-- The queue and the threads go together. -/
structure Coupled (s : State q P R) : Prop where
  flag : s.queue.1.mem.shutdown = s.life.shutdown
  idle : s.life.dropper = .idle → s.life.shutdown = false
  quiet : s.life.dropper ≠ .idle → ∀ p, (s.queue.1.pc (.inr p)).isPush = false
  fresh : s.life.dropper = .idle → s.owner = none
  begun : ∀ e t, s.life.dropper = .begun e → s.owner = some t → isOut (s.queue.1.pc t) = true
  executor : ∀ t, s.owner = some t →
    s.life.dropper = .released ∨ executor s.life.dropper = number t
  status : ∀ w : q.Worker, s.life.status w.val = .running ∨
    (s.life.status w.val = .ending ∨ s.life.status w.val = .terminated) ∧
      s.queue.1.pc (.inl w) = .finished
  few : ∀ k, q.numWorkers ≤ k → s.life.status k = .unborn

omit [Fintype P] [DecidableEq R] in
/-- A shutdown call begins with the store of the flag. -/
lemma close_cases {t : Thread q P} {m m' : Mem q P R} {pc pc' : Pc q R}
    (hm : AffinityPool.Move t .close m pc m' pc') (hout : isOut pc = true) :
    m' = { m with shutdown := true } ∧ isOut pc' = false ∧ pc'.isPush = false := by
  cases hm
  case close k hc => exact ⟨rfl, rfl, rfl⟩
  case spawn hc hx hown hfor | ret hc => cases hc
  all_goals cases hout

/-- A thread that has been in its loop or has left it only terminates. -/
lemma advance_cases {l l' : Lifecycle.State} {k : ℕ} (h : l.step (.advance k) = some l')
    (hk : l.status k = .running ∨ l.status k = .ending ∨ l.status k = .terminated) :
    l.status k = .ending ∧ l' = l.setStatus k .terminated := by
  cases Lifecycle.Move.of_step h with
  | terminate he => exact ⟨he, rfl⟩
  | upgrade he | orphan he | count he | spawn he | store he =>
    rw [he] at hk
    simp at hk

omit [Fintype P] [DecidableEq R] in
/-- A shutdown call pushes nothing. -/
lemma pushed_of_close {t : Thread q P} {m m' : Mem q P R} {pc pc' : Pc q R}
    (hm : AffinityPool.Move t .close m pc m' pc') : m'.pushed = m.pushed := by
  cases hm
  case spawn hc hx hown hfor => cases hc
  all_goals rfl

omit [Fintype P] [DecidableEq R] in
/-- A worker that has left takes no step of the queue. -/
lemma finished_of_move {t : Thread q P} {c : Choice q P R} {m m' : Mem q P R} {pc' : Pc q R}
    (hm : AffinityPool.Move t c m .finished m' pc') : False := by
  cases hm

omit [Fintype P] in
/-- **Step lemma** for the steps of the queue. -/
lemma Coupled.queue {t : Thread q P} {c : Choice q P R}
    {x : AffinityPool.State q P R × (q.Worker → CallLog q)} (h : Coupled s)
    (hc : s.allows t c) (hx : (watched q P R).step s.queue (t, c) = some x) :
    Coupled { s with queue := x } := by
  obtain ⟨hclose, hdropping, hborrow⟩ := hc
  obtain ⟨m, pc, hm, hstate⟩ := State.step_cases (record_step.mp hx).1
  have hpc : ∀ u, x.1.pc u = Function.update s.queue.1.pc t pc u := fun u => by rw [hstate]
  refine ⟨?_, h.idle, fun hd p => ?_, h.fresh, fun e u hd hu => ?_, h.executor, fun w => ?_, h.few⟩
  · have hshut := hm.shutdown_eq.resolve_right fun hset => hclose hset.1
    rw [← h.flag, ← hshut]
    exact congrArg (fun s => s.mem.shutdown) hstate
  · have hquiet := h.quiet hd p
    dsimp only
    rw [hpc]
    by_cases hp : (.inr p : Thread q P) = t
    · subst hp
      rw [Function.update_self]
      by_contra hpush
      rcases hm.isPush_of (Bool.eq_true_of_not_eq_false hpush) with hold | hspawn
      · rw [hquiet] at hold
        cases hold
      · exact hd (hborrow rfl hspawn)
    · rw [Function.update_of_ne hp]
      exact hquiet
  · have hout := h.begun e u hd hu
    dsimp only at hu hd ⊢
    have hne : u ≠ t := by
      rintro rfl
      exact hdropping ⟨hu, by rw [hd]; simp, hout⟩
    rw [hpc, Function.update_of_ne hne]
    exact hout
  · refine (h.status w).imp_right fun hw => ⟨hw.1, ?_⟩
    dsimp only
    rw [hpc, Function.update_of_ne, hw.2]
    rintro rfl
    rw [hw.2] at hm
    exact finished_of_move hm

omit [Fintype P] [DecidableEq P] [DecidableEq R] in
/-- **Step lemma** for a worker thread that leaves its loop or terminates. -/
lemma Coupled.setStatus (h : Coupled s) {w : q.Worker} {x : Lifecycle.Status}
    (hx : ∀ v, v = w → (x = .ending ∨ x = .terminated) ∧ s.queue.1.pc (.inl v) = .finished) :
    Coupled { s with life := s.life.setStatus w.val x } := by
  refine ⟨h.flag, h.idle, h.quiet, h.fresh, h.begun, h.executor, fun v => ?_, fun k hk => ?_⟩
  · dsimp only [Lifecycle.State.setStatus]
    by_cases hv : v = w
    · rw [hv, Function.update_self]
      exact Or.inr (hv ▸ hx v hv)
    · rw [Function.update_of_ne fun h => hv (Fin.ext h)]
      exact h.status v
  · have hkw : k ≠ w.val := by
      have hlt := w.isLt
      omega
    exact (Function.update_of_ne hkw _ _).trans (h.few k hk)

omit [Fintype P] in
/-- **Step lemma.** -/
theorem Coupled.step (h : Coupled s) (hm : Move s a s') : Coupled s' := by
  cases hm with
  | queue hc hx => exact h.queue hc hx
  | begin hout hquiet hi hw =>
    refine ⟨h.flag, nofun, fun _ => hquiet, nofun, ?_, ?_, h.status, h.few⟩
    · rintro e u hd ⟨⟩
      exact hout
    · rintro u ⟨⟩
      exact Or.inr rfl
  | @close t e x ho hd hx =>
    obtain ⟨m, pc, hmove, hstate⟩ := State.step_cases (record_step.mp hx).1
    have hpc : ∀ u, x.1.pc u = Function.update s.queue.1.pc t pc u := fun u => by rw [hstate]
    have hbegun : s.life.dropper ≠ .idle := by
      rw [hd]
      simp
    have hout := h.begun e t hd ho
    obtain ⟨rfl, -, hpush⟩ := close_cases hmove hout
    refine ⟨congrArg (fun s => s.mem.shutdown) hstate, nofun, fun _ p => ?_, nofun, nofun,
      fun u hu => ?_, fun w => ?_, h.few⟩
    · dsimp only
      rw [hpc]
      by_cases hp : (.inr p : Thread q P) = t
      · rw [hp, Function.update_self]
        exact hpush
      · rw [Function.update_of_ne hp]
        exact h.quiet hbegun p
    · have hsame := (h.executor u hu).resolve_left (by rw [hd]; simp)
      rw [hd] at hsame
      exact Or.inr hsame
    · refine (h.status w).imp_right fun hw => ⟨hw.1, ?_⟩
      dsimp only
      rw [hpc, Function.update_of_ne, hw.2]
      rintro rfl
      rw [hw.2] at hout
      cases hout
  | drop ho hout hd hl =>
    obtain ⟨hshut, hstatus, hold, hnew, hbegun, hexecutor⟩ := drop_cases hl hd
    refine ⟨h.flag.trans hshut.symm, fun hi => absurd hi hnew, fun _ => h.quiet hold,
      fun hi => absurd hi hnew, fun e u hb => absurd hb (hbegun e), fun u hu => ?_, ?_, ?_⟩
    · rcases hexecutor with hreleased | ⟨hne, hsame⟩
      · exact Or.inl hreleased
      · exact Or.inr (hsame.trans ((h.executor u hu).resolve_left hne))
    · dsimp only
      rw [hstatus]
      exact h.status
    · dsimp only
      rw [hstatus]
      exact h.few
  | @exit w hpc hw hset =>
    refine h.setStatus fun v hv => ?_
    subst hv
    exact ⟨Or.inl rfl, hpc⟩
  | @terminate w l hl =>
    obtain ⟨hending, rfl⟩ := advance_cases hl ((h.status w).imp_right And.left)
    refine h.setStatus fun v hv => ?_
    subst hv
    exact ⟨Or.inr rfl, ((h.status v).resolve_left (by rw [hending]; simp)).2⟩

/-! ## The two machines -/

omit [Fintype P] in
/-- The threads take steps of their own machine. -/
lemma life_step (hm : Move s a s') :
    a.inQueue = true ∧ s'.life = s.life ∨
      ∃ b, s.life.step b = some s'.life ∧ (b.isGiven = true → a.isGiven = true) := by
  cases hm with
  | queue hc hx => exact Or.inl ⟨rfl, rfl⟩
  | @begin t hout hquiet hi hw =>
    refine Or.inr ⟨.begin (number t), ?_, fun _ => rfl⟩
    simp only [Lifecycle.State.step]
    rw [if_pos ⟨hi, hw⟩]
  | close ho hd hx =>
    refine Or.inr ⟨.drop, ?_, id⟩
    simp [Lifecycle.State.step, Lifecycle.State.dropStep, hd]
  | drop ho hout hd hl => exact Or.inr ⟨.drop, hl, id⟩
  | @exit w hpc hw hset =>
    refine Or.inr ⟨.exit w.val, ?_, id⟩
    simp only [Lifecycle.State.step]
    rw [if_pos ⟨hw, hset⟩]
  | terminate hl => exact Or.inr ⟨_, hl, id⟩

/-- The run of the threads is a run of their machine. -/
lemma life_reachable {ok : State q P R → Action q P R → Prop} (h : (machine q P R).Reach ok s) :
    (Lifecycle.machine q.numWorkers).Reachable s.life := by
  refine h.reachable.map State.life ?_ ?_
  · rintro _ rfl
    rfl
  · intro u a u' hstep
    rcases life_step (.of_step hstep) with ⟨-, hsame⟩ | ⟨b, hb, -⟩
    · exact Or.inl hsame
    · exact Or.inr ⟨b, hb⟩

omit [Fintype P] [DecidableEq P] [DecidableEq R] in
/-- The pool of a new machine is coupled. -/
lemma Coupled.start (hq : q.numWorkers ≤ MAX_THREADS) : Coupled (State.start q P R) := by
  have hclamp : clamp q.numWorkers 1 MAX_THREADS = q.numWorkers := by
    have hpos := q.numWorkers_pos
    unfold clamp
    split_ifs <;> omega
  refine ⟨rfl, fun _ => rfl, fun hd => absurd rfl hd, fun _ => rfl, nofun, nofun,
    fun w => Or.inl ?_, fun k hk => ?_⟩
  · have hw : w.val < clamp q.numWorkers 1 MAX_THREADS := hclamp.symm ▸ w.isLt
    exact if_pos hw
  · exact if_neg (by omega)

/-- The queue and the threads go together in every run, and the run of the queue is one that
ownership allows: what its machine takes for granted holds here. -/
theorem queue_reach (hq : q.numWorkers ≤ MAX_THREADS) (h : (machine q P R).Reach Justified s) :
    Coupled s ∧
      (watched q P R).Reach (fun x a => RetriesJustified x a ∧ x.1.Owned a) s.queue := by
  refine h.invariant (I := fun s => Coupled s ∧
    (watched q P R).Reach (fun x a => RetriesJustified x a ∧ x.1.Owned a) s.queue) ?_ ?_
  · rintro _ rfl
    exact ⟨.start hq, .of_init ⟨rfl, rfl⟩⟩
  · rintro u a u' hu ⟨hcoupled, hreach⟩ hok hstep
    have hm := Move.of_step hstep
    refine ⟨hcoupled.step hm, ?_⟩
    cases hm with
    | @queue t c x hc hx =>
      refine hreach.step ⟨hok, fun hforeign hspawn => ?_, fun hclose => absurd hclose hc.1⟩ hx
      rw [hcoupled.flag]
      exact hcoupled.idle (hc.2.2 hforeign hspawn)
    | close ho hd hx =>
      refine hreach.step ⟨fun hretry => ?_, fun _ hspawn => ?_, fun _ => ?_⟩ hx
      · cases hretry
      · cases hspawn
      · exact hcoupled.quiet (by rw [hd]; simp)
    | begin | drop | exit | terminate => exact hreach


/-! ## The drop ends -/

/-- What the shutdown call costs the queue, while it is ahead. -/
def callAhead (q : Shape) : Lifecycle.Dropper → ℕ
  | .begun _ => q.stimulusSteps
  | _ => 0

/-- The work before a pool: that of its queue, that of its threads, and the shutdown call. -/
def dropWork (s : State q P R) : ℕ :=
  workAhead s.queue + Lifecycle.endWork s.life + callAhead q s.life.dropper

/-- What a step of the threads uses up. -/
lemma endWork_step {ok : State q P R → Action q P R → Prop} (h : (machine q P R).Reach ok s)
    (hm : Move s a s') (ha : a.inQueue = false) :
    Lifecycle.endWork s'.life + 1 ≤ Lifecycle.endWork s.life + if a.isGiven then 7 else 0 := by
  rcases life_step hm with ⟨hqueue, -⟩ | ⟨b, hb, hgiven⟩
  · rw [ha] at hqueue
    cases hqueue
  · have hless := Lifecycle.endWork_potential s.life b s'.life (life_reachable h) trivial hb
    refine hless.trans (Nat.add_le_add_left ?_ _)
    by_cases hbgiven : b.isGiven = true
    · rw [if_pos hbgiven, if_pos (hgiven hbgiven)]
    · rw [if_neg hbgiven]
      exact Nat.zero_le _

/-- **Step lemma.**  Every step uses up work, but the stimuli of the queue and the release of the
last owner. -/
theorem dropWork_potential (hq : q.numWorkers ≤ MAX_THREADS) :
    Potential (machine q P R) Justified Action.isGiven dropWork (q.stimulusSteps + 7) := by
  intro s a s' h hok hstep
  have hqueue := (queue_reach hq h).2.mono fun _ _ hok => hok.1
  have hm := Move.of_step hstep
  have hlife := endWork_step h hm
  unfold dropWork
  cases hm with
  | @queue t c x hc hx =>
    have hless := workAhead_potential s.queue (t, c) x hqueue hok hx
    have hqueued : isGiven (t, c) = c.isStimulus := rfl
    have hgiven : (Action.queue t c).isGiven = c.isStimulus := rfl
    rw [hqueued] at hless
    rw [hgiven]
    cases hc : c.isStimulus with
    | true =>
      simp only [hc, if_true] at hless ⊢
      omega
    | false =>
      simp only [hc, Bool.false_eq_true, if_false] at hless ⊢
      omega
  | begin hout hquiet hi hw =>
    have hless := hlife rfl
    simp only [Action.isGiven, if_true, callAhead, hi] at hless ⊢
    omega
  | @close t e x ho hd hx =>
    have hless := hlife rfl
    have hretries : RetriesJustified s.queue (t, .close) := by
      intro hretry
      cases hretry
    have hcost := workAhead_potential s.queue (t, .close) x hqueue hretries hx
    simp only [isGiven, Choice.isStimulus, Action.isGiven, if_true, callAhead, hd] at hless hcost ⊢
    simp only [Bool.false_eq_true, if_false] at hless ⊢
    omega
  | drop ho hout hd hl =>
    have hless := hlife rfl
    simp only [Action.isGiven, Bool.false_eq_true, if_false] at hless ⊢
    obtain ⟨-, -, -, -, hbegun, -⟩ := drop_cases hl hd
    have hcall : ∀ d : Lifecycle.Dropper, (∀ e, d ≠ .begun e) → callAhead q d = 0 := by
      intro d hne
      cases d with
      | begun e => exact absurd rfl (hne e)
      | _ => rfl
    rw [hcall _ hd, hcall _ hbegun]
    omega
  | exit hpc hw hset =>
    have hless := hlife rfl
    simp only [Action.isGiven, Bool.false_eq_true, if_false, Lifecycle.State.setStatus] at hless ⊢
    omega
  | @terminate w l hl =>
    have hless := hlife rfl
    have hstatus := (queue_reach hq h).1.status w
    obtain ⟨-, rfl⟩ := advance_cases hl (hstatus.imp_right And.left)
    simp only [Action.isGiven, Bool.false_eq_true, if_false, Lifecycle.State.setStatus] at hless ⊢
    omega

/-- Left to itself, a pool is given nothing and keeps the thread that drops it. -/
lemma history_of_alone {y : State q P R}
    (hl : (machine q P R).Leads (alone Justified Action.isGiven) s y) :
    y.queue.1.mem.pushed = s.queue.1.mem.pushed ∧ y.owner = s.owner := by
  induction hl with
  | refl => exact ⟨rfl, rfl⟩
  | @tail u u' a _ hok hstep ih =>
    have hgiven : a.isGiven = false := hok.2
    rw [← ih.1, ← ih.2]
    cases Move.of_step hstep with
    | @queue t c x hc hx =>
      obtain ⟨m, pc, hm, hstate⟩ := State.step_cases (record_step.mp hx).1
      refine ⟨?_, rfl⟩
      rw [hstate]
      by_contra hne
      have hstimulus : c.isStimulus = true := hm.isStimulus_of_pushed hne
      exact absurd (hgiven.symm.trans hstimulus) (by simp)
    | close ho hd hx =>
      obtain ⟨m, pc, hm, hstate⟩ := State.step_cases (record_step.mp hx).1
      refine ⟨?_, rfl⟩
      rw [hstate]
      exact pushed_of_close hm
    | begin => cases hgiven
    | drop | exit | terminate => exact ⟨rfl, rfl⟩

omit [Fintype P] in
/-- A step of the queue, with its logs. -/
lemma watched_step {x : AffinityPool.State q P R × (q.Worker → CallLog q)} {t : Thread q P}
    {c : Choice q P R} {u : AffinityPool.State q P R} (h : x.1.step (t, c) = some u) :
    (watched q P R).step x (t, c) = some (u, noteCalls x.2 x.1 (t, c) u) :=
  record_of_step (M := AffinityPool.machine q P R) h

/-- The drop after the shutdown call. -/
lemma step_drop {t : Thread q P} (ho : s.owner = some t)
    (hout : isOut (s.queue.1.pc t) = true) (hd : ∀ e, s.life.dropper ≠ .begun e) :
    s.step .drop = (s.life.step .drop).map fun l => { s with life := l } := by
  cases hdropper : s.life.dropper with
  | begun e => exact absurd hdropper (hd e)
  | _ => simp only [State.step, ho, hdropper, hout, if_true]

/-- The pool has come to rest, and a thread outside drops it. -/
structure Rested (s : State q P R) (p : P) : Prop where
  coupled : Coupled s
  queue : (watched q P R).Reach (fun x a => RetriesJustified x a ∧ x.1.Owned a) s.queue
  life : (Lifecycle.machine q.numWorkers).Reachable s.life
  settled : Settled (machine q P R) Justified Action.isGiven s
  owner : s.owner = some (.inr p)

variable {p : P}

/-- A foreign thread that is not in a function of the queue runs no closure. -/
lemma Rested.foreign (h : Rested s p) {p' : P} (hout : isOut (s.queue.1.pc (.inr p')) = true) :
    s.queue.1.pc (.inr p') = .out .foreign := by
  have hkind := Kinds.of_reachable (reachable_of_watched h.queue) (.inr p')
  generalize s.queue.1.pc (.inr p') = pc at hout hkind
  cases pc with
  | out k =>
    cases k with
    | foreign => rfl
    | running r => cases hkind
  | _ => cases hout

/-- No thread is inside a function of the queue. -/
lemma Rested.resting (h : Rested s p) (t : Thread q P) : s.queue.1.Resting t := by
  have hreach := reachable_of_watched h.queue
  have hjustified : (watched q P R).Reach RetriesJustified s.queue :=
    h.queue.mono fun _ _ hok => hok.1
  refine resting_of_stuck (.of_reachable hreach) (.of_reachable hreach)
    (slotted_of_scan hjustified) (fun u c hc hreport => ?_) t
  by_cases hdropping : s.dropping u
  · -- the thread that executes the drop
    obtain ⟨ho, -, hout⟩ := hdropping
    obtain rfl : u = .inr p := Option.some.inj (ho.symm.trans h.owner)
    rw [h.foreign hout]
    cases c <;> first | rfl | cases hc
  · by_contra hmove
    obtain ⟨res, hres⟩ := Option.ne_none_iff_exists'.mp hmove
    have hstep : s.queue.1.step (u, c) = some ⟨res.1, Function.update s.queue.1.pc u res.2⟩ :=
      Option.map_eq_some_iff.mpr ⟨res, hres, rfl⟩
    have hallows : s.allows u c := by
      refine ⟨?_, hdropping, fun _ hspawn => ?_⟩
      · rintro rfl
        cases hc
      · cases c <;> simp_all [Choice.isStimulus, Choice.isSpawn]
    have hnone := h.settled (.queue u c) (fun hretry => absurd hretry hreport) hc
    simp only [machine, State.step, if_pos hallows, watched_step hstep, Option.map_some,
      reduceCtorEq] at hnone

/-- Foreign threads are outside the queue. -/
lemma Rested.isOut (h : Rested s p) (p' : P) : isOut (s.queue.1.pc (.inr p')) = true := by
  have hreach := reachable_of_watched h.queue
  have hkind := Kinds.of_reachable hreach (.inr p')
  rcases h.resting (.inr p') with hpc | hpc | hwait
  · rw [hpc]
    rfl
  · rw [hpc] at hkind
    cases hkind
  · obtain ⟨w, hw⟩ := (Handshake.of_reachable hreach).exists_worker (.of_reachable hreach) hwait
    cases hw

/-- The shutdown call has been made. -/
lemma Rested.called (h : Rested s p) (e : Option ℕ) : s.life.dropper ≠ .begun e := by
  intro hd
  have hpc := h.foreign (h.isOut p)
  have hstep : s.queue.1.step (.inr p, .close) =
      some ⟨{ s.queue.1.mem with shutdown := true },
        Function.update s.queue.1.pc (.inr p) (.close .foreign .lock)⟩ := by
    simp only [AffinityPool.State.step, hpc, move, Option.map_some]
  have hnone := h.settled .close trivial rfl
  simp only [machine, State.step, h.owner, hd, watched_step hstep, Option.bind_some,
    Lifecycle.State.step, Lifecycle.State.dropStep, Option.map_some, reduceCtorEq] at hnone

/-- A worker that is on its way out has a step, and so has one whose `pop_blocking` has returned,
unless it executes the drop. -/
lemma Rested.terminated (h : Rested s p) (hset : s.life.shutdown = true) (w : q.Worker) :
    s.life.status w.val = .terminated := by
  have hflag := h.coupled.flag.trans hset
  have hpc := finished_of_resting (reachable_of_watched h.queue) h.resting hflag w
  rcases h.coupled.status w with hrunning | ⟨hending | hterminated, -⟩
  · -- the drop runs outside the pool
    have hout : s.life.dropper.executes w.val = false := by
      rcases h.coupled.executor _ h.owner with hd | hd
      · rw [hd]
        rfl
      · cases hdropper : s.life.dropper with
        | begun e | shut e | joining e hs =>
          rw [hdropper] at hd
          obtain rfl : e = none := hd
          rfl
        | panicked k =>
          rw [hdropper] at hd
          cases hd
        | idle | returned | released => rfl
    have hloop : s.life.inLoop w.val := ⟨hrunning, hout⟩
    have hnone := h.settled (.exit w) trivial rfl
    simp only [machine, State.step, if_pos hpc, Lifecycle.State.step, if_pos (And.intro hloop hset),
      Option.map_some, reduceCtorEq] at hnone
  · have hnone := h.settled (.terminate w) trivial rfl
    simp only [machine, State.step, Lifecycle.State.step, Lifecycle.State.advance, hending,
      Option.map_some, reduceCtorEq] at hnone
  · exact hterminated

/-- The flag is set and the drop is over. -/
lemma Rested.released (h : Rested s p) :
    s.life.shutdown = true ∧ s.life.dropper = .released := by
  have hidle : s.life.dropper ≠ .idle := by
    intro hd
    have hnone := h.coupled.fresh hd
    rw [h.owner] at hnone
    cases hnone
  have hset : s.life.shutdown = true := by
    by_contra hopen
    rcases (Lifecycle.Balanced.of_reachable h.life).early (Bool.eq_false_of_not_eq_true hopen) with
      hd | ⟨e, hd⟩
    · exact hidle hd
    · exact h.called e hd
  refine ⟨hset, ?_⟩
  -- the drop has no step, so that it is over or waits for a thread
  have hdrop : s.life.step .drop = none := by
    have hnone : s.step .drop = none := h.settled .drop trivial rfl
    rw [step_drop h.owner (h.isOut p) h.called, Option.map_eq_none_iff] at hnone
    exact hnone
  unfold Lifecycle.State.step Lifecycle.State.dropStep at hdrop
  cases hd : s.life.dropper with
  | idle => exact absurd hd hidle
  | released => rfl
  | begun e | shut e | panicked k | returned e => simp only [hd, reduceCtorEq] at hdrop
  | joining e hs =>
    cases hs with
    | nil => simp only [hd, reduceCtorEq] at hdrop
    | cons k hs =>
      have hborn := (Lifecycle.Listed.of_reachable h.life).taken e _ hd k List.mem_cons_self
      have hlt : k < q.numWorkers := by
        by_contra hge
        exact hborn (h.coupled.few k (Nat.le_of_not_lt hge))
      simp only [hd, h.terminated hset ⟨k, hlt⟩, if_true] at hdrop
      split at hdrop <;> cases hdrop

/-- **A dropped pool leaves nothing behind.**  Suppose that the last owner of a pool has been
released on a thread outside, at whatever point the drop and the workers are.  Every run is bounded
by the work there is and by what comes from outside.  Left to itself the pool comes to rest,
and whichever steps it takes, then the data are released, every thread has terminated,
nothing is stored, and every runnable ever pushed has been returned exactly once. -/
theorem drop_completes (hq : q.numWorkers ≤ MAX_THREADS)
    (h : (machine q P R).Reach Justified s) (ho : s.owner = some (.inr p)) :
    (∃ y, (machine q P R).Leads (alone Justified Action.isGiven) s y ∧
      Settled (machine q P R) Justified Action.isGiven y) ∧
    (∀ as y, (machine q P R).Meets Justified s as → (machine q P R).exec s as = some y →
      as.length ≤ dropWork s + (q.stimulusSteps + 7) * as.countP Action.isGiven) ∧
    ∀ y, (machine q P R).Leads (alone Justified Action.isGiven) s y →
      Settled (machine q P R) Justified Action.isGiven y →
      y.life.dropper = .released ∧ y.life.strong = 0 ∧
        (∀ k, y.life.status k = .unborn ∨ y.life.status k = .terminated) ∧
        (∀ v, y.queue.1.mem.store.queue v = []) ∧
        s.queue.1.mem.pushed.Perm y.queue.1.mem.returned := by
  have hpot := dropWork_potential (P := P) (R := R) hq
  refine ⟨exists_settled hpot h, fun as y hm hexec => ?_, fun y hl hy => ?_⟩
  · exact (Nat.le_add_left _ _).trans (exec_length_le hpot h hm hexec)
  · have hreach := h.leads hl.of_alone
    obtain ⟨hcoupled, hqueue⟩ := queue_reach hq hreach
    obtain ⟨hpushed, howner⟩ := history_of_alone hl
    have hrested : Rested y p :=
      ⟨hcoupled, hqueue, life_reachable hreach, hy, howner.trans ho⟩
    obtain ⟨hset, hreleased⟩ := hrested.released
    have hended : ∀ k, y.life.status k = .unborn ∨ y.life.status k = .terminated := by
      intro k
      by_cases hk : k < q.numWorkers
      · exact Or.inr (hrested.terminated hset ⟨k, hk⟩)
      · exact Or.inl (hcoupled.few k (Nat.le_of_not_lt hk))
    have howned : (AffinityPool.machine q P R).Reach AffinityPool.State.Owned y.queue.1 := by
      have hmeets := hqueue.mono fun _ _ hok => hok.2
      unfold watched at hmeets
      exact hmeets.of_record_meets fun _ _ hok => hok
    have hfinished :=
      finished_of_resting howned.reachable hrested.resting (hcoupled.flag.trans hset)
    obtain ⟨hempty, hperm⟩ := emptied_of_finished howned hfinished
    have hstrong := (Lifecycle.Balanced.of_reachable hrested.life).strong_of_ended hreleased hended
    rw [hpushed] at hperm
    exact ⟨hreleased, hstrong, hended, hempty, hperm⟩

end Moves

/-- A foreign thread pushes a runnable, releases the last owner and begins to shut the queue down;
no worker has started. -/
def earlyDropRun : List (Action duo Unit ℕ) :=
  [.queue (.inr ()) (.spawn 7 0 none)] ++ List.replicate 2 (.queue (.inr ()) .go) ++
    [.begin (.inr ()), .close]

/-- The state after `earlyDropRun`. -/
def earlyDropped : State duo Unit ℕ :=
  (machine duo Unit ℕ).final (.start duo Unit ℕ) earlyDropRun (by decide)

/-- The workers start, return the runnable and terminate, and the drop joins them. -/
theorem drop_completes_early :
    earlyDropped.queue.1.mem.pushed = [7] ∧ earlyDropped.queue.1.mem.returned = [] ∧
      (∃ y, (machine duo Unit ℕ).Leads (alone Justified Action.isGiven) earlyDropped y ∧
        Settled (machine duo Unit ℕ) Justified Action.isGiven y) ∧
      ∀ y, (machine duo Unit ℕ).Leads (alone Justified Action.isGiven) earlyDropped y →
        Settled (machine duo Unit ℕ) Justified Action.isGiven y →
        y.life.dropper = .released ∧ y.life.status 0 = .terminated ∧
          y.life.status 1 = .terminated ∧ [7].Perm y.queue.1.mem.returned := by
  have hinit : (machine duo Unit ℕ).init (.start duo Unit ℕ) := rfl
  have hreach : (machine duo Unit ℕ).Reach Justified earlyDropped := .final hinit (by decide) _
  obtain ⟨hexists, -, hends⟩ := drop_completes (by decide) hreach (p := ()) (by decide)
  refine ⟨by decide, by decide, hexists, fun y hl hy => ?_⟩
  obtain ⟨hreleased, -, hended, -, hperm⟩ := hends y hl hy
  have hborn : ∀ k < 2, y.life.status k ≠ .unborn := by
    intro k hk
    have hstatus := (queue_reach (by decide) (hreach.leads hl.of_alone)).1.status ⟨k, hk⟩
    intro hnone
    rw [hnone] at hstatus
    simp at hstatus
  exact ⟨hreleased, (hended 0).resolve_left (hborn 0 (by decide)),
    (hended 1).resolve_left (hborn 1 (by decide)), hperm⟩

end Teardown

end AffinityPool
