import AffinityPool.Foundation.Record
import AffinityPool.Local.Deadlock

/-!
# The park token of a dropping thread

`block_on_cancel` polls the cancellation and, while that is pending, calls `thread::park`.  A
thread has one park token, which every waker of the thread shares: `unpark` sets it, and `park`
waits until it is set and clears it.  The machine of this file adds the tokens to the machine of
the futures.  A poll that reports `Pending` registers the calling thread as the awaiter of the
task; once the runnable is over, the awaiter is unparked, which may also come after the poll that
has seen the end.  Any other party may unpark any thread at any time, as the waker of an executor
does that is polling the future being dropped.

The cancellation never loses its own wake-up (`own_wake_kept`): a thread that is parked when the
runnable is over can return from `park`, or is still to be unparked.
-/

namespace AffinityPool

namespace Local

open Transition System

variable {q : Shape} {P R : Type}

/-- The pool with the park tokens of the threads. -/
structure Parking (q : Shape) (P R : Type) where
  base : State q P R
  /-- Whether the park token of a thread is set. -/
  token : Thread q P → Bool
  /-- The thread that the end of a runnable wakes. -/
  awaiter : R → Option (Thread q P)

namespace Parking

/-- What happens next. -/
inductive Event (q : Shape) (P R : Type)
  /-- A step of a thread; a return from `thread::park` takes the token. -/
  | run (t : Thread q P) (c : Choice q P R)
  /-- The awaiter of a runnable that is over is woken. -/
  | wake (r : R)
  /-- Some other party unparks a thread. -/
  | unpark (t : Thread q P)
  /-- A thread in code of the caller returns from a `thread::park` of its own. -/
  | park (t : Thread q P)
  deriving DecidableEq

variable [DecidableEq P] [DecidableEq R]

/-- The tokens after a step of a thread: a return from `thread::park` has cleared its own. -/
def tokens (p : Parking q P R) (t : Thread q P) (c : Choice q P R) : Thread q P → Bool :=
  if c = .unpark then Function.update p.token t false else p.token

/-- The awaiters after a step of a thread: a poll of a cancellation that is pending has registered
its waker. -/
def awaiters (p : Parking q P R) (t : Thread q P) (c : Choice q P R) : R → Option (Thread q P) :=
  match c, p.base.act t with
  | .attempt false, .cancelling r _ => Function.update p.awaiter r (some t)
  | _, _ => p.awaiter

omit [DecidableEq P] in
/-- A step registers the thread that makes it, for the task that it cancels. -/
lemma awaiters_cases (p : Parking q P R) (t : Thread q P) (c : Choice q P R) :
    p.awaiters t c = p.awaiter ∨
      ∃ r parked, p.base.act t = .cancelling r parked ∧
        p.awaiters t c = Function.update p.awaiter r (some t) := by
  unfold awaiters
  split
  · exact Or.inr ⟨_, _, ‹_›, rfl⟩
  · exact Or.inl rfl

/-- One step of the system. -/
def step (p : Parking q P R) : Event q P R → Option (Parking q P R)
  | .run t c =>
    -- `thread::park` waits for the token
    if c = .unpark ∧ p.token t = false then none
    else (p.base.step (t, c)).map fun s => ⟨s, p.tokens t c, p.awaiters t c⟩
  | .wake r =>
    match p.awaiter r with
    | some t =>
      if (p.base.task r).exec.isOver then
        some { p with
          token := Function.update p.token t true
          awaiter := Function.update p.awaiter r none }
      else none
    | none => none
  | .unpark t => some { p with token := Function.update p.token t true }
  | .park t =>
    if p.base.atCall t ∧ p.token t = true then
      some { p with token := Function.update p.token t false }
    else none

end Parking

/-- The state of a new pool: no token is set. -/
def Parking.start (q : Shape) (P R : Type) : Parking q P R where
  base := .start q P R
  token := fun _ => false
  awaiter := fun _ => none

/-- The pool with its futures and park tokens as a transition system. -/
def parking (q : Shape) (P R : Type) [DecidableEq P] [DecidableEq R] :
    System (Parking q P R) (Parking.Event q P R) where
  init p := p = Parking.start q P R
  step := Parking.step

/-! ## What one step can do -/

namespace Parking

section Moves

variable [DecidableEq P] [DecidableEq R] {p p' : Parking q P R} {e : Event q P R}

/-- The steps of the system, with what each of them has found. -/
inductive Move (p : Parking q P R) : Event q P R → Parking q P R → Prop
  | run {t : Thread q P} {c : Choice q P R} {s : State q P R}
      (htoken : c = .unpark → p.token t = true) (hs : p.base.step (t, c) = some s) :
    Move p (.run t c) ⟨s, p.tokens t c, p.awaiters t c⟩
  | wake {r : R} {t : Thread q P} (ha : p.awaiter r = some t)
      (hover : (p.base.task r).exec.isOver = true) :
    Move p (.wake r)
      { p with
        token := Function.update p.token t true
        awaiter := Function.update p.awaiter r none }
  | unpark (t : Thread q P) : Move p (.unpark t) { p with token := Function.update p.token t true }
  | park {t : Thread q P} (hcall : p.base.atCall t) (htoken : p.token t = true) :
    Move p (.park t) { p with token := Function.update p.token t false }

/-- **Inversion.**  Every step is one of the listed ones. -/
theorem Move.of_step (h : p.step e = some p') : Move p e p' := by
  cases e with
  | run t c =>
    by_cases hpark : c = .unpark ∧ p.token t = false
    · simp only [step, if_pos hpark, reduceCtorEq] at h
    · simp only [step, if_neg hpark, Option.map_eq_some_iff] at h
      obtain ⟨s, hs, rfl⟩ := h
      exact .run (fun hc => by simpa [hc] using hpark) hs
  | wake r =>
    cases ha : p.awaiter r with
    | none => simp [step, ha] at h
    | some t =>
      by_cases hover : (p.base.task r).exec.isOver = true
      · simp only [step, ha, if_pos hover, Option.some.injEq] at h
        subst h
        exact .wake ha hover
      · simp [step, ha, hover] at h
  | unpark t =>
    cases h
    exact .unpark t
  | park t =>
    by_cases hpark : p.base.atCall t ∧ p.token t = true
    · simp only [step, if_pos hpark, Option.some.injEq] at h
      subst h
      exact .park hpark.1 hpark.2
    · simp only [step, if_neg hpark, reduceCtorEq] at h

/-- The pool under the tokens takes steps of its own only. -/
theorem pool_reachable (h : (parking q P R).Reachable p) : (machine q P R).Reachable p.base := by
  refine h.map Parking.base ?_ ?_
  · rintro _ rfl
    rfl
  · intro p e p' hstep
    cases Move.of_step hstep with
    | run htoken hs => exact Or.inr ⟨_, hs⟩
    | wake ha hover => exact Or.inl rfl
    | unpark t => exact Or.inl rfl
    | park hcall htoken => exact Or.inl rfl

end Moves

end Parking

/-! ## The wake-up of the cancellation -/

section Awaited

variable [DecidableEq P] [DecidableEq R]

/-- Only a future is dropped. -/
lemma Move.future_of_drop {s s' : State q P R} {t : Thread q P} {r : R}
    (hm : Move s t (.drop r) s') : ∃ f, (s.task r).handle = .future f := by
  cases hm with
  | discard hcall hf | close hcall hf | forget hcall hf => exact ⟨_, hf⟩

/-- A thread is parked since before, or has just polled a cancellation that is pending. -/
lemma Move.parked_cases {s s' : State q P R} {t u : Thread q P} {c : Choice q P R} {r : R}
    (hm : Move s u c s') (hact : s'.act t = .cancelling r true) :
    s.act t = .cancelling r true ∧ (u = t → c ≠ .unpark) ∨
      u = t ∧ c = .attempt false ∧ s.act t = .cancelling r false := by
  cases hm with
  | park ha =>
    rcases update_cases hact with ⟨rfl, hself⟩ | ⟨hne, hold⟩
    · cases hself
      exact Or.inr ⟨rfl, rfl, ha⟩
    · exact Or.inl ⟨hold, fun hu => absurd hu.symm hne⟩
  | schedule | poll | ready | pending | close | stopped | unpark =>
    rcases update_cases hact with ⟨-, hself⟩ | ⟨hne, hold⟩
    · cases hself
    · exact Or.inl ⟨hold, fun hu => absurd hu.symm hne⟩
  | _ => exact Or.inl ⟨hact, by simp⟩

/-- Every task is cancelled by one thread. -/
def Alone (s : State q P R) : Prop :=
  ∀ t u r a b, s.act t = .cancelling r a → s.act u = .cancelling r b → t = u

theorem Alone.of_reachable [Fintype P] {s : State q P R} (h : (machine q P R).Reachable s) :
    Alone s := by
  refine h.invariant ?_ ?_
  · rintro _ rfl t u r a b hact
    cases hact
  · rintro s ⟨v, c⟩ s' hr hs - hstep t u r a b ht hu
    have hm := Move.of_step hstep
    have hsound := Sound.of_reachable hr
    -- a future is in no destructor
    have hnot : ∀ w a, c = .drop r → s.act w ≠ .cancelling r a := by
      rintro w a rfl hact
      obtain ⟨f, hf⟩ := hm.future_of_drop
      have hended := (hsound.cancelling w r a hact).1
      rw [hf] at hended
      cases hended
    rcases hm.cancelling_cases ht with ⟨a', ht⟩ | ⟨ht, hc, -⟩
    · rcases hm.cancelling_cases hu with ⟨b', hu⟩ | ⟨-, hc, -⟩
      · exact hs t u r a' b' ht hu
      · exact absurd ht (hnot t a' hc)
    · rcases hm.cancelling_cases hu with ⟨b', hu⟩ | ⟨hu, -, -⟩
      · exact absurd hu (hnot u b' hc)
      · rw [ht, hu]

/-- A parked drop has a wake-up ahead of it or waiting for it. -/
def Awaited (p : Parking q P R) : Prop :=
  ∀ t r, p.base.act t = .cancelling r true → p.awaiter r = some t ∨ p.token t = true

variable {p p' : Parking q P R} {e : Parking.Event q P R} {t u : Thread q P} {c : Choice q P R}
  {r : R}

/-- Only a return from `park` clears a token. -/
lemma Parking.tokens_kept (h : u = t → c ≠ .unpark) : p.tokens u c t = p.token t := by
  unfold tokens
  split
  · rename_i hc
    exact Function.update_of_ne (fun ht => h ht.symm hc) _ _
  · rfl

omit [DecidableEq R] in
/-- Setting a token keeps the others. -/
lemma token_set (h : p.token t = true) : Function.update p.token u true t = true := by
  by_cases ht : t = u
  · rw [ht]
    exact Function.update_self _ _ _
  · exact (Function.update_of_ne ht _ _).trans h

omit [DecidableEq P] in
/-- The awaiter of a task stays registered while it is parked. -/
lemma Alone.awaiters_kept (halone : Alone p.base) (hact : p.base.act t = .cancelling r true)
    (h : p.awaiter r = some t) : p.awaiters u c r = some t := by
  rcases p.awaiters_cases u c with heq | ⟨x, b, hu, heq⟩
  · rw [heq]
    exact h
  · rw [heq]
    by_cases hx : r = x
    · subst hx
      rw [Function.update_self, halone t u r true b hact hu]
    · rwa [Function.update_of_ne hx]

/-- **Step lemma.** -/
theorem Awaited.step (h : Awaited p) (halone : Alone p.base) (hm : Parking.Move p e p') :
    Awaited p' := by
  intro t r hact
  cases hm with
  | @run u c s htoken hs =>
    rcases (Move.of_step hs).parked_cases hact with ⟨hold, hkept⟩ | ⟨rfl, rfl, hold⟩
    · rcases h t r hold with hawaited | hset
      · exact Or.inl (halone.awaiters_kept hold hawaited)
      · exact Or.inr ((Parking.tokens_kept hkept).trans hset)
    · left
      simp only [Parking.awaiters, hold, Function.update_self]
  | @wake r' u ha hover =>
    rcases h t r hact with hawaited | htoken
    · by_cases hr : r = r'
      · subst hr
        obtain rfl : t = u := Option.some.inj (hawaited.symm.trans ha)
        exact Or.inr (Function.update_self _ _ _)
      · exact Or.inl ((Function.update_of_ne hr _ _).trans hawaited)
    · exact Or.inr (token_set htoken)
  | unpark u => exact (h t r hact).imp_right token_set
  | @park u hcall htoken =>
    have ht : t ≠ u := by
      rintro rfl
      rw [hcall.1] at hact
      cases hact
    exact (h t r hact).imp_right fun hset => (Function.update_of_ne ht _ _).trans hset

/-- **Run lemma.** -/
theorem Awaited.of_reachable [Fintype P] (h : (parking q P R).Reachable p) : Awaited p := by
  refine h.invariant ?_ ?_
  · rintro _ rfl t r hact
    cases hact
  · intro p e p' hr hp _ hstep
    exact hp.step (.of_reachable (Parking.pool_reachable hr)) (.of_step hstep)

/-- **The wake-up of the cancellation is not lost.**  When the runnable is over, a thread parked in
`block_on_cancel` can return from `park`, or its wake-up is still ahead of it and sets its token. -/
theorem own_wake_kept [Fintype P] (h : (parking q P R).Reachable p)
    (hact : p.base.act t = .cancelling r true) (hover : (p.base.task r).exec.isOver = true) :
    (∃ p', p.step (.run t .unpark) = some p') ∨
      ∃ p', p.step (.wake r) = some p' ∧ p'.token t = true := by
  rcases Awaited.of_reachable h t r hact with hawaited | hset
  · right
    have hstep : p.step (.wake r) = some
        { p with
          token := Function.update p.token t true
          awaiter := Function.update p.awaiter r none } := by
      simp only [Parking.step, hawaited, if_pos hover]
    exact ⟨_, hstep, Function.update_self _ _ _⟩
  · left
    have hbase : p.base.step (t, .unpark) = some (p.base.setAct t (.cancelling r false)) :=
      (Move.unpark hact).step
    have hstep : p.step (.run t .unpark) = some ⟨p.base.setAct t (.cancelling r false),
        p.tokens t .unpark, p.awaiters t .unpark⟩ := by
      rw [Parking.step, if_neg (by simp [hset]), hbase, Option.map_some]
    exact ⟨_, hstep⟩

end Awaited

end Local

end AffinityPool
