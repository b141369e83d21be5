import AffinityPool.Foundation.TransitionSystem

/-!
# One-shot cells

A producer puts one value into a cell, its consumer polls for it.  Until the value is there a
poll is answered `pending`, the next one takes the value, and all later ones are refused.  The
consumer may close the cell at any time; a value that comes later is discarded.

So the answers have one shape (`OneShot.Told.of_reachable`): some are pending, at most one hands
out the value that was put, and only refusals follow it.
-/

namespace Transition

variable {X : Type*}

/-- What a cell holds. -/
inductive Cell (X : Type*)
  | empty
  | full (x : X)
  | taken
  /-- The consumer is gone. -/
  | closed
  deriving DecidableEq

/-- The cell after a value has come. -/
def Cell.filled (x : X) : Cell X → Cell X
  | .closed => .closed
  | _ => .full x

/-- The answer to a poll. -/
inductive Answer (X : Type*)
  | pending
  | ready (x : X)
  /-- The value has been handed out before. -/
  | completed
  deriving DecidableEq

/-- The answer hands out the value. -/
def Answer.isReady : Answer X → Bool
  | .ready _ => true
  | _ => false

/-- A cell with its history. -/
structure OneShot (X : Type*) where
  cell : Cell X
  /-- What has been put so far. -/
  stored : List X
  /-- The answers so far. -/
  answers : List (Answer X)

namespace OneShot

/-- The new cell. -/
def empty : OneShot X where
  cell := .empty
  stored := []
  answers := []

/-- Put the value, unless one has been put before. -/
def put (o : OneShot X) (x : X) : Option (OneShot X) :=
  match o.stored with
  | [] => some { o with cell := o.cell.filled x, stored := [x] }
  | _ :: _ => none

/-- Note an answer. -/
def tell (o : OneShot X) (a : Answer X) : OneShot X := { o with answers := o.answers ++ [a] }

/-- Poll the cell. -/
def poll (o : OneShot X) : Option (OneShot X × Answer X) :=
  match o.cell with
  | .empty => some (o.tell .pending, .pending)
  | .full x => some ({ o with cell := .taken }.tell (.ready x), .ready x)
  | .taken => some (o.tell .completed, .completed)
  | .closed => none

/-- **Inversion.**  What a poll finds. -/
lemma poll_cases {o o' : OneShot X} {a : Answer X} (h : o.poll = some (o', a)) :
    (o.cell = .empty ∧ a = .pending ∧ o' = o.tell .pending) ∨
      (∃ x, o.cell = .full x ∧ a = .ready x ∧ o' = { o with cell := .taken }.tell (.ready x)) ∨
      (o.cell = .taken ∧ a = .completed ∧ o' = o.tell .completed) := by
  unfold poll at h
  split at h <;> cases h
  · exact Or.inl ⟨‹_›, rfl, rfl⟩
  · exact Or.inr (Or.inl ⟨_, ‹_›, rfl, rfl⟩)
  · exact Or.inr (Or.inr ⟨‹_›, rfl, rfl⟩)

/-- Refuse a poll without a look at the cell. -/
def refuse (o : OneShot X) : OneShot X := o.tell .completed

/-- The consumer goes. -/
def close (o : OneShot X) : OneShot X := { o with cell := .closed }

/-- The operations on a cell. -/
inductive Op (X : Type*)
  | put (x : X)
  | poll
  /-- A refusal, which the consumer may leave to itself once it has taken the value. -/
  | refuse
  | close

/-- One operation. -/
def step (o : OneShot X) : Op X → Option (OneShot X)
  | .put x => o.put x
  | .poll => o.poll.map Prod.fst
  | .refuse =>
    match o.cell with
    | .taken => some o.refuse
    | _ => none
  | .close => some o.close

end OneShot

/-- A cell as a transition system. -/
def oneShot (X : Type*) : System (OneShot X) (OneShot.Op X) where
  init o := o = .empty
  step := OneShot.step

namespace OneShot

/-- The shape of the history of a cell. -/
inductive Told (o : OneShot X) : Prop
  | waiting (n : ℕ) (hs : o.stored = []) (hc : o.cell = .empty ∨ o.cell = .closed)
      (ha : o.answers = List.replicate n .pending)
  | stored (n : ℕ) (x : X) (hs : o.stored = [x]) (hc : o.cell = .full x ∨ o.cell = .closed)
      (ha : o.answers = List.replicate n .pending)
  | answered (n m : ℕ) (x : X) (hs : o.stored = [x]) (hc : o.cell = .taken ∨ o.cell = .closed)
      (ha : o.answers = List.replicate n .pending ++ .ready x :: List.replicate m .completed)

variable {o o' : OneShot X}

lemma Told.put {x : X} (h : o.Told) (ho : o.put x = some o') : o'.Told := by
  cases h with
  | waiting n hs hc ha =>
    simp only [OneShot.put, hs, Option.some.injEq] at ho
    subst ho
    refine .stored n x rfl ?_ ha
    rcases hc with hc | hc
    · exact Or.inl (by rw [hc]; rfl)
    · exact Or.inr (by rw [hc]; rfl)
  | stored n y hs hc ha | answered n m y hs hc ha => simp [OneShot.put, hs] at ho

/-- Another refusal. -/
lemma Told.refuse (h : o.Told) (hc : o.cell = .taken) : o.refuse.Told := by
  cases h with
  | waiting n hs hcell ha => simp [hc] at hcell
  | stored n x hs hcell ha => simp [hc] at hcell
  | answered n m x hs hcell ha =>
    refine .answered n (m + 1) x hs (Or.inl hc) ?_
    simp only [OneShot.refuse, tell, ha, List.append_assoc, List.cons_append,
      List.replicate_succ' (n := m)]

lemma Told.poll {a : Answer X} (h : o.Told) (ho : o.poll = some (o', a)) : o'.Told := by
  rcases poll_cases ho with ⟨hc, -, rfl⟩ | ⟨x, hc, -, rfl⟩ | ⟨hc, -, rfl⟩
  · cases h with
    | waiting n hs hcell ha =>
      refine .waiting (n + 1) hs (Or.inl hc) ?_
      simp only [tell, ha, List.replicate_succ' (n := n)]
    | stored n x hs hcell ha => simp [hc] at hcell
    | answered n m x hs hcell ha => simp [hc] at hcell
  · cases h with
    | waiting n hs hcell ha => simp [hc] at hcell
    | stored n y hs hcell ha =>
      obtain rfl : x = y := by simpa [hc] using hcell
      refine .answered n 0 x hs (Or.inl rfl) ?_
      simp only [tell, ha, List.replicate_zero]
    | answered n m y hs hcell ha => simp [hc] at hcell
  · exact h.refuse hc

lemma Told.close (h : o.Told) : o.close.Told := by
  cases h with
  | waiting n hs hc ha => exact .waiting n hs (Or.inr rfl) ha
  | stored n x hs hc ha => exact .stored n x hs (Or.inr rfl) ha
  | answered n m x hs hc ha => exact .answered n m x hs (Or.inr rfl) ha

/-- **Step lemma.** -/
theorem Told.step {op : Op X} (h : o.Told) (ho : o.step op = some o') : o'.Told := by
  cases op with
  | put x => exact h.put ho
  | poll =>
    obtain ⟨⟨o₁, a⟩, hpoll, rfl⟩ := Option.map_eq_some_iff.mp ho
    exact h.poll hpoll
  | refuse =>
    unfold OneShot.step at ho
    dsimp only at ho
    split at ho
    · cases ho
      exact h.refuse ‹_›
    · cases ho
  | close =>
    cases ho
    exact h.close

/-- The history of a cell has this shape in every run. -/
theorem Told.of_reachable (h : (oneShot X).Reachable o) : o.Told := by
  refine h.invariant ?_ fun o op o' _ ht _ hs => ht.step hs
  rintro _ rfl
  exact .waiting 0 rfl (Or.inl rfl) rfl

end OneShot

end Transition
