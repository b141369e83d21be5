import AffinityPool.Foundation.TransitionSystem
import Mathlib.Algebra.Order.Group.Multiset

/-!
# A network of FIFO channels

Items are put at the end of a channel, taken from its front, or hauled: a prefix of one channel
is removed, its first item leaves the network, and the others go to the end of another channel.
Every operation is atomic.  The history of a channel is what has entered it and what has left
it, both in order; what has left, followed by the contents, is always what has entered
(`Net.Balanced.of_reachable`), so a channel lets nobody pass.
-/

namespace Transition

variable {V R : Type*}

/-- An operation on the channels. -/
inductive Op (V R : Type*)
  | put (v : V) (r : R)
  | take (v : V)
  | haul (v u : V) (n : ℕ)
  deriving DecidableEq

/-- A network: its channels with their histories, and the items that have left it. -/
structure Net (V R : Type*) where
  chan : V → List R
  /-- What has entered a channel so far. -/
  entered : V → List R
  /-- What has left a channel so far. -/
  left : V → List R
  /-- What has left the network. -/
  out : Multiset R

namespace Net

/-- The new network. -/
def empty : Net V R where
  chan := fun _ => []
  entered := fun _ => []
  left := fun _ => []
  out := 0

variable [DecidableEq V]

/-- Put items at the end of a channel. -/
def append (x : Net V R) (v : V) (rs : List R) : Net V R where
  chan := Function.update x.chan v (x.chan v ++ rs)
  entered := Function.update x.entered v (x.entered v ++ rs)
  left := x.left
  out := x.out

/-- Remove the first `n` items of a channel. -/
def remove (x : Net V R) (v : V) (n : ℕ) : Net V R where
  chan := Function.update x.chan v ((x.chan v).drop n)
  entered := x.entered
  left := Function.update x.left v (x.left v ++ (x.chan v).take n)
  out := x.out

/-- An item leaves the network. -/
def release (x : Net V R) (r : R) : Net V R := { x with out := x.out + {r} }

/-- The network after an operation: a channel from which an item is taken is not empty. -/
def step (x : Net V R) : Op V R → Option (Net V R)
  | .put v r => some (x.append v [r])
  | .take v =>
    match x.chan v with
    | [] => none
    | r :: _ => some ((x.remove v 1).release r)
  | .haul v u n =>
    match (x.chan v).take n with
    | [] => none
    | r :: moved => some (((x.remove v n).append u moved).release r)

/-- What has left a channel and what is in it is what has entered it. -/
def Balanced (x : Net V R) : Prop := ∀ v, x.left v ++ x.chan v = x.entered v

variable {x x' : Net V R}

lemma Balanced.append (h : x.Balanced) (v : V) (rs : List R) : (x.append v rs).Balanced := by
  intro u
  by_cases hu : u = v
  · subst hu
    simp only [Net.append, Function.update_self, ← List.append_assoc, h u]
  · simp only [Net.append, Function.update_of_ne hu]
    exact h u

lemma Balanced.remove (h : x.Balanced) (v : V) (n : ℕ) : (x.remove v n).Balanced := by
  intro u
  by_cases hu : u = v
  · subst hu
    simp only [Net.remove, Function.update_self, List.append_assoc, List.take_append_drop]
    exact h u
  · simp only [Net.remove, Function.update_of_ne hu]
    exact h u

/-- **Step lemma.**  An operation keeps the network balanced. -/
theorem Balanced.step (h : x.Balanced) {op : Op V R} (hs : x.step op = some x') :
    x'.Balanced := by
  cases op with
  | put v r =>
    cases hs
    exact h.append v [r]
  | take v =>
    simp only [Net.step] at hs
    split at hs
    · cases hs
    · cases hs
      exact h.remove v 1
  | haul v u n =>
    simp only [Net.step] at hs
    split at hs
    · cases hs
    · cases hs
      exact (h.remove v n).append u _

end Net

/-- The network as a transition system. -/
def network (V R : Type*) [DecidableEq V] : System (Net V R) (Op V R) where
  init x := x = .empty
  step := Net.step

/-- **Run lemma.**  Every channel is a queue: what has left it, in order, followed by its contents
is what has entered it. -/
theorem Net.Balanced.of_reachable [DecidableEq V] {x : Net V R}
    (h : (network V R).Reachable x) : x.Balanced := by
  refine h.invariant ?_ ?_
  · rintro _ rfl v
    rfl
  · intro x op x' _ hx _ hs
    exact hx.step hs

end Transition
