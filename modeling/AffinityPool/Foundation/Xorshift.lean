import Mathlib.Data.BitVec
import Mathlib.Logic.Function.Iterate
import Mathlib.Tactic.TypeStar

/-!
# Xorshift generators

A step of an xorshift generator adds to the state, without carries, a shifted copy of itself, to
the left, to the right and to the left again.  Each of the three is one-to-one: from the low
end, or from the high end, every bit of the old state can be read off the new one.  So the
generator permutes its states, zero stays alone (`iterate_next_ne_zero`), and two streams that start
apart never meet after equally many steps (`iterate_next_ne`).
-/

namespace Xorshift

variable {w : ℕ} {a b c n : ℕ} {x y : BitVec w}

/-- `x ^= x << n`. -/
def left (n : ℕ) (x : BitVec w) : BitVec w := x ^^^ (x <<< n)

/-- `x ^= x >> n`. -/
def right (n : ℕ) (x : BitVec w) : BitVec w := x ^^^ (x >>> n)

/-- One step of the generator. -/
def next (a b c : ℕ) (x : BitVec w) : BitVec w := left c (right b (left a x))

/-- A bit of the old state is a bit of the new one, corrected by a lower bit. -/
lemma getLsbD_left (n : ℕ) (x : BitVec w) (i : ℕ) :
    (left n x).getLsbD i =
      (x.getLsbD i ^^ (decide (i < w) && !decide (i < n) && x.getLsbD (i - n))) := by
  rw [left, BitVec.getLsbD_xor, BitVec.getLsbD_shiftLeft]

/-- A bit of the old state is a bit of the new one, corrected by a higher bit. -/
lemma getLsbD_right (n : ℕ) (x : BitVec w) (i : ℕ) :
    (right n x).getLsbD i = (x.getLsbD i ^^ x.getLsbD (n + i)) := by
  rw [right, BitVec.getLsbD_xor, BitVec.getLsbD_ushiftRight]

/-- From the low end on, the new state determines the old one. -/
theorem left_injective (hn : 0 < n) : Function.Injective (left n : BitVec w → BitVec w) := by
  intro x y h
  have hbits : ∀ i, x.getLsbD i = y.getLsbD i := by
    intro i
    induction i using Nat.strongRecOn with
    | ind i ih =>
      have hi := congrArg (BitVec.getLsbD · i) h
      simp only [getLsbD_left] at hi
      by_cases hlow : i < n
      · simpa [hlow] using hi
      · rw [ih (i - n) (by omega)] at hi
        exact Bool.xor_left_inj.mp hi
  exact BitVec.eq_of_getLsbD_eq fun i _ => hbits i

/-- From the high end on, the new state determines the old one. -/
theorem right_injective (hn : 0 < n) : Function.Injective (right n : BitVec w → BitVec w) := by
  intro x y h
  have hbits : ∀ d i, w ≤ i + d → x.getLsbD i = y.getLsbD i := by
    intro d
    induction d with
    | zero =>
      intro i hi
      rw [BitVec.getLsbD_of_ge x i (by omega), BitVec.getLsbD_of_ge y i (by omega)]
    | succ d ih =>
      intro i hi
      have hbit := congrArg (BitVec.getLsbD · i) h
      simp only [getLsbD_right] at hbit
      rw [ih (n + i) (by omega)] at hbit
      exact Bool.xor_left_inj.mp hbit
  exact BitVec.eq_of_getLsbD_eq fun i _ => hbits w i (by omega)

/-- **A step permutes the states.** -/
theorem next_injective (ha : 0 < a) (hb : 0 < b) (hc : 0 < c) :
    Function.Injective (next a b c : BitVec w → BitVec w) :=
  (left_injective hc).comp ((right_injective hb).comp (left_injective ha))

lemma next_zero : next a b c (0 : BitVec w) = 0 := by
  simp [next, left, right]

/-- A step leads to zero from zero only. -/
theorem next_ne_zero (ha : 0 < a) (hb : 0 < b) (hc : 0 < c) (hx : x ≠ 0) :
    next a b c x ≠ 0 := by
  intro h
  exact hx (next_injective ha hb hc (h.trans next_zero.symm))

/-- A stream that does not start at zero never comes to it. -/
theorem iterate_next_ne_zero (ha : 0 < a) (hb : 0 < b) (hc : 0 < c) (hx : x ≠ 0) (k : ℕ) :
    (next a b c)^[k] x ≠ 0 := by
  induction k with
  | zero => exact hx
  | succ k ih =>
    rw [Function.iterate_succ_apply']
    exact next_ne_zero ha hb hc ih

/-- Streams that start apart stay apart. -/
theorem iterate_next_ne (ha : 0 < a) (hb : 0 < b) (hc : 0 < c) (hne : x ≠ y) (k : ℕ) :
    (next a b c)^[k] x ≠ (next a b c)^[k] y := by
  intro h
  exact hne ((next_injective ha hb hc).iterate k h)

end Xorshift
