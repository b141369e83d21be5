import Mathlib.Data.Nat.Basic
import Mathlib.Tactic.TypeStar
import Mathlib.Tactic.Ring

/-!
# Rotated walks

A walk over `span` places that starts at `start` and wraps around visits every place once.
`wrapAt` is the wrap-around by one conditional subtraction, which is the remainder as long
as its argument stays below twice the span.
-/

namespace Transition

/-- Wrap `x` around at `span` by one conditional subtraction. -/
def wrapAt (span x : ℕ) : ℕ := if span ≤ x then x - span else x

/-- The wrapped index is in range. -/
lemma wrapAt_lt {span x : ℕ} (h : x < 2 * span) : wrapAt span x < span := by
  unfold wrapAt
  split <;> omega

/-- Every place is visited. -/
lemma exists_wrapAt_add_eq {span start r : ℕ} (hs : start < span) (hr : r < span) :
    ∃ k < span, wrapAt span (start + k) = r := by
  rcases Nat.lt_or_ge r start with h | h
  · refine ⟨r + span - start, by omega, ?_⟩
    have hsum : start + (r + span - start) = r + span := by omega
    rw [hsum, wrapAt, if_pos (by omega)]
    omega
  · refine ⟨r - start, by omega, ?_⟩
    have hsum : start + (r - start) = r := by omega
    rw [hsum, wrapAt, if_neg (by omega)]

/-- No place is visited twice. -/
lemma wrapAt_add_inj {span start j k : ℕ} (hj : j < span) (hk : k < span)
    (h : wrapAt span (start + j) = wrapAt span (start + k)) : j = k := by
  unfold wrapAt at h
  split at h <;> split at h <;> omega

end Transition
