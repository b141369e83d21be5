import AffinityPool.Queue.Cpu
import Mathlib.Data.Nat.ModEq

/-!
# One producer and one pool

`route_shard` keeps its counter in a thread-local of the calling thread.  `routeState` is the
value of that thread-local after any number of calls for one queue, and `routeAt` the shard
the next call returns; both have closed forms (`routeState_succ`, `routeAt_eq`).

The counter saturates at `u32::MAX`.  Up to there the calls past the threshold walk the shards
in cyclic order, from there on they all return the same shard (`spillsEvenly_iff`).
-/

namespace AffinityPool

/-- The routing state of a thread after `k` calls for a queue with this mask. -/
def routeState (mask hash : ℕ) : ℕ → Option ProducerRoute
  | 0 => none
  | k + 1 => some (routeShard mask hash (routeState mask hash k)).1

/-- The shard returned by the call that follows `k` calls. -/
def routeAt (mask hash k : ℕ) : ℕ := (routeShard mask hash (routeState mask hash k)).2

/-- The calls count up to `u32::MAX`. -/
lemma routeState_succ (mask hash k : ℕ) :
    routeState mask hash (k + 1) = some ⟨hash, hash &&& mask, min (k + 1) u32Max⟩ := by
  induction k with
  | zero =>
    have hone : min (0 + 1) u32Max = 1 := rfl
    simp only [routeState, routeShard, ProducerRoute.get, saturatingAdd, hone, ite_self]
  | succ k ih =>
    have hcount : min (min (k + 1) u32Max + 1) u32Max = min (k + 1 + 1) u32Max := by omega
    rw [routeState, ih]
    simp only [routeShard, ProducerRoute.get, saturatingAdd, if_true, hcount]

/-- The shard of a call in terms of the number of earlier calls. -/
lemma routeAt_eq (mask hash k : ℕ) :
    routeAt mask hash k = spillShard mask (hash &&& mask) (min (k + 1) u32Max) := by
  have hmax : u32Max = 4294967295 := rfl
  cases k with
  | zero =>
    have hone : min (0 + 1) u32Max = 1 := rfl
    simp only [routeAt, routeState, routeShard, ProducerRoute.get, saturatingAdd, hone, ite_self]
  | succ k =>
    have hcount : min (min (k + 1) u32Max + 1) u32Max = min (k + 1 + 1) u32Max := by omega
    rw [routeAt, routeState_succ]
    simp only [routeShard, ProducerRoute.get, saturatingAdd, if_true, hcount]

/-- Up to the threshold the calls return the preferred shard. -/
lemma routeAt_of_lt {k : ℕ} (mask hash : ℕ) (hk : k < SPILL_THRESHOLD) :
    routeAt mask hash k = hash &&& mask := by
  have hthreshold : SPILL_THRESHOLD = 8 := rfl
  rw [routeAt_eq, spillShard, if_pos (by omega)]

/-- From the threshold on the calls return the shards after the preferred one. -/
lemma routeAt_of_le {k : ℕ} (mask hash : ℕ) (hk : SPILL_THRESHOLD ≤ k) :
    routeAt mask hash k =
      ((hash &&& mask) + (min (k + 1) u32Max - SPILL_THRESHOLD)) &&& mask := by
  have hthreshold : SPILL_THRESHOLD = 8 := rfl
  have hmax : u32Max = 4294967295 := rfl
  rw [routeAt_eq, spillShard, if_neg (by omega)]

/-- Once the counter is at its limit, all calls return the same shard. -/
lemma routeAt_of_saturated {j k : ℕ} (mask hash : ℕ) (hj : u32Max ≤ j + 1) (hk : u32Max ≤ k + 1) :
    routeAt mask hash j = routeAt mask hash k := by
  rw [routeAt_eq, routeAt_eq, min_eq_right hj, min_eq_right hk]

/-! ## One producer -/

/-- The law of the spill after `k` calls: the next call stays in range, it returns the
preferred shard before the threshold, and from there on as many calls as there are shards
return pairwise distinct shards. -/
structure SpillsEvenly (mask hash k : ℕ) : Prop where
  le_mask : routeAt mask hash k ≤ mask
  preferred : k < SPILL_THRESHOLD → routeAt mask hash k = hash &&& mask
  distinct : SPILL_THRESHOLD ≤ k → ∀ i ≤ mask, ∀ j ≤ mask,
    routeAt mask hash (k + i) = routeAt mask hash (k + j) → i = j

/-- Counters less than a round apart give different shards. -/
lemma and_mask_add_inj {mask b p x i j : ℕ} (hmask : mask + 1 = 2 ^ b) (hi : i ≤ mask)
    (hj : j ≤ mask) (h : (p + (x + i)) &&& mask = (p + (x + j)) &&& mask) : i = j := by
  have hpred : mask = 2 ^ b - 1 := by omega
  rw [hpred, Nat.and_two_pow_sub_one_eq_mod, Nat.and_two_pow_sub_one_eq_mod, ← hmask] at h
  have hsum : p + x + i ≡ p + x + j [MOD mask + 1] := by
    rw [Nat.add_assoc, Nat.add_assoc]
    exact h
  have hmod : i ≡ j [MOD mask + 1] := Nat.ModEq.add_left_cancel' (p + x) hsum
  exact hmod.eq_of_lt_of_lt (by omega) (by omega)

/-- **When the spill rotates.**  With at least two shards, the law of the spill holds exactly
while the producer is below the threshold or the whole next round fits below the limit of the
counter. -/
theorem spillsEvenly_iff {mask b : ℕ} (hmask : mask + 1 = 2 ^ b) (hpos : 0 < mask)
    (hash k : ℕ) :
    SpillsEvenly mask hash k ↔ k < SPILL_THRESHOLD ∨ k + (mask + 1) ≤ u32Max := by
  have hthreshold : SPILL_THRESHOLD = 8 := rfl
  have hrange : routeAt mask hash k ≤ mask := routeShard_le _ _ _
  constructor
  · intro h
    by_contra hnot
    push Not at hnot
    obtain ⟨hk, hlimit⟩ := hnot
    -- the last two calls of the round both find the counter at its limit
    have hlast : routeAt mask hash (k + (mask - 1)) = routeAt mask hash (k + mask) :=
      routeAt_of_saturated mask hash (by omega) (by omega)
    have heq := h.distinct hk (mask - 1) (by omega) mask le_rfl hlast
    omega
  · rintro (hk | hlimit)
    · exact ⟨hrange, routeAt_of_lt mask hash, fun hle => absurd hk (Nat.not_lt_of_le hle)⟩
    · refine ⟨hrange, routeAt_of_lt mask hash, fun hk i hi j hj heq => ?_⟩
      have hwalk : ∀ l ≤ mask, routeAt mask hash (k + l) =
          ((hash &&& mask) + (k + 1 - SPILL_THRESHOLD + l)) &&& mask := by
        intro l hl
        have hfit : k + l + 1 ≤ u32Max :=
          le_trans (Nat.add_le_add_right (Nat.add_le_add_left hl k) 1) hlimit
        have hcount : k + l + 1 - SPILL_THRESHOLD = k + 1 - SPILL_THRESHOLD + l := by omega
        rw [routeAt_of_le mask hash (hk.trans (Nat.le_add_right k l)), min_eq_left hfit, hcount]
      rw [hwalk i hi, hwalk j hj] at heq
      exact and_mask_add_inj hmask hi hj heq

/-- A producer past its ninth push still goes round. -/
theorem spillsEvenly_nine : SpillsEvenly 7 5 9 :=
  (spillsEvenly_iff (b := 3) rfl (by decide) 5 9).mpr (Or.inr (by decide))

/-- At the limit of the counter, the spill of a queue with two shards stops at one of them. -/
theorem not_spillsEvenly :
    routeAt 1 0 (2 ^ 32 - 2) = routeAt 1 0 (2 ^ 32 - 1) ∧ ¬ SpillsEvenly 1 0 (2 ^ 32 - 2) := by
  have hmax : u32Max = 4294967295 := rfl
  have hsame : routeAt 1 0 (2 ^ 32 - 2) = routeAt 1 0 (2 ^ 32 - 1) :=
    routeAt_of_saturated 1 0 (by omega) (by omega)
  refine ⟨hsame, fun h => ?_⟩
  have heq := h.distinct (by decide) 0 (by decide) 1 (by decide) hsame
  cases heq

end AffinityPool
