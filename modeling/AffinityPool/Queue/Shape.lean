import Mathlib.Data.Nat.Bitwise
import Mathlib.Data.Nat.Log
import Mathlib.Data.Fintype.Basic

/-!
# The shape of a queue

`Queue::new` fixes the number of workers and the number of injector shards of a pool for
its whole life.  The shard count is a power of two, kept as `mask = num_shards - 1`, so
that routing is a bitmask.  `Shape` carries these facts as fields; shard and worker indices
are bounded by construction.
-/

namespace AffinityPool

/-- Maximum number of worker threads allowed in a thread pool. -/
def MAX_THREADS : ℕ := 512

/-- Default cap on the shard count. -/
def MAX_SHARDS : ℕ := 8

/-- The number of values of a `usize`. -/
def usizeBound : ℕ := 2 ^ 64

/-- The part of `Queue` that never changes: `stealers.len()` and `mask`. -/
structure Shape where
  /-- The number of workers, the length of `stealers`. -/
  numWorkers : ℕ
  /-- `num_shards - 1`. -/
  mask : ℕ
  numWorkers_pos : 0 < numWorkers
  /-- Every worker has a slot of its own in memory. -/
  numWorkers_lt : 2 * numWorkers < usizeBound
  /-- `num_shards` is a power of two. -/
  shards_pow : ∃ b, mask + 1 = 2 ^ b

namespace Shape

/-- Worker indices. -/
abbrev Worker (q : Shape) : Type := Fin q.numWorkers

/-- Injector indices. -/
abbrev Shard (q : Shape) : Type := Fin (q.mask + 1)

/-- Masking an index brings it in range. -/
def shard (q : Shape) (x : ℕ) : q.Shard :=
  ⟨x &&& q.mask, Nat.lt_succ_of_le Nat.and_le_right⟩

/-- Masking is the remainder by the number of shards. -/
lemma and_mask (q : Shape) (x : ℕ) : x &&& q.mask = x % (q.mask + 1) := by
  obtain ⟨b, hb⟩ := q.shards_pow
  have hmask : q.mask = 2 ^ b - 1 := by omega
  rw [hb, hmask, Nat.and_two_pow_sub_one_eq_mod]

@[simp] lemma shard_val (q : Shape) (x : ℕ) : (q.shard x).val = x % (q.mask + 1) :=
  q.and_mask x

instance (q : Shape) : Nonempty q.Worker := ⟨⟨0, q.numWorkers_pos⟩⟩

instance (priority := high) (q : Shape) : NeZero (q.mask + 1) := ⟨Nat.succ_ne_zero q.mask⟩

end Shape

/-! ## `Queue::new` -/

/-- `usize::next_power_of_two`: the smallest power of two that is at least `n`. -/
def nextPowerOfTwo (n : ℕ) : ℕ := 2 ^ Nat.clog 2 n

/-- `Ord::clamp`. -/
def clamp (n lo hi : ℕ) : ℕ := if n < lo then lo else if hi < n then hi else n

/-- The shard count `Queue::new` computes. -/
def numShards (numWorkers : ℕ) : Option ℕ → ℕ
  | some n => nextPowerOfTwo (clamp n 1 numWorkers)
  | none => clamp (nextPowerOfTwo numWorkers) 1 MAX_SHARDS

/-- Clamping yields one of the bounds or the value itself. -/
lemma clamp_cases (n lo hi : ℕ) : clamp n lo hi = lo ∨ clamp n lo hi = hi ∨ clamp n lo hi = n := by
  unfold clamp
  split
  · exact Or.inl rfl
  · split
    · exact Or.inr (Or.inl rfl)
    · exact Or.inr (Or.inr rfl)

/-- The shard count is a power of two, with or without an override. -/
lemma numShards_pow (numWorkers : ℕ) (shardOverride : Option ℕ) :
    ∃ b, numShards numWorkers shardOverride = 2 ^ b := by
  cases shardOverride with
  | some n => exact ⟨_, rfl⟩
  | none =>
    have hclamp := clamp_cases (nextPowerOfTwo numWorkers) 1 MAX_SHARDS
    rcases hclamp with h | h | h
    · exact ⟨0, h⟩
    · exact ⟨3, h⟩
    · exact ⟨_, h⟩

/-- Rounding up to a power of two less than doubles. -/
lemma nextPowerOfTwo_lt {n : ℕ} (hpos : 0 < n) : nextPowerOfTwo n < 2 * n := by
  unfold nextPowerOfTwo
  by_cases hn : 1 < n
  · have hpred := Nat.pow_pred_clog_lt_self (b := 2) Nat.one_lt_two hn
    have hclog : 0 < Nat.clog 2 n := Nat.clog_pos Nat.one_lt_two hn
    calc 2 ^ Nat.clog 2 n = 2 ^ (Nat.clog 2 n).pred * 2 := by
          rw [← Nat.pow_succ, Nat.succ_pred_eq_of_pos hclog]
      _ < n * 2 := Nat.mul_lt_mul_of_pos_right hpred Nat.two_pos
      _ = 2 * n := Nat.mul_comm n 2
  · have hone : n = 1 := by omega
    subst hone
    simp

/-- Rounding up stays below every power of two above. -/
lemma nextPowerOfTwo_le {n k : ℕ} (h : n ≤ 2 ^ k) : nextPowerOfTwo n ≤ 2 ^ k :=
  Nat.pow_le_pow_right Nat.two_pos (Nat.clog_le_of_le_pow h)

/-- The shard count is less than twice the number of workers. -/
lemma numShards_lt {n : ℕ} (hpos : 0 < n) (shards : Option ℕ) : numShards n shards < 2 * n := by
  cases shards with
  | some m =>
    have hclamp : 0 < clamp m 1 n ∧ clamp m 1 n ≤ n := by
      unfold clamp
      split_ifs <;> omega
    have hround := nextPowerOfTwo_lt hclamp.1
    simp only [numShards]
    omega
  | none =>
    have hround := nextPowerOfTwo_lt hpos
    simp only [numShards]
    unfold clamp
    split_ifs <;> omega

/-- The shard count of a pool is at most `MAX_THREADS`. -/
lemma numShards_le {n : ℕ} (hpos : 0 < n) (hle : n ≤ MAX_THREADS) (shards : Option ℕ) :
    numShards n shards ≤ MAX_THREADS := by
  cases shards with
  | some m =>
    have hclamp : clamp m 1 n ≤ n := by
      unfold clamp
      split_ifs <;> omega
    exact nextPowerOfTwo_le (k := 9) (hclamp.trans hle)
  | none =>
    have hround : nextPowerOfTwo n ≤ MAX_THREADS := nextPowerOfTwo_le (k := 9) hle
    have hshards : MAX_SHARDS ≤ MAX_THREADS := by decide
    simp only [numShards]
    unfold clamp
    split_ifs
    · exact hpos.trans_le hle
    · exact hshards
    · exact hround

/-- `Queue::new` on a worker count its callers have clamped to `1..=MAX_THREADS`. -/
def Shape.new (numWorkers : ℕ) (shardOverride : Option ℕ) (hpos : 0 < numWorkers)
    (hle : numWorkers ≤ MAX_THREADS) : Shape where
  numWorkers := numWorkers
  mask := numShards numWorkers shardOverride - 1
  numWorkers_pos := hpos
  numWorkers_lt := by
    have hmax : MAX_THREADS = 512 := rfl
    have husize : usizeBound = 18446744073709551616 := rfl
    omega
  shards_pow := by
    obtain ⟨b, hb⟩ := numShards_pow numWorkers shardOverride
    have hpos : 0 < 2 ^ b := Nat.two_pow_pos b
    exact ⟨b, by omega⟩

/-! ## Small pools -/

/-- The queue of a pool with one worker, whatever shard count is asked for. -/
abbrev single (shardOverride : Option ℕ) : Shape := .new 1 shardOverride Nat.one_pos (by decide)

/-- The queue of a pool with one worker. -/
def solo : Shape := .new 1 none Nat.one_pos (by decide)

/-- The queue of a pool with two workers and one shard. -/
def duo : Shape := .new 2 (some 1) Nat.two_pos (by decide)

/-- The queue of a pool with two workers and two shards. -/
def pair : Shape := .new 2 (some 2) Nat.two_pos (by decide)

/-- The queue of a pool with three workers and one shard. -/
def trio : Shape := .new 3 (some 1) (by decide) (by decide)

end AffinityPool
