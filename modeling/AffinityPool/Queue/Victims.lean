import AffinityPool.Foundation.Rotation
import AffinityPool.Queue.Shape
import Mathlib.Data.List.OfFn
import Mathlib.Data.Nat.ModEq
import Mathlib.Data.UInt

/-!
# The victims of a scan

The two cross-worker steps of `Queue::scan` walk the other injectors and the other workers'
deques from a random rotation.  This file has the random stream (`next_rand`), its
reduction to a start offset (`fast_reduce`), the bound on a walk (`probe_limit`) and the two
index computations, with the walks they give: `otherShards` and `peers`.

The indices are in range by construction.  A walk that is not cut short visits every other
shard and every other worker (`mem_otherShards_strict`, `mem_peers_strict`).
-/

namespace AffinityPool

open Transition

/-- How hard a scan pass works to notice a runnable. -/
inductive Probe
  /-- Skip a victim whose `is_empty()` says empty. -/
  | cheap
  /-- Always attempt the steal. -/
  | strict
  deriving DecidableEq

/-- Victims a cheap scan pass inspects before giving up, per step. -/
def CHEAP_SCAN_VICTIMS : ℕ := 8

/-- Re-scans performed with `spin_loop` backoff before a worker commits to a park. -/
def SPIN_ROUNDS : ℕ := 6

/-- `next_rand`: advance an xorshift32. -/
def nextRand (rng : UInt32) : UInt32 :=
  let x := rng ^^^ (rng <<< 13)
  let x := x ^^^ (x >>> 17)
  x ^^^ (x <<< 5)

/-- `fast_reduce`: the upper half of a 64-bit product. -/
def fastReduce (rand : UInt32) (span : ℕ) : ℕ := rand.toNat * span % 2 ^ 64 / 2 ^ 32

/-- The seed of a worker's random stream. -/
def rngSeed (idx : ℕ) : UInt32 := (UInt32.ofNat idx * 0x9E3779B9) ||| 1

/-- `Queue::probe_limit`: how many of `span` victims one scan step walks. -/
def probeLimit (span : ℕ) : Probe → ℕ
  | .cheap => min span CHEAP_SCAN_VICTIMS
  | .strict => span

/-- The multiplication and shift map every random value into the span, also where the
product wraps. -/
lemma fastReduce_lt (rand : UInt32) {span : ℕ} (h : 0 < span) : fastReduce rand span < span := by
  have hrand : rand.toNat < 2 ^ 32 := rand.toNat_lt
  unfold fastReduce
  rw [Nat.div_lt_iff_lt_mul (by norm_num)]
  calc rand.toNat * span % 2 ^ 64 ≤ rand.toNat * span := Nat.mod_le _ _
    _ < 2 ^ 32 * span := Nat.mul_lt_mul_of_pos_right hrand h
    _ = span * 2 ^ 32 := Nat.mul_comm _ _

/-- No walk is longer than its span. -/
lemma probeLimit_le (span : ℕ) (b : Probe) : probeLimit span b ≤ span := by
  cases b
  · exact Nat.min_le_left _ _
  · exact le_rfl

/-! ## Index computations -/

/-- The rotation of the `k`-th visit of a walk: `start + k`, wrapped around at `span`. -/
def rotation (start span k : ℕ) : ℕ := wrapAt span (start + k)

/-- The worker the `k`-th visit of the peer walk steals from. -/
def victimIndex (numWorkers idx start k : ℕ) : ℕ :=
  wrapAt numWorkers (idx + 1 + rotation start (numWorkers - 1) k)

/-- The peer walk stays in range. -/
lemma victimIndex_lt {n idx start k : ℕ} (hidx : idx < n) (hs : start < n - 1)
    (hk : k < n - 1) : victimIndex n idx start k < n := by
  have hrot : rotation start (n - 1) k < n - 1 := wrapAt_lt (by omega)
  exact wrapAt_lt (by omega)

/-- The peer walk never visits the walking worker. -/
lemma victimIndex_ne {n idx start k : ℕ} (hs : start < n - 1)
    (hk : k < n - 1) : victimIndex n idx start k ≠ idx := by
  have hrot : rotation start (n - 1) k < n - 1 := wrapAt_lt (by omega)
  unfold victimIndex wrapAt
  split <;> omega

/-- The peer walk visits every other worker. -/
lemma exists_victimIndex_eq {n idx start v : ℕ} (hidx : idx < n) (hs : start < n - 1)
    (hv : v < n) (hne : v ≠ idx) : ∃ k < n - 1, victimIndex n idx start k = v := by
  rcases Nat.lt_or_gt_of_ne hne with h | h
  · obtain ⟨k, hk, hr⟩ := exists_wrapAt_add_eq (r := v + n - idx - 1) hs (by omega)
    refine ⟨k, hk, ?_⟩
    rw [victimIndex, rotation, hr, wrapAt, if_pos (by omega)]
    omega
  · obtain ⟨k, hk, hr⟩ := exists_wrapAt_add_eq (r := v - idx - 1) hs (by omega)
    refine ⟨k, hk, ?_⟩
    rw [victimIndex, rotation, hr, wrapAt, if_neg (by omega)]
    omega

/-- The peer walk visits no worker twice. -/
lemma victimIndex_inj {n idx start j k : ℕ} (hs : start < n - 1) (hj : j < n - 1) (hk : k < n - 1)
    (h : victimIndex n idx start j = victimIndex n idx start k) : j = k := by
  have hrj : rotation start (n - 1) j < n - 1 := wrapAt_lt (by omega)
  have hrk : rotation start (n - 1) k < n - 1 := wrapAt_lt (by omega)
  have hrot : rotation start (n - 1) j = rotation start (n - 1) k :=
    wrapAt_add_inj (by omega) (by omega) h
  exact wrapAt_add_inj hj hk hrot

namespace Shape

variable (q : Shape)

/-- The preferred shard of a worker. -/
def myShard (i : q.Worker) : q.Shard := q.shard i

/-- The shards the third step of a scan visits, in order. -/
def otherShards (i : q.Worker) (b : Probe) (rand : UInt32) : List q.Shard :=
  let span := q.mask + 1 - 1
  let start := fastReduce rand span
  List.ofFn fun k : Fin (probeLimit span b) =>
    q.shard ((q.myShard i).val + 1 + rotation start span k)

/-- The workers the fourth step of a scan visits, in order. -/
def peers (i : q.Worker) (b : Probe) (rand : UInt32) : List q.Worker :=
  let span := q.numWorkers - 1
  let start := fastReduce rand span
  List.ofFn fun k : Fin (probeLimit span b) =>
    have hk : k.val < span := lt_of_lt_of_le k.isLt (probeLimit_le span b)
    ⟨victimIndex q.numWorkers i start k,
      victimIndex_lt i.isLt (fastReduce_lt rand (Nat.zero_lt_of_lt hk)) hk⟩

variable {q}

/-- A strict walk visits every shard but the preferred one. -/
lemma mem_otherShards_strict (i : q.Worker) (rand : UInt32) {s : q.Shard}
    (hs : s ≠ q.myShard i) : s ∈ q.otherShards i .strict rand := by
  have hne : s.val ≠ (q.myShard i).val := fun h => hs (Fin.ext h)
  have hsl : s.val < q.mask + 1 := s.isLt
  have hml : (q.myShard i).val < q.mask + 1 := (q.myShard i).isLt
  have hspan : 0 < q.mask + 1 - 1 := by omega
  have hstart := fastReduce_lt rand hspan
  -- the distance from the preferred shard, less one, is the rotation that reaches `s`
  obtain ⟨r, hr, hmod⟩ : ∃ r < q.mask + 1 - 1,
      ((q.myShard i).val + 1 + r) % (q.mask + 1) = s.val := by
    rcases Nat.lt_or_gt_of_ne hne with h | h
    · refine ⟨s.val + (q.mask + 1) - (q.myShard i).val - 1, by omega, ?_⟩
      have hsum : (q.myShard i).val + 1 + (s.val + (q.mask + 1) - (q.myShard i).val - 1) =
          s.val + (q.mask + 1) := by omega
      rw [hsum, Nat.add_mod_right, Nat.mod_eq_of_lt hsl]
    · refine ⟨s.val - (q.myShard i).val - 1, by omega, ?_⟩
      have hsum : (q.myShard i).val + 1 + (s.val - (q.myShard i).val - 1) = s.val := by omega
      rw [hsum, Nat.mod_eq_of_lt hsl]
  obtain ⟨k, hk, hrot⟩ := exists_wrapAt_add_eq hstart hr
  refine List.mem_ofFn.mpr ⟨⟨k, hk⟩, Fin.ext ?_⟩
  rw [shard_val, rotation, hrot, hmod]

/-- The distance of a visited shard from the preferred one, less one, is the rotation. -/
lemma rotation_eq_of_shard_eq {x a b : ℕ} (ha : a < q.mask) (hb : b < q.mask)
    (h : q.shard (x + 1 + a) = q.shard (x + 1 + b)) : a = b := by
  have hval := congrArg Fin.val h
  rw [shard_val, shard_val] at hval
  have hmod : a ≡ b [MOD q.mask + 1] := Nat.ModEq.add_left_cancel' (x + 1) hval
  exact hmod.eq_of_lt_of_lt (by omega) (by omega)

/-- No walk visits a shard twice. -/
lemma otherShards_nodup (i : q.Worker) (b : Probe) (rand : UInt32) :
    (q.otherShards i b rand).Nodup := by
  refine List.nodup_ofFn.mpr fun j k h => Fin.ext ?_
  have hj : j.val < q.mask := lt_of_lt_of_le j.isLt (probeLimit_le _ b)
  have hk : k.val < q.mask := lt_of_lt_of_le k.isLt (probeLimit_le _ b)
  have hstart : fastReduce rand (q.mask + 1 - 1) < q.mask :=
    fastReduce_lt rand (Nat.zero_lt_of_lt hj)
  have hrot := q.rotation_eq_of_shard_eq (wrapAt_lt (by omega)) (wrapAt_lt (by omega)) h
  exact wrapAt_add_inj hj hk hrot

/-- No walk over the other shards visits the preferred one. -/
lemma ne_of_mem_otherShards {i : q.Worker} {b : Probe} {rand : UInt32} {s : q.Shard}
    (h : s ∈ q.otherShards i b rand) : s ≠ q.myShard i := by
  obtain ⟨k, rfl⟩ := List.mem_ofFn.mp h
  have hk : k.val < q.mask := lt_of_lt_of_le k.isLt (probeLimit_le _ b)
  have hstart : fastReduce rand q.mask < q.mask := fastReduce_lt rand (Nat.zero_lt_of_lt hk)
  have hrot : rotation (fastReduce rand q.mask) q.mask k < q.mask := wrapAt_lt (by omega)
  intro heq
  -- the preferred shard is a whole round away
  have hround : q.shard (q.myShard i + q.mask + 1) = q.myShard i := by
    rw [Fin.ext_iff, shard_val, Nat.add_assoc, Nat.add_mod_right, Nat.mod_eq_of_lt (Fin.isLt _)]
  have hval := congrArg Fin.val (heq.trans hround.symm)
  rw [shard_val, shard_val] at hval
  have hsum : (q.myShard i).val + 1 + rotation (fastReduce rand q.mask) q.mask k ≡
      (q.myShard i).val + 1 + q.mask [MOD q.mask + 1] := by
    rw [Nat.add_right_comm _ 1 q.mask]
    exact hval
  have hmod := Nat.ModEq.add_left_cancel' _ hsum
  have hlast := hmod.eq_of_lt_of_lt (by omega) (by omega)
  omega

/-- A strict walk visits every worker but the walking one. -/
lemma mem_peers_strict (i : q.Worker) (rand : UInt32) {w : q.Worker} (hw : w ≠ i) :
    w ∈ q.peers i .strict rand := by
  have hne : w.val ≠ i.val := fun h => hw (Fin.ext h)
  have hwl : w.val < q.numWorkers := w.isLt
  have hil : i.val < q.numWorkers := i.isLt
  have hspan : 0 < q.numWorkers - 1 := by omega
  obtain ⟨k, hk, hv⟩ :=
    exists_victimIndex_eq hil (fastReduce_lt rand hspan) hwl hne
  exact List.mem_ofFn.mpr ⟨⟨k, hk⟩, Fin.ext hv⟩

/-- No walk visits the walking worker's own deque. -/
lemma ne_of_mem_peers {i : q.Worker} {b : Probe} {rand : UInt32} {w : q.Worker}
    (h : w ∈ q.peers i b rand) : w ≠ i := by
  obtain ⟨k, rfl⟩ := List.mem_ofFn.mp h
  have hk : k.val < q.numWorkers - 1 := lt_of_lt_of_le k.isLt (probeLimit_le _ b)
  intro heq
  exact victimIndex_ne (fastReduce_lt rand (Nat.zero_lt_of_lt hk)) hk
    (congrArg Fin.val heq)

/-- No walk visits a worker twice. -/
lemma peers_nodup (i : q.Worker) (b : Probe) (rand : UInt32) : (q.peers i b rand).Nodup := by
  refine List.nodup_ofFn.mpr fun j k h => Fin.ext ?_
  have hj : j.val < q.numWorkers - 1 := lt_of_lt_of_le j.isLt (probeLimit_le _ b)
  have hk : k.val < q.numWorkers - 1 := lt_of_lt_of_le k.isLt (probeLimit_le _ b)
  exact victimIndex_inj (fastReduce_lt rand (Nat.zero_lt_of_lt hj)) hj hk (congrArg Fin.val h)

end Shape

end AffinityPool
