import AffinityPool.Foundation.Sharing
import AffinityPool.Queue.Streams
import Mathlib.Data.Set.Card

/-!
# How evenly scans probe

A cheap scan of a large pool visits only some of the other injectors and of the other workers.
Which ones depends on the state of the worker's random stream.  The generator permutes its
states, the multiplication and shift share its words out nearly evenly, and a walk that is cut
short covers every place from as many starts as it has visits.  So no victim is
neglected: each one is visited from nearly the same number of states (`probes_balanced`).
-/

namespace AffinityPool

open Transition

/-! ## States and words -/

/-- The generator permutes its states. -/
lemma nextRand_injective : Function.Injective nextRand := by
  intro x y h
  have hbits := congrArg UInt32.toBitVec h
  rw [nextRand_toBitVec, nextRand_toBitVec] at hbits
  have hsame := Xorshift.next_injective (by decide) (by decide) (by decide) hbits
  exact UInt32.toBitVec_inj.mp hsame

/-- There are finitely many states. -/
lemma finite_states : Finite UInt32 :=
  Finite.of_injective (fun x => (⟨x.toNat, x.toNat_lt⟩ : Fin (2 ^ 32))) fun _ _ h =>
    UInt32.toNat_inj.mp (congrArg Fin.val h)

/-- As many states lead to a word with a property as there are such words. -/
lemma ncard_states (p : ℕ → Prop) [DecidablePred p] :
    {x : UInt32 | p (nextRand x).toNat}.ncard = ((Finset.range (2 ^ 32)).filter p).card := by
  have hfinite := finite_states
  have hinj : Function.Injective fun x : UInt32 => (nextRand x).toNat := by
    intro x y h
    exact nextRand_injective (UInt32.toNat_inj.mp h)
  rw [← Set.ncard_image_of_injective _ hinj, ← Set.ncard_coe_finset]
  congr 1
  ext n
  simp only [Set.mem_image, Set.mem_ofPred_eq, Finset.coe_filter, Finset.mem_range]
  constructor
  · rintro ⟨x, hx, rfl⟩
    exact ⟨(nextRand x).toNat_lt, hx⟩
  · rintro ⟨hn, hp⟩
    obtain ⟨x, hx⟩ := Finite.surjective_of_injective nextRand_injective (UInt32.ofNat n)
    have hword : (nextRand x).toNat = n := by
      rw [hx, UInt32.toNat_ofNat_of_lt' hn]
    exact ⟨x, by rw [hword]; exact hp, hword⟩

/-- The product of a word and a span does not wrap. -/
lemma fastReduce_eq {span : ℕ} (hspan : span < 2 ^ 32) (rand : UInt32) :
    fastReduce rand span = rand.toNat * span / 2 ^ 32 := by
  unfold fastReduce
  rw [Nat.mod_eq_of_lt]
  have hprod := Nat.mul_lt_mul'' rand.toNat_lt hspan
  omega

/-- The states are as many as they should be when a walk of `limit` visits covers `span` places; the
state zero, in which no generator is, may be missing. -/
structure EvenShare (span limit : ℕ) (states : Set UInt32) : Prop where
  low : limit * (2 ^ 32 / span) ≤ states.ncard + 1
  high : states.ncard ≤ limit * (2 ^ 32 / span + 1)

/-- The states from which a walk comes to a place. -/
lemma evenShare_walk {span limit v : ℕ} (hspan : span < 2 ^ 32) (hv : v < span)
    (hlimit : limit ≤ span) :
    EvenShare span limit {x : UInt32 | x ≠ 0 ∧
      ∃ k < limit, rotation (fastReduce (nextRand x) span) span k = v} := by
  have hfinite := finite_states
  have hbounds := card_reaching_bounds (Nat.two_pow_pos 32) (Nat.zero_lt_of_lt hv) hv hlimit
  have hall : {x : UInt32 | ∃ k < limit,
      rotation (fastReduce (nextRand x) span) span k = v}.ncard =
        (reaching (2 ^ 32) span limit v).card := by
    simp only [fastReduce_eq hspan]
    exact ncard_states fun n => ∃ k < limit, wrapAt span (n * span / 2 ^ 32 + k) = v
  have hdiff : {x : UInt32 | x ≠ 0 ∧
      ∃ k < limit, rotation (fastReduce (nextRand x) span) span k = v} =
        {x : UInt32 | ∃ k < limit, rotation (fastReduce (nextRand x) span) span k = v} \ {0} := by
    ext x
    exact and_comm
  rw [← hall] at hbounds
  rw [hdiff]
  constructor
  · have hone := Set.pred_ncard_le_ncard_sdiff_singleton
      {x : UInt32 | ∃ k < limit, rotation (fastReduce (nextRand x) span) span k = v} 0
    omega
  · exact (Set.ncard_sdiff_singleton_le _ _).trans hbounds.2

/-! ## The two walks -/

namespace Shape

variable {q : Shape}

/-- The place of another shard on the walk over the injectors. -/
lemma exists_place_otherShards (i : q.Worker) {s : q.Shard} (hs : s ≠ q.myShard i) :
    ∃ r < q.mask, ∀ b rand, s ∈ q.otherShards i b rand ↔
      ∃ k < probeLimit q.mask b, rotation (fastReduce rand q.mask) q.mask k = r := by
  obtain ⟨k₀, hk₀⟩ := List.mem_ofFn.mp (mem_otherShards_strict i 0 hs)
  have hspan : 0 < q.mask := Nat.zero_lt_of_lt k₀.isLt
  have hplace : ∀ rand k, k < q.mask →
      rotation (fastReduce rand q.mask) q.mask k < q.mask := by
    intro rand k hk
    have hstart := fastReduce_lt rand hspan
    exact wrapAt_lt (by omega)
  refine ⟨_, hplace 0 k₀ k₀.isLt, fun b rand => ?_⟩
  have hlimit := probeLimit_le q.mask b
  constructor
  · intro hmem
    obtain ⟨k, hk⟩ := List.mem_ofFn.mp hmem
    have hkl : k.val < probeLimit q.mask b := k.isLt
    exact ⟨k, hkl, rotation_eq_of_shard_eq (hplace rand k (by omega)) (hplace 0 k₀ k₀.isLt)
      (hk.trans hk₀.symm)⟩
  · rintro ⟨k, hk, hrot⟩
    refine List.mem_ofFn.mpr ⟨⟨k, hk⟩, ?_⟩
    dsimp only
    rw [Nat.add_sub_cancel, hrot]
    exact hk₀

/-- The place of another worker on the walk over the deques. -/
lemma exists_place_peers (i : q.Worker) {w : q.Worker} (hw : w ≠ i) :
    ∃ r < q.numWorkers - 1, ∀ b rand, w ∈ q.peers i b rand ↔
      ∃ k < probeLimit (q.numWorkers - 1) b,
        rotation (fastReduce rand (q.numWorkers - 1)) (q.numWorkers - 1) k = r := by
  obtain ⟨k₀, hk₀⟩ := List.mem_ofFn.mp (mem_peers_strict i 0 hw)
  have hk₀l : k₀.val < q.numWorkers - 1 := k₀.isLt
  have hplace : ∀ rand k, k < q.numWorkers - 1 →
      rotation (fastReduce rand (q.numWorkers - 1)) (q.numWorkers - 1) k < q.numWorkers - 1 := by
    intro rand k hk
    have hstart := fastReduce_lt rand (Nat.zero_lt_of_lt hk)
    exact wrapAt_lt (by omega)
  refine ⟨_, hplace 0 k₀ hk₀l, fun b rand => ?_⟩
  have hlimit := probeLimit_le (q.numWorkers - 1) b
  have hw₀ := congrArg Fin.val hk₀
  constructor
  · intro hmem
    obtain ⟨k, hk⟩ := List.mem_ofFn.mp hmem
    have hkl : k.val < probeLimit (q.numWorkers - 1) b := k.isLt
    have hsame := (congrArg Fin.val hk).trans hw₀.symm
    have hk' := hplace rand k (by omega)
    have hk₀' := hplace 0 k₀ hk₀l
    exact ⟨k, hkl, wrapAt_add_inj (by omega) (by omega) hsame⟩
  · rintro ⟨k, hk, hrot⟩
    refine List.mem_ofFn.mpr ⟨⟨k, hk⟩, Fin.ext ?_⟩
    dsimp only
    rw [victimIndex, hrot]
    exact hw₀

end Shape

/-- **No victim is neglected.**  In a pool of any size its builder allows, every other injector and
every other worker is among the victims of a scan from nearly the same number of the states
the random stream of the scanning worker can be in, also when the walks are cut short. -/
theorem probes_balanced {n : ℕ} (hpos : 0 < n) (hle : n ≤ MAX_THREADS) (shards : Option ℕ)
    (i : (Shape.new n shards hpos hle).Worker) (b : Probe) :
    let q := Shape.new n shards hpos hle
    (∀ s ≠ q.myShard i, EvenShare q.mask (probeLimit q.mask b)
      {x | x ≠ 0 ∧ s ∈ q.otherShards i b (nextRand x)}) ∧
    ∀ w ≠ i, EvenShare (q.numWorkers - 1) (probeLimit (q.numWorkers - 1) b)
      {x | x ≠ 0 ∧ w ∈ q.peers i b (nextRand x)} := by
  intro q
  have hmax : MAX_THREADS = 512 := rfl
  have hworkers : q.numWorkers ≤ MAX_THREADS := hle
  have hmask : q.mask < MAX_THREADS := by
    have hshards := numShards_le hpos hle shards
    have hlast : q.mask = numShards n shards - 1 := rfl
    omega
  constructor
  · intro s hs
    obtain ⟨r, hr, hmem⟩ := Shape.exists_place_otherShards (q := q) i hs
    simp only [hmem]
    exact evenShare_walk (by omega) hr (probeLimit_le _ b)
  · intro w hw
    obtain ⟨r, hr, hmem⟩ := Shape.exists_place_peers (q := q) i hw
    simp only [hmem]
    exact evenShare_walk (by omega) hr (probeLimit_le _ b)

/-- The queue of a pool with twenty workers. -/
def twenty : Shape := .new 20 none (by decide) (by decide)

/-- A cheap scan visits eight of the nineteen other workers there: each of them from eight
nineteenths of the states. -/
theorem probes_balanced_twenty :
    probeLimit (twenty.numWorkers - 1) .cheap = 8 ∧
      ∀ w : twenty.Worker, w.val ≠ 0 →
        1808407280 ≤
          {x | x ≠ 0 ∧ w ∈ twenty.peers ⟨0, by decide⟩ .cheap (nextRand x)}.ncard + 1 := by
  refine ⟨by decide, fun w hw => ?_⟩
  have hlow := ((probes_balanced (by decide) (by decide) none ⟨0, by decide⟩ .cheap).2 w
    fun h => hw (congrArg Fin.val h)).low
  have hquotient : probeLimit (twenty.numWorkers - 1) .cheap *
      (2 ^ 32 / (twenty.numWorkers - 1)) = 1808407280 := by decide
  exact hquotient.symm.trans_le hlow

end AffinityPool
