import AffinityPool.Queue.Cpu
import Mathlib.Data.List.Infix
import Mathlib.Data.Nat.ModEq
import Mathlib.Logic.Function.Basic

/-!
# Producers and pools

The routing state belongs to the thread, not to a pool: all pools a thread pushes to share its hint
and its counter.  A push to a pool of one shard does not touch it.  Any other push counts
on when the push before it preferred the shard of the same index, in whatever pool, and starts again
at one otherwise.

`Shape.routed` is the routing state after any history of pushes to any pools, latest first, and
`streak` what the counter counts.  A push leaves its preferred shard exactly when the streak
before it is at least `SPILL_THRESHOLD` long and the walk has not just come round
(`target_eq_preferred_iff`).

The counter does not see the pushes of other threads.  So however the pushes of several producers
to several pools interleave, the producers of a pool stay on their shards exactly when the
streaks of their own pushes say so (`affine_iff`).
-/

namespace AffinityPool

/-- The routing state of a thread after a foreign push to a pool. -/
def Shape.route (q : Shape) (hash : ℕ) (cell : Option ProducerRoute) : Option ProducerRoute :=
  if q.mask = 0 then cell else some (routeShard q.mask hash cell).1

/-- The routing state of a thread after its foreign pushes to the given pools, latest first. -/
def routed (hash : ℕ) : List Shape → Option ProducerRoute
  | [] => none
  | q :: earlier => q.route hash (routed hash earlier)

/-- How many of the latest pushes to pools of several shards preferred the shard `p`. -/
def streak (hash p : ℕ) : List Shape → ℕ
  | [] => 0
  | q :: earlier =>
    if q.mask = 0 then streak hash p earlier
    else if hash &&& q.mask = p then streak hash p earlier + 1 else 0

/-- The counter of the thread is the streak of the shard it preferred last, as far as it counts, and
no other shard has a streak. -/
structure Counts (hash : ℕ) (earlier : List Shape) (r : ProducerRoute) : Prop where
  hint : r.shardHint = hash
  consecutive : r.consecutive = min (streak hash r.lastPreferred earlier) u32Max
  others : ∀ p, p ≠ r.lastPreferred → streak hash p earlier = 0

/-- **Step lemma.**  The counter after one more push. -/
lemma Counts.route {hash : ℕ} {earlier : List Shape} {cell : Option ProducerRoute}
    (h : Counts hash earlier (.get hash cell)) (q : Shape) :
    Counts hash (q :: earlier) (.get hash (q.route hash cell)) := by
  by_cases hq : q.mask = 0
  · simp only [Shape.route, hq, if_true]
    refine ⟨h.hint, ?_, fun p hp => ?_⟩
    · rw [streak, if_pos hq]
      exact h.consecutive
    · rw [streak, if_pos hq]
      exact h.others p hp
  · simp only [Shape.route, hq, if_false, routeShard, ProducerRoute.get.eq_1, h.hint]
    have hmax : u32Max = 4294967295 := rfl
    refine ⟨rfl, ?_, fun p hp => ?_⟩
    · simp only [streak, hq, if_false, if_true, saturatingAdd]
      by_cases hsame : (ProducerRoute.get hash cell).lastPreferred = hash &&& q.mask
      · rw [if_pos hsame, h.consecutive, hsame]
        omega
      · -- another shard was preferred last
        rw [if_neg hsame, h.others _ (Ne.symm hsame)]
        rfl
    · rw [streak, if_neg hq, if_neg (Ne.symm hp)]

/-- **Run lemma.**  The counter after any history of pushes to any pools. -/
theorem counts_routed (hash : ℕ) (earlier : List Shape) :
    Counts hash earlier (.get hash (routed hash earlier)) := by
  induction earlier with
  | nil => exact ⟨rfl, rfl, fun _ _ => rfl⟩
  | cons q earlier ih => exact ih.route q

/-- The shard of a push after any history. -/
lemma target_routed {q : Shape} (hq : 0 < q.mask) (hash : ℕ) (earlier : List Shape) :
    (q.target hash (routed hash earlier)).val =
      spillShard q.mask (hash &&& q.mask)
        (min (streak hash (hash &&& q.mask) earlier + 1) u32Max) := by
  have hmax : u32Max = 4294967295 := rfl
  have hcounts := counts_routed hash earlier
  rw [Shape.target, if_neg (by omega)]
  simp only [routeShard, hcounts.hint, saturatingAdd]
  congr 1
  by_cases hsame : (ProducerRoute.get hash (routed hash earlier)).lastPreferred = hash &&& q.mask
  · rw [if_pos hsame, hcounts.consecutive, hsame]
    omega
  · rw [if_neg hsame, hcounts.others _ (Ne.symm hsame)]
    rfl

/-- Masking a sum gives its first summand back when the second one is a multiple of the number of
shards. -/
lemma Shape.and_mask_add_eq_iff (q : Shape) (hash x : ℕ) :
    ((hash &&& q.mask) + x) &&& q.mask = hash &&& q.mask ↔ q.mask + 1 ∣ x := by
  rw [q.and_mask, q.and_mask, Nat.mod_add_mod]
  constructor
  · intro h
    have hmod : hash + x ≡ hash + 0 [MOD q.mask + 1] := h
    exact (Nat.modEq_zero_iff_dvd).mp (Nat.ModEq.add_left_cancel' hash hmod)
  · rintro ⟨d, rfl⟩
    rw [Nat.add_mul_mod_self_left]

/-- The shard for a streak is the preferred one up to the threshold, and whenever the walk over the
shards has come round to it. -/
lemma Shape.spillShard_eq_iff (q : Shape) (hash n : ℕ) :
    spillShard q.mask (hash &&& q.mask) (min (n + 1) u32Max) = hash &&& q.mask ↔
      n < SPILL_THRESHOLD ∨ q.mask + 1 ∣ min (n + 1) u32Max - SPILL_THRESHOLD := by
  have hthreshold : SPILL_THRESHOLD = 8 := rfl
  have hmax : u32Max = 4294967295 := rfl
  unfold spillShard
  split
  · exact iff_of_true rfl (Or.inl (by omega))
  · rw [q.and_mask_add_eq_iff]
    exact ⟨Or.inr, fun h => h.resolve_left (by omega)⟩

/-- **When a push leaves its preferred shard.**  After any history of pushes of the thread to any
pools, a push to a pool of several shards goes to its preferred shard exactly when fewer than
`SPILL_THRESHOLD` of the latest pushes preferred the shard of this index, or the walk over
the shards has come round to it. -/
theorem target_eq_preferred_iff {q : Shape} (hq : 0 < q.mask) (hash : ℕ)
    (earlier : List Shape) :
    q.target hash (routed hash earlier) = q.shard hash ↔
      streak hash (hash &&& q.mask) earlier < SPILL_THRESHOLD ∨
        q.mask + 1 ∣
          min (streak hash (hash &&& q.mask) earlier + 1) u32Max - SPILL_THRESHOLD := by
  rw [Fin.ext_iff, target_routed hq]
  exact q.spillShard_eq_iff hash _

/-- The queue of a pool with four workers and four shards. -/
def quad : Shape := .new 4 (some 4) (by decide) (by decide)

/-- Eight pushes to one pool drive the first push to another one off its preferred shard; pushes to
a pool of one shard in between do not help. -/
theorem target_ne_preferred_pair :
    streak 1 (1 &&& pair.mask) (solo :: List.replicate 8 quad) = 8 ∧
      pair.target 1 (routed 1 (solo :: List.replicate 8 quad)) ≠ pair.shard 1 := by
  refine ⟨by decide, fun h => ?_⟩
  have hleft := (target_eq_preferred_iff (q := pair) (by decide) 1 _).mp h
  revert hleft
  decide

/-! ## Several producers -/

section Producers

variable {I T : Type} [DecidableEq I] [DecidableEq T]

/-- The foreign pushes of several threads, each to one of several pools, in the order in which they
are made: those to pool `i`, with the shard each of them is inserted into. -/
def landings (shape : I → Shape) (hash : T → ℕ) (i : I) :
    (T → Option ProducerRoute) → List (T × I) → List (T × (shape i).Shard)
  | _, [] => []
  | cell, (t, j) :: ts =>
    let rest := landings shape hash i
      (Function.update cell t ((shape j).route (hash t) (cell t))) ts
    if j = i then (t, (shape i).target (hash t) (cell t)) :: rest else rest

/-- Every push is inserted into its thread's preferred shard. -/
def Affine (q : Shape) (hash : T → ℕ) (pushes : List (T × q.Shard)) : Prop :=
  ∀ x ∈ pushes, x.2 = q.shard (hash x.1)

/-- No thread makes more than `SPILL_THRESHOLD` pushes without a push of another thread in
between. -/
def Interleaved (ts : List T) : Prop :=
  ∀ t, ¬ List.replicate (SPILL_THRESHOLD + 1) t <:+: ts

/-- The threads that push to pool `i`, in turn. -/
def producers (i : I) (ts : List (T × I)) : List T := (ts.filter (·.2 = i)).map Prod.fst

/-- The pools a thread has pushed to after these pushes, latest first. -/
def history (shape : I → Shape) (earlier : T → List Shape) (ts : List (T × I)) (t : T) :
    List Shape :=
  ((ts.filter (·.1 = t)).map fun x => shape x.2).reverse ++ earlier t

/-- Fewer than `SPILL_THRESHOLD` of the latest pushes preferred the shard that the next push to this
pool prefers, or the walk over the shards has come round to it. -/
def Shape.Stays (q : Shape) (hash : ℕ) (earlier : List Shape) : Prop :=
  streak hash (hash &&& q.mask) earlier < SPILL_THRESHOLD ∨
    q.mask + 1 ∣ min (streak hash (hash &&& q.mask) earlier + 1) u32Max - SPILL_THRESHOLD

instance (q : Shape) (hash : ℕ) (earlier : List Shape) : Decidable (q.Stays hash earlier) :=
  inferInstanceAs (Decidable (_ ∨ _))

omit [DecidableEq I] in
/-- The first of the pushes comes before the others. -/
lemma history_cons (shape : I → Shape) (earlier : T → List Shape) (t : T) (j : I)
    (ts : List (T × I)) :
    history shape earlier ((t, j) :: ts) =
      history shape (Function.update earlier t (shape j :: earlier t)) ts := by
  funext u
  by_cases hu : t = u
  · subst hu
    simp [history]
  · simp [history, hu, Function.update_of_ne (Ne.symm hu)]

omit [DecidableEq I] in
/-- The routing states after one more push. -/
lemma routed_update (shape : I → Shape) (hash : T → ℕ) (earlier : T → List Shape) (t : T) (j : I) :
    Function.update (fun u => routed (hash u) (earlier u)) t
        ((shape j).route (hash t) (routed (hash t) (earlier t))) =
      fun u => routed (hash u) (Function.update earlier t (shape j :: earlier t) u) := by
  funext u
  by_cases hu : u = t
  · subst hu
    simp only [Function.update_self, routed]
  · simp only [Function.update_of_ne hu]

/-- **When producers stay on their shards.**  However the foreign pushes of any threads to any pools
follow each other, and whatever the threads have pushed before, every push to a pool of several
shards is inserted into its own thread's preferred shard exactly when, at each of these pushes, the
thread's own streak is below `SPILL_THRESHOLD` or the walk over the shards has come round. -/
theorem affine_iff (shape : I → Shape) (hash : T → ℕ) {i : I} (hi : 0 < (shape i).mask)
    (earlier : T → List Shape) (ts : List (T × I)) :
    Affine (shape i) hash
        (landings shape hash i (fun t => routed (hash t) (earlier t)) ts) ↔
      ∀ k < ts.length, ∀ x ∈ ts[k]?, x.2 = i →
        (shape i).Stays (hash x.1) (history shape earlier (ts.take k) x.1) := by
  induction ts generalizing earlier with
  | nil => simp [Affine, landings]
  | cons y ts ih =>
    obtain ⟨t, j⟩ := y
    have hhead : (shape i).target (hash t) (routed (hash t) (earlier t)) =
        (shape i).shard (hash t) ↔ (shape i).Stays (hash t) (earlier t) := by
      rw [Fin.ext_iff, target_routed hi]
      exact (shape i).spillShard_eq_iff (hash t) _
    have hcons : Affine (shape i) hash
          (landings shape hash i (fun t => routed (hash t) (earlier t)) ((t, j) :: ts)) ↔
        (j = i → (shape i).Stays (hash t) (earlier t)) ∧
          Affine (shape i) hash (landings shape hash i (fun u =>
            routed (hash u) (Function.update earlier t (shape j :: earlier t) u)) ts) := by
      simp only [Affine, landings, routed_update]
      split
      · rw [List.forall_mem_cons, hhead]
        simp [*]
      · simp [*]
    rw [hcons, ih]
    simp only [List.length_cons, Nat.forall_lt_succ_left, List.getElem?_cons_succ,
      List.take_succ_cons, history_cons]
    simp [history]

end Producers

/-- A pool with two shards and one with four. -/
def pools (four : Bool) : Shape := if four then quad else pair

/-- Two producers push in turn, nine times each, and after each push to the one pool they push to
another one. -/
theorem affine_turns :
    Affine (pools false) (fun t : Fin 2 => t.val + 2)
      (landings pools (fun t : Fin 2 => t.val + 2) false (fun _ => none)
        (List.replicate 9 [(0, false), (0, true), (1, false), (1, true)]).flatten) :=
  (affine_iff pools _ (i := false) (by decide) (fun _ => []) _).mpr (by decide)

/-- Two producers with different preferred shards push in turn, nine times each, and to no other
pool: the last pushes leave the preferred shards. -/
theorem not_affine_turns :
    Interleaved (producers false (List.replicate 9 [((0 : Fin 2), false), (1, false)]).flatten) ∧
      (pools false).shard ((0 : Fin 2).val) ≠ (pools false).shard ((1 : Fin 2).val) ∧
      ¬ Affine (pools false) (fun t : Fin 2 => t.val) (landings pools (fun t : Fin 2 => t.val) false
        (fun _ => none) (List.replicate 9 [(0, false), (1, false)]).flatten) := by
  refine ⟨?_, by decide, ?_⟩
  · unfold Interleaved
    decide
  · unfold Affine
    decide

end AffinityPool
