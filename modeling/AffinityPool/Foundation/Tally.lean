import Mathlib.Algebra.BigOperators.Pi
import Mathlib.Algebra.Order.BigOperators.Group.Finset
import Mathlib.Data.Fintype.BigOperators
import Mathlib.Tactic.Abel

/-!
# Sums over the threads of a system

A concurrent system keeps one local state per thread, and a step replaces the local state
of one thread.  `tally f l` adds up a measure `f` of the local states; `tally_update` says
how a step changes it, in a form that linear arithmetic uses directly.  A predicate that
several threads may satisfy is counted by a measure with values `0` and `1`.

The measure may have values in any commutative monoid: with multisets as values the same sum
collects the contents of a family of queues.
-/

namespace Transition

variable {T L M : Type*} [Fintype T]

/-- The sum of the measure `f` over the local states of all threads. -/
def tally [AddCommMonoid M] (f : L → M) (l : T → L) : M := ∑ t, f (l t)

/-- One thread counts at most as much as all of them. -/
lemma le_tally (f : L → ℕ) (l : T → L) (t : T) : f (l t) ≤ tally f l :=
  Finset.single_le_sum (f := fun t => f (l t)) (fun _ _ => Nat.zero_le _) (Finset.mem_univ t)

/-- The tally vanishes exactly when every thread counts nothing. -/
lemma tally_eq_zero_iff {f : L → ℕ} {l : T → L} : tally f l = 0 ↔ ∀ t, f (l t) = 0 := by
  simp [tally, Finset.sum_eq_zero_iff]

/-- A positive tally has a thread that counts. -/
lemma exists_pos_of_tally_pos {f : L → ℕ} {l : T → L} (h : 0 < tally f l) :
    ∃ t, 0 < f (l t) := by
  by_contra hno
  have hzero : tally f l = 0 := tally_eq_zero_iff.mpr fun t => by
    have ht : ¬ 0 < f (l t) := fun hpos => hno ⟨t, hpos⟩
    omega
  omega

/-- A measure that is pointwise below another has the smaller tally. -/
lemma tally_le_tally {f g : L → ℕ} {l : T → L} (h : ∀ t, f (l t) ≤ g (l t)) :
    tally f l ≤ tally g l :=
  Finset.sum_le_sum fun t _ => h t

/-- Tallies of measures add. -/
lemma tally_add [AddCommMonoid M] (f g : L → M) (l : T → L) :
    tally (fun x => f x + g x) l = tally f l + tally g l :=
  Finset.sum_add_distrib

/-- Where no thread counts, the tally vanishes. -/
lemma tally_eq_zero [AddCommMonoid M] {f : L → M} {l : T → L} (h : ∀ t, f (l t) = 0) :
    tally f l = 0 :=
  Finset.sum_eq_zero fun t _ => h t

/-- A measure of at most one per thread tallies to at most the number of threads. -/
lemma tally_le_card {f : L → ℕ} {l : T → L} (h : ∀ t, f (l t) ≤ 1) :
    tally f l ≤ Fintype.card T := by
  calc tally f l ≤ ∑ _t : T, 1 := Finset.sum_le_sum fun t _ => h t
    _ = Fintype.card T := by simp

/-- A measure of at most one per thread counts the threads that count. -/
lemma tally_eq_card_filter {f : L → ℕ} {l : T → L} (h : ∀ t, f (l t) ≤ 1) :
    tally f l = (Finset.univ.filter fun t => f (l t) = 1).card := by
  rw [tally, Finset.card_filter]
  refine Finset.sum_congr rfl fun t _ => ?_
  have ht := h t
  split <;> omega

/-- Over two kinds of threads a tally is the sum of the two tallies. -/
lemma tally_sum {U : Type*} [Fintype U] [AddCommMonoid M] (f : L → M) (l : T ⊕ U → L) :
    tally f l = tally f (fun t => l (.inl t)) + tally f (fun u => l (.inr u)) :=
  Fintype.sum_sum_type _

/-- A set of threads each of which counts has at most as many members as the tally. -/
lemma card_le_tally {f : L → ℕ} {l : T → L} {W : Finset T} (h : ∀ t ∈ W, 1 ≤ f (l t)) :
    W.card ≤ tally f l := by
  calc W.card = ∑ _t ∈ W, 1 := by simp
    _ ≤ ∑ t ∈ W, f (l t) := Finset.sum_le_sum h
    _ ≤ tally f l := Finset.sum_le_sum_of_subset (Finset.subset_univ W)

/-- A measure of at most one that vanishes outside a set tallies to at most its size. -/
lemma tally_le_card_of_eq_zero {f : L → ℕ} {l : T → L} {W : Finset T} (h : ∀ t, f (l t) ≤ 1)
    (hzero : ∀ t, t ∉ W → f (l t) = 0) : tally f l ≤ W.card := by
  calc tally f l = ∑ t ∈ W, f (l t) :=
        (Finset.sum_subset (Finset.subset_univ W) fun t _ ht => hzero t ht).symm
    _ ≤ ∑ _t ∈ W, 1 := Finset.sum_le_sum fun t _ => h t
    _ = W.card := by simp

section Decidable

variable [DecidableEq T]

/-- Replacing the local state of one thread changes the tally by the difference of the two
measures. -/
lemma tally_update [AddCommMonoid M] (f : L → M) (l : T → L) (t : T) (x : L) :
    tally f (Function.update l t x) + f (l t) = tally f l + f x := by
  have hnew : tally f (Function.update l t x) = f x + ∑ u ∈ Finset.univ.erase t, f (l u) := by
    rw [tally, ← Finset.add_sum_erase _ _ (Finset.mem_univ t), Function.update_self]
    congr 1
    refine Finset.sum_congr rfl fun u hu => ?_
    rw [Function.update_of_ne (Finset.ne_of_mem_erase hu)]
  have hold : tally f l = f (l t) + ∑ u ∈ Finset.univ.erase t, f (l u) :=
    (Finset.add_sum_erase _ (fun u => f (l u)) (Finset.mem_univ t)).symm
  rw [hnew, hold]
  abel

/-- Two different threads count at most as much as all of them. -/
lemma add_le_tally (f : L → ℕ) (l : T → L) {t u : T} (h : t ≠ u) :
    f (l t) + f (l u) ≤ tally f l := by
  have hle : f (l u) ≤ ∑ v ∈ Finset.univ.erase t, f (l v) :=
    Finset.single_le_sum (f := fun v => f (l v)) (fun _ _ => Nat.zero_le _)
      (Finset.mem_erase.mpr ⟨h.symm, Finset.mem_univ u⟩)
  have hsum : tally f l = f (l t) + ∑ v ∈ Finset.univ.erase t, f (l v) :=
    (Finset.add_sum_erase _ (fun v => f (l v)) (Finset.mem_univ t)).symm
  omega

end Decidable

/-! ## Systems that start threads -/

/-- The sum of the measure `f` over the local states of the first `n` threads of a system that
numbers its threads in the order in which they start. -/
def tallyBelow (n : ℕ) (f : L → ℕ) (l : ℕ → L) : ℕ := ∑ k ∈ Finset.range n, f (l k)

lemma tallyBelow_succ (n : ℕ) (f : L → ℕ) (l : ℕ → L) :
    tallyBelow (n + 1) f l = tallyBelow n f l + f (l n) :=
  Finset.sum_range_succ _ _

/-- Local states of later threads do not count. -/
lemma tallyBelow_congr {n : ℕ} (f : L → ℕ) {l l' : ℕ → L} (h : ∀ k < n, l' k = l k) :
    tallyBelow n f l' = tallyBelow n f l :=
  Finset.sum_congr rfl fun k hk => by rw [h k (Finset.mem_range.mp hk)]

/-- Replacing the local state of one of the threads changes the sum by the difference of the two
measures. -/
lemma tallyBelow_update {n k : ℕ} (hk : k < n) (f : L → ℕ) (l : ℕ → L) (x : L) :
    tallyBelow n f (Function.update l k x) + f (l k) = tallyBelow n f l + f x := by
  induction n with
  | zero => omega
  | succ n ih =>
    rw [tallyBelow_succ, tallyBelow_succ]
    by_cases hkn : k = n
    · subst hkn
      rw [Function.update_self, tallyBelow_congr f fun j hj => Function.update_of_ne (by omega) _ _]
      omega
    · have hrest := ih (by omega)
      rw [Function.update_of_ne (Ne.symm hkn)]
      omega

/-- The sum of a measure that is `1` on a predicate and `0` elsewhere counts the threads that
satisfy it. -/
lemma tallyBelow_eq_card {n : ℕ} {f : L → ℕ} {l : ℕ → L} (p : L → Prop) [DecidablePred p]
    (h : ∀ k < n, f (l k) = if p (l k) then 1 else 0) :
    tallyBelow n f l = ((Finset.range n).filter fun k => p (l k)).card := by
  rw [Finset.card_filter]
  exact Finset.sum_congr rfl fun k hk => h k (Finset.mem_range.mp hk)

end Transition
