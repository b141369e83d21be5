import AffinityPool.Foundation.Rotation
import Mathlib.Algebra.Order.Floor.Div
import Mathlib.Algebra.Order.BigOperators.Group.Finset
import Mathlib.Order.Interval.Finset.Nat

/-!
# Sharing words out

A word below `words` is brought into a span by one multiplication and one division by `words`.
The words that go to one value form an interval, so that every value gets the quotient of
`words` by the span, or one word more (`card_share_bounds`).

A walk that starts at the value of a word and visits `limit` places of the span, wrapping around,
comes to a given place from `limit` different starts.  So every place is visited from nearly
equally many words (`card_reaching_bounds`).
-/

namespace Transition

variable {words span v limit : ℕ}

/-- The words that go to the value. -/
def share (words span v : ℕ) : Finset ℕ :=
  (Finset.range words).filter fun x => x * span / words = v

lemma mem_share {x : ℕ} : x ∈ share words span v ↔ x < words ∧ x * span / words = v := by
  rw [share, Finset.mem_filter, Finset.mem_range]

/-- They form an interval. -/
lemma share_eq_Ico (hwords : 0 < words) (hspan : 0 < span) (hv : v < span) :
    share words span v = Finset.Ico ((v * words) ⌈/⌉ span) (((v + 1) * words) ⌈/⌉ span) := by
  have hlast : ((v + 1) * words) ⌈/⌉ span ≤ words :=
    (ceilDiv_le_iff_le_mul hspan).mpr (Nat.mul_le_mul_right words hv)
  ext x
  have hlow : (v * words) ⌈/⌉ span ≤ x ↔ v * words ≤ x * span := by
    rw [ceilDiv_le_iff_le_mul hspan, Nat.mul_comm span x]
  have hhigh : ((v + 1) * words) ⌈/⌉ span ≤ x ↔ (v + 1) * words ≤ x * span := by
    rw [ceilDiv_le_iff_le_mul hspan, Nat.mul_comm span x]
  rw [mem_share, Finset.mem_Ico, ← not_le (a := _ ⌈/⌉ _), hlow, hhigh, Nat.div_eq_iff hwords,
    Nat.add_mul, Nat.one_mul]
  rw [Nat.add_mul, Nat.one_mul] at hhigh hlast
  omega

/-- **Every value gets nearly equally many words.** -/
theorem card_share_bounds (hwords : 0 < words) (hspan : 0 < span) (hv : v < span) :
    words / span ≤ (share words span v).card ∧ (share words span v).card ≤ words / span + 1 := by
  rw [share_eq_Ico hwords hspan hv, Nat.card_Ico]
  have hdiv : span * (words / span) ≤ words := Nat.mul_div_le words span
  have hmod : words ≤ span * (words / span + 1) := (Nat.lt_mul_div_succ words hspan).le
  constructor
  · -- the interval of the next value starts at least a quotient later
    have hstart : (v * words) ⌈/⌉ span + words / span ≤ ((v + 1) * words) ⌈/⌉ span := by
      have hnext : (v + 1) * words ≤ span * (((v + 1) * words) ⌈/⌉ span) :=
        (ceilDiv_le_iff_le_mul hspan).mp le_rfl
      have hle : words / span ≤ ((v + 1) * words) ⌈/⌉ span := by
        refine Nat.le_of_mul_le_mul_left (hdiv.trans (le_trans ?_ hnext)) hspan
        exact Nat.le_mul_of_pos_left words (Nat.succ_pos v)
      refine Nat.add_le_of_le_sub hle ((ceilDiv_le_iff_le_mul hspan).mpr ?_)
      rw [Nat.mul_sub]
      rw [Nat.add_mul, Nat.one_mul] at hnext ⊢
      omega
    omega
  · have hend : ((v + 1) * words) ⌈/⌉ span ≤ (v * words) ⌈/⌉ span + (words / span + 1) := by
      refine (ceilDiv_le_iff_le_mul hspan).mpr ?_
      have hhere : v * words ≤ span * ((v * words) ⌈/⌉ span) :=
        (ceilDiv_le_iff_le_mul hspan).mp le_rfl
      rw [Nat.add_mul, Nat.one_mul, Nat.mul_add]
      exact Nat.add_le_add hhere hmod
    exact Nat.sub_le_iff_le_add'.mpr hend

/-! ## Walks -/

/-- The start from which the `k`-th visit is the given place. -/
lemma wrapAt_add_eq_iff {s k : ℕ} (hs : s < span) (hk : k < span) (hv : v < span) :
    wrapAt span (s + k) = v ↔ s = wrapAt span (v + span - k) := by
  unfold wrapAt
  split_ifs <;> omega

/-- The words from which a walk of `limit` visits comes to the place. -/
def reaching (words span limit v : ℕ) : Finset ℕ :=
  (Finset.range words).filter fun x => ∃ k < limit, wrapAt span (x * span / words + k) = v

/-- They are the words that go to one of the starts. -/
lemma reaching_eq_biUnion (hspan : 0 < span) (hv : v < span) (hlimit : limit ≤ span) :
    reaching words span limit v =
      (Finset.range limit).biUnion fun k => share words span (wrapAt span (v + span - k)) := by
  ext x
  simp only [reaching, Finset.mem_filter, Finset.mem_biUnion, Finset.mem_range, mem_share]
  have hstart : x < words → x * span / words < span := by
    intro hx
    rw [Nat.div_lt_iff_lt_mul (Nat.zero_lt_of_lt hx), Nat.mul_comm span words]
    exact Nat.mul_lt_mul_of_pos_right hx hspan
  constructor
  · rintro ⟨hx, k, hk, hvisit⟩
    exact ⟨k, hk, hx, (wrapAt_add_eq_iff (hstart hx) (hk.trans_le hlimit) hv).mp hvisit⟩
  · rintro ⟨k, hk, hx, hvisit⟩
    exact ⟨hx, k, hk, (wrapAt_add_eq_iff (hstart hx) (hk.trans_le hlimit) hv).mpr hvisit⟩

/-- Different visits of the place have different starts. -/
lemma disjoint_shares (hv : v < span) (hlimit : limit ≤ span) :
    ((Finset.range limit : Finset ℕ) : Set ℕ).PairwiseDisjoint
      fun k => share words span (wrapAt span (v + span - k)) := by
  intro j hj k hk hne
  have hjl : j < limit := Finset.mem_range.mp hj
  have hkl : k < limit := Finset.mem_range.mp hk
  refine Finset.disjoint_left.mpr fun x hxj hxk => hne ?_
  have hsame := (mem_share.mp hxj).2.symm.trans (mem_share.mp hxk).2
  unfold wrapAt at hsame
  split_ifs at hsame <;> omega

/-- **Every place is visited from nearly equally many words.** -/
theorem card_reaching_bounds (hwords : 0 < words) (hspan : 0 < span) (hv : v < span)
    (hlimit : limit ≤ span) :
    limit * (words / span) ≤ (reaching words span limit v).card ∧
      (reaching words span limit v).card ≤ limit * (words / span + 1) := by
  have hshare : ∀ k ∈ Finset.range limit,
      words / span ≤ (share words span (wrapAt span (v + span - k))).card ∧
        (share words span (wrapAt span (v + span - k))).card ≤ words / span + 1 := by
    intro k hk
    have hkl : k < limit := Finset.mem_range.mp hk
    refine card_share_bounds hwords hspan ?_
    unfold wrapAt
    split_ifs <;> omega
  rw [reaching_eq_biUnion hspan hv hlimit, Finset.card_biUnion (disjoint_shares hv hlimit)]
  have hlow := Finset.card_nsmul_le_sum _ _ _ fun k hk => (hshare k hk).1
  have hhigh := Finset.sum_le_card_nsmul _ _ _ fun k hk => (hshare k hk).2
  rw [Finset.card_range, smul_eq_mul] at hlow hhigh
  exact ⟨hlow, hhigh⟩

end Transition
