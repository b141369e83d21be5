import AffinityPool.Foundation.Tally
import AffinityPool.Foundation.TransitionSystem

/-!
# Potentials

Some actions of a system are given by its surroundings, the others are its own.  A potential
is a number that every own step lowers by one at least and every step of the surroundings raises by
a fixed amount at most.  Then the length of a run is bounded by the potential it starts with and by
the steps of the surroundings in it (`exec_length_le`), and a system left to itself comes to
a state in which it has no step of its own (`exists_settled`).
-/

namespace Transition

namespace System

variable {S A : Type*} {M : System S A} {ok : S → A → Prop} {given : A → Bool} {pot : S → ℕ}
  {rise : ℕ}

/-- `pot` is a potential of the runs whose steps meet `ok`: the steps with a given action raise it
by at most `rise`, all others lower it. -/
def Potential (M : System S A) (ok : S → A → Prop) (given : A → Bool) (pot : S → ℕ)
    (rise : ℕ) : Prop :=
  ∀ s a s', Reach M ok s → ok s a → M.step s a = some s' →
    pot s' + 1 ≤ pot s + if given a then rise else 0

/-- No step that meets `ok` is left but those with a given action. -/
def Settled (M : System S A) (ok : S → A → Prop) (given : A → Bool) (s : S) : Prop :=
  ∀ a, ok s a → given a = false → M.step s a = none

/-- The runs without given actions. -/
def alone (ok : S → A → Prop) (given : A → Bool) : S → A → Prop :=
  fun s a => ok s a ∧ given a = false

lemma Leads.of_alone {s t : S} (h : Leads M (alone ok given) s t) : Leads M ok s t :=
  h.mono fun _ _ hok => hok.1

/-- **Length rule.**  A run is as long as its potential and its given actions pay for. -/
theorem exec_length_le (hpot : Potential M ok given pot rise) {s t : S} {as : List A}
    (hs : Reach M ok s) (hm : M.Meets ok s as) (h : M.exec s as = some t) :
    pot t + as.length ≤ pot s + rise * as.countP given := by
  induction as generalizing s with
  | nil =>
    cases h
    exact Nat.le_refl _
  | cons a as ih =>
    obtain ⟨u, hu, ht⟩ := Option.bind_eq_some_iff.mp h
    have hrest := ih (hs.step hm.1 hu) (hm.2 u hu) ht
    have hstep := hpot s a u hs hm.1 hu
    rw [List.length_cons, List.countP_cons]
    by_cases hgiven : given a = true
    · simp only [hgiven, if_true, Nat.mul_add, Nat.mul_one] at hstep ⊢
      omega
    · simp only [hgiven, Bool.false_eq_true, if_false, Nat.add_zero] at hstep ⊢
      omega

/-- A run without given actions is no longer than the potential. -/
theorem exec_length_le_of_alone (hpot : Potential M ok given pot rise) {s t : S} {as : List A}
    (hs : Reach M ok s) (hm : M.Meets (alone ok given) s as) (h : M.exec s as = some t) :
    as.length ≤ pot s := by
  induction as generalizing s with
  | nil => exact Nat.zero_le _
  | cons a as ih =>
    obtain ⟨u, hu, ht⟩ := Option.bind_eq_some_iff.mp h
    obtain ⟨⟨hok, hgiven⟩, hmeets⟩ := hm
    have hrest := ih (hs.step hok hu) (hmeets u hu) ht
    have hstep := hpot s a u hs hok hu
    rw [hgiven] at hstep
    simp only [Bool.false_eq_true, if_false, Nat.add_zero] at hstep
    rw [List.length_cons]
    omega

/-- **Settling rule.**  Left to itself the system comes to a settled state, whatever it has done
before. -/
theorem exists_settled (hpot : Potential M ok given pot rise) {s : S} (hs : Reach M ok s) :
    ∃ t, Leads M (alone ok given) s t ∧ Settled M ok given t := by
  induction hn : pot s using Nat.strongRecOn generalizing s with
  | ind n ih =>
    by_cases hsettled : Settled M ok given s
    · exact ⟨s, .refl, hsettled⟩
    · simp only [Settled, not_forall] at hsettled
      obtain ⟨a, hok, hgiven, hsome⟩ := hsettled
      obtain ⟨u, hu⟩ := Option.ne_none_iff_exists'.mp hsome
      have hstep := hpot s a u hs hok hu
      simp only [hgiven, Bool.false_eq_true, if_false] at hstep
      obtain ⟨t, ht, hst⟩ := ih (pot u) (by omega) (hs.step hok hu) rfl
      have hone : Leads M (alone ok given) s u := .tail .refl ⟨hok, hgiven⟩ hu
      exact ⟨t, hone.trans ht, hst⟩

end System

/-! ## Potentials that are sums over the threads -/

section Threads

variable {T L : Type*} [Fintype T] (f : L → ℕ) (l l' : T → L) {d : ℕ}

/-- Where every thread counts at most `d` more, so many times `d` more is counted. -/
lemma tally_le_add (h : ∀ u, f (l' u) ≤ f (l u) + d) :
    tally f l' ≤ tally f l + Fintype.card T * d := by
  calc tally f l' ≤ ∑ u, (f (l u) + d) := Finset.sum_le_sum fun u _ => h u
    _ = tally f l + Fintype.card T * d := by
      rw [Finset.sum_add_distrib, tally, Finset.sum_const, Finset.card_univ, smul_eq_mul]

/-- The same for all threads but one, whose change is counted exactly. -/
lemma tally_le_add_of_ne [DecidableEq T] (t : T) (h : ∀ u, u ≠ t → f (l' u) ≤ f (l u) + d) :
    tally f l' + f (l t) ≤ tally f l + f (l' t) + Fintype.card T * d := by
  have hle : tally f (Function.update l' t (l t)) ≤ tally f l + Fintype.card T * d := by
    refine tally_le_add f l _ fun u => ?_
    by_cases hu : u = t
    · subst hu
      rw [Function.update_self]
      exact Nat.le_add_right _ _
    · rw [Function.update_of_ne hu]
      exact h u hu
  have hupdate := tally_update f l' t (l t)
  omega

end Threads

end Transition
