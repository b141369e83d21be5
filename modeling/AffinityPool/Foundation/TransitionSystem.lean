import Mathlib.Data.List.Induction
import Mathlib.Logic.Function.Basic
import Mathlib.Tactic.TypeStar

/-!
# Guarded transition systems

A system is given by its initial states and by a partial step function: `step s a` is
`some s'` when the action `a` is enabled in `s` and leads to `s'`.  One definition serves
the proofs (`System.Reach` and its induction rules) and the concrete runs
(`System.exec`, which a closed term evaluates).

Runs may be restricted.  `Reach M ok s` says that `s` ends a run every step of which meets
the condition `ok`, a predicate on the state before the step and on its action;
`Reachable M` is the unrestricted case.  `Leads M ok s t` says that a run whose steps meet
`ok` goes from `s` to `t`, and is what a statement about the future of a state quantifies
over.
-/

namespace Transition

variable {S A : Type*}

/-- A step of one party of a system changes that party's part of the state only. -/
lemma update_cases {J X : Type*} [DecidableEq J] {f : J → X} {i j : J} {x y : X}
    (h : Function.update f i x j = y) : j = i ∧ x = y ∨ j ≠ i ∧ f j = y := by
  by_cases hj : j = i
  · subst hj
    rw [Function.update_self] at h
    exact Or.inl ⟨rfl, h⟩
  · rw [Function.update_of_ne hj] at h
    exact Or.inr ⟨hj, h⟩

/-- The same change of one party keeps two states in agreement. -/
lemma update_agree {J X : Type*} [DecidableEq J] {f g : J → X} {j : J} (h : g j = f j) (i : J)
    (x : X) : Function.update g i x j = Function.update f i x j := by
  by_cases hj : j = i
  · rw [hj, Function.update_self, Function.update_self]
  · rw [Function.update_of_ne hj, Function.update_of_ne hj, h]

/-- A transition system: the initial states and a guarded step function. -/
structure System (S A : Type*) where
  /-- The initial states. -/
  init : S → Prop
  /-- The state after an action, when the action is enabled. -/
  step : S → A → Option S

namespace System

/-- A run of `M` all of whose steps meet `ok` goes from `s` to the given state. -/
inductive Leads (M : System S A) (ok : S → A → Prop) (s : S) : S → Prop
  | refl : Leads M ok s s
  | tail {t u : S} {a : A} : Leads M ok s t → ok t a → M.step t a = some u → Leads M ok s u

/-- Some initial state of `M` leads to `s` by steps that meet `ok`. -/
def Reach (M : System S A) (ok : S → A → Prop) (s : S) : Prop :=
  ∃ s₀, M.init s₀ ∧ Leads M ok s₀ s

/-- The states of unrestricted runs. -/
abbrev Reachable (M : System S A) (s : S) : Prop := Reach M (fun _ _ => True) s

variable {M : System S A} {ok ok' : S → A → Prop}

/-- An initial state is reached. -/
lemma Reach.of_init {s : S} (h : M.init s) : Reach M ok s := ⟨s, h, .refl⟩

/-- One more step that meets the condition. -/
lemma Reach.step {s s' : S} {a : A} (h : Reach M ok s) (hok : ok s a)
    (hs : M.step s a = some s') : Reach M ok s' := by
  obtain ⟨s₀, hi, hl⟩ := h
  exact ⟨s₀, hi, hl.tail hok hs⟩

/-- Runs compose. -/
lemma Leads.trans {s t u : S} (h₁ : Leads M ok s t) (h₂ : Leads M ok t u) : Leads M ok s u := by
  induction h₂ with
  | refl => exact h₁
  | tail _ hok hs ih => exact ih.tail hok hs

/-- A reached state stays reached along every further run. -/
lemma Reach.leads {s t : S} (h : Reach M ok s) (hl : Leads M ok s t) : Reach M ok t := by
  obtain ⟨s₀, hi, h₀⟩ := h
  exact ⟨s₀, hi, h₀.trans hl⟩

/-- Weakening the condition on the steps keeps a run. -/
lemma Leads.mono {s t : S} (hok : ∀ s a, ok s a → ok' s a) (h : Leads M ok s t) :
    Leads M ok' s t := by
  induction h with
  | refl => exact .refl
  | tail _ hk hs ih => exact ih.tail (hok _ _ hk) hs

/-- Weakening the condition on the steps keeps a reached state. -/
lemma Reach.mono {s : S} (hok : ∀ s a, ok s a → ok' s a) (h : Reach M ok s) : Reach M ok' s := by
  obtain ⟨s₀, hi, hl⟩ := h
  exact ⟨s₀, hi, hl.mono hok⟩

/-- A restricted run is a run. -/
lemma Reach.reachable {s : S} (h : Reach M ok s) : Reachable M s := h.mono fun _ _ _ => trivial

/-! ## Induction rules -/

/-- **Invariant rule.**  A predicate that holds initially and that every step meeting the
condition preserves holds in every reached state. -/
theorem Reach.invariant {I : S → Prop} (hinit : ∀ s, M.init s → I s)
    (hstep : ∀ s a s', Reach M ok s → I s → ok s a → M.step s a = some s' → I s')
    {s : S} (h : Reach M ok s) : I s := by
  obtain ⟨s₀, hi, hl⟩ := h
  induction hl with
  | refl => exact hinit s₀ hi
  | @tail t u a hl hok hs ih => exact hstep t a u ⟨s₀, hi, hl⟩ ih hok hs

/-- **Stability rule.**  A predicate that every step from a reached state preserves still
holds after any further run. -/
theorem Leads.stable {I : S → Prop} {s t : S} (hr : Reach M ok s)
    (hstep : ∀ u a u', Reach M ok u → I u → ok u a → M.step u a = some u' → I u')
    (h : Leads M ok s t) (hs : I s) : I t := by
  induction h with
  | refl => exact hs
  | tail hl hok hstep' ih => exact hstep _ _ _ (hr.leads hl) ih hok hstep'

/-- **Exit rule.**  A run that leaves `I` passes a state in `I` from which a step leads out. -/
theorem Leads.exists_exit {I : S → Prop} {s t : S} (h : Leads M ok s t) (hs : I s) (ht : ¬ I t) :
    ∃ u a u', Leads M ok s u ∧ I u ∧ ok u a ∧ M.step u a = some u' ∧ ¬ I u' := by
  induction h with
  | refl => exact absurd hs ht
  | @tail u u' a hl hok hstep ih =>
    by_cases hu : I u
    · exact ⟨u, a, u', hl, hu, hok, hstep, ht⟩
    · exact ih hu

/-- **Simulation rule.**  When `f` maps initial states to initial states and every step of `M`
to a step of `N` or to no step at all, it maps reachable states to reachable states. -/
theorem Reachable.map {T B : Type*} {N : System T B} (f : S → T)
    (hinit : ∀ s, M.init s → N.init (f s))
    (hstep : ∀ s a s', M.step s a = some s' → f s' = f s ∨ ∃ b, N.step (f s) b = some (f s'))
    {s : S} (h : Reachable M s) : Reachable N (f s) := by
  obtain ⟨s₀, hi, hl⟩ := h
  induction hl with
  | refl => exact .of_init (hinit s₀ hi)
  | @tail t u a _ _ hs ih =>
    rcases hstep t a u hs with heq | ⟨b, hb⟩
    · rw [heq]
      exact ih
    · exact ih.step trivial hb

/-- **Simulation rule for restricted runs.**  When `f` maps every step of `M` that meets its
condition to a step of `N` that meets another, or to no step at all, it maps runs to runs. -/
theorem Leads.map {T B : Type*} {N : System T B} {okN : T → B → Prop} (f : S → T)
    (hstep : ∀ u a u', ok u a → M.step u a = some u' →
      f u' = f u ∨ ∃ b, okN (f u) b ∧ N.step (f u) b = some (f u'))
    {s t : S} (h : Leads M ok s t) : Leads N okN (f s) (f t) := by
  induction h with
  | refl => exact .refl
  | tail _ hok hs ih =>
    rcases hstep _ _ _ hok hs with heq | ⟨b, hb, hn⟩
    · rw [heq]
      exact ih
    · exact ih.tail hb hn

/-- The same for the reached states. -/
theorem Reach.map {T B : Type*} {N : System T B} {okN : T → B → Prop} (f : S → T)
    (hinit : ∀ s, M.init s → N.init (f s))
    (hstep : ∀ u a u', ok u a → M.step u a = some u' →
      f u' = f u ∨ ∃ b, okN (f u) b ∧ N.step (f u) b = some (f u'))
    {s : S} (h : Reach M ok s) : Reach N okN (f s) := by
  obtain ⟨s₀, hi, hl⟩ := h
  exact ⟨f s₀, hinit s₀ hi, hl.map f hstep⟩

/-- **Lifting rule.**  When every step of `M` that meets its condition can be answered by a run of
`N` between related states, so can every run of `M`. -/
theorem Leads.lift {T B : Type*} {N : System T B} {okN : T → B → Prop} {Rel : S → T → Prop}
    (hstep : ∀ u a u' v, Rel u v → ok u a → M.step u a = some u' →
      ∃ v', Leads N okN v v' ∧ Rel u' v')
    {s s' : S} {t : T} (h : Leads M ok s s') (hrel : Rel s t) :
    ∃ t', Leads N okN t t' ∧ Rel s' t' := by
  induction h with
  | refl => exact ⟨t, .refl, hrel⟩
  | tail _ hok hs ih =>
    obtain ⟨v, hv, hmid⟩ := ih
    obtain ⟨v', hv', hend⟩ := hstep _ _ _ v hmid hok hs
    exact ⟨v', hv.trans hv', hend⟩

/-! ## Concrete runs -/

/-- The state after a list of actions, `none` as soon as one of them is not enabled. -/
def exec (M : System S A) : S → List A → Option S
  | s, [] => some s
  | s, a :: as => (M.step s a).bind fun s' => M.exec s' as

/-- Every step of the run of `as` from `s` meets `ok`. -/
def Meets (M : System S A) (ok : S → A → Prop) : S → List A → Prop
  | _, [] => True
  | s, a :: as => ok s a ∧ ∀ s' ∈ M.step s a, M.Meets ok s' as

instance Meets.decidable (M : System S A) (ok : S → A → Prop) [∀ s a, Decidable (ok s a)] :
    ∀ (s : S) (as : List A), Decidable (M.Meets ok s as)
  | _, [] => inferInstanceAs (Decidable True)
  | s, a :: as =>
    have : ∀ t, Decidable (M.Meets ok t as) := fun t => Meets.decidable M ok t as
    inferInstanceAs (Decidable (ok s a ∧ ∀ s' ∈ M.step s a, M.Meets ok s' as))

/-- The end of a list of actions each meeting the condition is led to. -/
theorem Leads.of_exec {as : List A} {s t : S} (hm : M.Meets ok s as)
    (h : M.exec s as = some t) : Leads M ok s t := by
  induction as generalizing s with
  | nil =>
    cases h
    exact .refl
  | cons a as ih =>
    obtain ⟨u, hu, ht⟩ := Option.bind_eq_some_iff.mp h
    have hstep : Leads M ok s u := .tail .refl hm.1 hu
    exact hstep.trans (ih (hm.2 u hu) ht)

/-- Every list of actions meets the trivial condition. -/
lemma meets_true (s : S) (as : List A) : M.Meets (fun _ _ => True) s as := by
  induction as generalizing s with
  | nil => trivial
  | cons a as ih => exact ⟨trivial, fun s' _ => ih s'⟩

/-- The end of a list of enabled actions from an initial state is reachable. -/
theorem Reachable.of_exec {as : List A} {s t : S} (hs : M.init s)
    (h : M.exec s as = some t) : Reachable M t :=
  ⟨s, hs, .of_exec (meets_true s as) h⟩

/-- One more action at the end of a list. -/
lemma exec_concat (s : S) (as : List A) (a : A) :
    M.exec s (as ++ [a]) = (M.exec s as).bind fun t => M.step t a := by
  induction as generalizing s with
  | nil => simp only [List.nil_append, exec, Option.bind_some, Option.bind_fun_some]
  | cons b as ih =>
    simp only [List.cons_append, exec, Option.bind_assoc]
    exact Option.bind_congr fun t _ => ih t

/-- **History rule.**  A relation between the actions so far and the state that holds at the
start and that every step preserves holds after every list of actions. -/
theorem exec_induction {I : List A → S → Prop} {s₀ : S} (hinit : I [] s₀)
    (hstep : ∀ as s a s', M.exec s₀ as = some s → I as s → M.step s a = some s' →
      I (as ++ [a]) s')
    {as : List A} {s : S} (h : M.exec s₀ as = some s) : I as s := by
  induction as using List.reverseRec generalizing s with
  | nil =>
    cases h
    exact hinit
  | append_singleton as a ih =>
    rw [exec_concat] at h
    obtain ⟨t, ht, hs⟩ := Option.bind_eq_some_iff.mp h
    exact hstep as t a s ht (ih ht) hs

/-- The end of a list of actions, as a state, when they are all enabled. -/
def final (M : System S A) (s : S) (as : List A) (h : (M.exec s as).isSome) : S :=
  (M.exec s as).get h

/-- An enabled list of actions leads to its end. -/
lemma exec_final (s : S) (as : List A) (h : (M.exec s as).isSome) :
    M.exec s as = some (M.final s as h) := (Option.some_get h).symm

/-- The end of a list of enabled actions meeting the condition is reached. -/
theorem Reach.final {as : List A} {s : S} (hs : M.init s) (hm : M.Meets ok s as)
    (h : (M.exec s as).isSome) : Reach M ok (M.final s as h) :=
  ⟨s, hs, .of_exec hm (exec_final s as h)⟩

/-- The end of a list of enabled actions is reachable. -/
theorem Reachable.final {as : List A} {s : S} (hs : M.init s)
    (h : (M.exec s as).isSome) : Reachable M (M.final s as h) :=
  Reach.final hs (meets_true s as) h

end System

end Transition
