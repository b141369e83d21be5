import AffinityPool.Foundation.TransitionSystem
import Mathlib.Order.Monotone.Basic

/-!
# Records and infinite runs

A record is a variable that every step of a system writes and none reads: `System.record M l₀
note` starts with the record `l₀` and lets a step from `s` to `s'` by the action `a` turn the
record `l` into `note l s a s'`.  Its states are the states of `M` with what has happened on
the way.

`Run M ok s` is an infinite run of `M` from `s` whose steps meet `ok`.  `Run.exists_exit` is the
progress rule for one party of a system: it leaves every section of its code in which it keeps
acting and a count of its steps stays bounded.
-/

namespace Transition

namespace System

variable {S A L : Type*} {M : System S A} {l₀ : L} {note : L → S → A → S → L}

/-! ## Records -/

/-- The system `M` with a record of its steps. -/
def record (M : System S A) (l₀ : L) (note : L → S → A → S → L) : System (S × L) A where
  init x := M.init x.1 ∧ x.2 = l₀
  step x a := (M.step x.1 a).map fun s' => (s', note x.2 x.1 a s')

/-- A step under a record is a step of the system, noted. -/
lemma record_step {x x' : S × L} {a : A} :
    (M.record l₀ note).step x a = some x' ↔
      M.step x.1 a = some x'.1 ∧ x'.2 = note x.2 x.1 a x'.1 := by
  constructor
  · intro h
    obtain ⟨s', hs, rfl⟩ := Option.map_eq_some_iff.mp h
    exact ⟨hs, rfl⟩
  · rintro ⟨hs, hl⟩
    refine Option.map_eq_some_iff.mpr ⟨x'.1, hs, ?_⟩
    rw [← hl]

/-- A record disables no step. -/
lemma record_of_step {x : S × L} {s' : S} {a : A} (h : M.step x.1 a = some s') :
    (M.record l₀ note).step x a = some (s', note x.2 x.1 a s') :=
  record_step.mpr ⟨h, rfl⟩

/-- A run under a record is a run of the system, and meets what its steps meet. -/
theorem Reach.of_record_meets {ok : S × L → A → Prop} {ok' : S → A → Prop}
    (hok : ∀ x a, ok x a → ok' x.1 a) {x : S × L} (h : Reach (M.record l₀ note) ok x) :
    Reach M ok' x.1 := by
  obtain ⟨x₀, hinit, hl⟩ := h
  induction hl with
  | refl => exact .of_init hinit.1
  | tail _ hk hs ih => exact ih.step (hok _ _ hk) (record_step.mp hs).1

/-- The states under a record are states of the system. -/
theorem Reach.of_record {ok : S × L → A → Prop} {x : S × L}
    (h : Reach (M.record l₀ note) ok x) : Reachable M x.1 := by
  refine h.reachable.map Prod.fst ?_ ?_
  · intro x hx
    exact hx.1
  · intro x a x' hs
    exact Or.inr ⟨a, (record_step.mp hs).1⟩

/-- Every reachable state is reached under a record. -/
theorem Reachable.exists_record {s : S} (h : Reachable M s) :
    ∃ l, Reachable (M.record l₀ note) (s, l) := by
  obtain ⟨s₀, hinit, hl⟩ := h
  induction hl with
  | refl => exact ⟨l₀, .of_init ⟨hinit, rfl⟩⟩
  | tail _ _ hs ih =>
    obtain ⟨l, hl⟩ := ih
    exact ⟨_, hl.step trivial (record_of_step hs)⟩

/-! ## Refinement -/

variable {T B : Type*} {N : System T B} {op : S → A → Option B} {t₀ : T}

/-- The record in which the system `N` follows the steps: a step is the operation `op` of `N`,
or none. -/
def followed (N : System T B) (op : S → A → Option B) (x : T) (s : S) (a : A) (_ : S) : T :=
  ((op s a).bind (N.step x)).getD x

/-- **Refinement rule.**  If the relation `R` between the states of two systems holds at their
starts, and for every step from related states the operation of that step can be executed
and leads to related states, then `N` follows every run of `M` in related states, and without
leaving its own runs. -/
theorem Reach.followed {R : S → T → Prop} (hstart : N.init t₀)
    (hinit : ∀ s, M.init s → R s t₀)
    (hstep : ∀ s a s' x, Reachable M s → R s x → M.step s a = some s' →
      (op s a = none ∧ R s' x) ∨
        ∃ b x', op s a = some b ∧ N.step x b = some x' ∧ R s' x')
    {y : S × T} (h : Reachable (M.record t₀ (followed N op)) y) :
    R y.1 y.2 ∧ Reachable N y.2 := by
  refine h.invariant (I := fun y => R y.1 y.2 ∧ Reachable N y.2) ?_ ?_
  · rintro ⟨s, x⟩ ⟨hs, hx⟩
    obtain rfl : x = t₀ := hx
    exact ⟨hinit s hs, .of_init hstart⟩
  · rintro y a y' hr ⟨hrel, hreach⟩ - hs
    obtain ⟨hs, hx⟩ := record_step.mp hs
    rw [hx]
    rcases hstep y.1 a y'.1 y.2 hr.of_record hrel hs with ⟨hop, hrel'⟩ | ⟨b, x', hop, hb, hrel'⟩
    · simp only [System.followed, hop, Option.bind_none, Option.getD_none]
      exact ⟨hrel', hreach⟩
    · simp only [System.followed, hop, Option.bind_some, hb, Option.getD_some]
      exact ⟨hrel', hreach.step trivial hb⟩

end System

/-! ## Infinite runs -/

/-- An infinite run of `M` from `s` whose steps meet `ok`. -/
structure Run {S A : Type*} (M : System S A) (ok : S → A → Prop) (s : S) where
  state : ℕ → S
  action : ℕ → A
  start : state 0 = s
  meets : ∀ n, ok (state n) (action n)
  step : ∀ n, M.step (state n) (action n) = some (state (n + 1))

namespace Run

variable {S A : Type*} {M : System S A} {ok : S → A → Prop} {s : S}

/-- Every state of an infinite run is led to. -/
lemma leads (r : Run M ok s) (n : ℕ) : System.Leads M ok s (r.state n) := by
  induction n with
  | zero =>
    rw [r.start]
    exact .refl
  | succ n ih => exact ih.tail (r.meets n) (r.step n)

/-- **Exit rule.**  A party whose actions are `Mine` is in a section `Inside` of its code.  If
other actions keep it there, and each of its own either leaves the section or raises a count
that is bounded in the section, then the party leaves it, provided that it keeps acting as long as
it is there. -/
theorem exists_exit (r : Run M ok s) (Inside : S → Prop) (Mine : A → Prop) (Exit : S → S → Prop)
    (count : S → ℕ) (bound : ℕ)
    (hother : ∀ n, Inside (r.state n) → ¬ Mine (r.action n) →
      Inside (r.state (n + 1)) ∧ count (r.state n) ≤ count (r.state (n + 1)))
    (hmine : ∀ n, Inside (r.state n) → Mine (r.action n) →
      ¬ Exit (r.state n) (r.state (n + 1)) →
      Inside (r.state (n + 1)) ∧ count (r.state n) < count (r.state (n + 1)))
    (hbound : ∀ n, Inside (r.state n) → count (r.state n) ≤ bound)
    (hacts : ∀ n, Inside (r.state n) → ∃ m ≥ n, Mine (r.action m)) (hs : Inside s) :
    ∃ n, Mine (r.action n) ∧ Exit (r.state n) (r.state (n + 1)) := by
  by_contra hnone
  have hstay : ∀ n, Mine (r.action n) → ¬ Exit (r.state n) (r.state (n + 1)) :=
    fun n hm he => hnone ⟨n, hm, he⟩
  have hinside : ∀ n, Inside (r.state n) := by
    intro n
    induction n with
    | zero =>
      rw [r.start]
      exact hs
    | succ n ih =>
      by_cases hm : Mine (r.action n)
      · exact (hmine n ih hm (hstay n hm)).1
      · exact (hother n ih hm).1
  have hmono : Monotone fun n => count (r.state n) := by
    refine monotone_nat_of_le_succ fun n => ?_
    by_cases hm : Mine (r.action n)
    · exact (hmine n (hinside n) hm (hstay n hm)).2.le
    · exact (hother n (hinside n) hm).2
  -- every action of the party raises the count once more
  have hgrows : ∀ k, ∃ n, k ≤ count (r.state n) := by
    intro k
    induction k with
    | zero => exact ⟨0, Nat.zero_le _⟩
    | succ k ih =>
      obtain ⟨n, hn⟩ := ih
      obtain ⟨m, hnm, hm⟩ := hacts n (hinside n)
      have hraise := (hmine m (hinside m) hm (hstay m hm)).2
      have hkept : count (r.state n) ≤ count (r.state m) := hmono hnm
      exact ⟨m + 1, by omega⟩
  obtain ⟨n, hn⟩ := hgrows (bound + 1)
  have hle := hbound n (hinside n)
  omega

end Run

end Transition
