import AffinityPool.Foundation.TransitionSystem
import Mathlib.Data.Finset.Card
import Mathlib.Data.Finset.Insert
import Mathlib.Data.Finset.Erase

/-!
# Executors of jobs

What a pool of threads is for, without the threads: jobs are made and submitted, at most `n` of
them are active at a time, and a job that has ended hands its output to its owner, once.  The
owner may cancel a job; one that is cancelled before it is started is dropped instead, and one
that is cancelled later ends but keeps its output to itself.  A job that is never submitted may
be discarded.

`Executor.Sound.of_reachable` says what holds of every run.
-/

namespace Transition

variable {R X : Type*}

/-- Where a job is. -/
inductive JobPhase (X : Type*)
  | unborn
  /-- Made and not submitted. -/
  | made
  | submitted
  | active
  | ended (x : X)
  /-- Given up without being started. -/
  | dropped
  deriving DecidableEq

/-- Nothing more becomes of the job. -/
def JobPhase.isFinal : JobPhase X → Bool
  | .ended _ | .dropped => true
  | _ => false

/-- The jobs of an executor. -/
structure Executor (R X : Type*) where
  phase : R → JobPhase X
  canceled : R → Bool
  /-- The jobs that are active. -/
  active : Finset R
  /-- The output that was handed to the owner. -/
  handed : R → Option X

namespace Executor

/-- The new executor. -/
def empty : Executor R X where
  phase := fun _ => .unborn
  canceled := fun _ => false
  active := ∅
  handed := fun _ => none

/-- The operations on an executor. -/
inductive Op (R X : Type*)
  | make (r : R)
  | submit (r : R)
  | start (r : R)
  | finish (r : R) (x : X)
  /-- Drop a cancelled job when it comes to its turn. -/
  | skip (r : R)
  /-- Drop a job that is not submitted. -/
  | discard (r : R)
  | cancel (r : R)
  /-- Hand the output to the owner. -/
  | hand (r : R)
  deriving DecidableEq

variable [DecidableEq R]

/-- Replace the phase of a job. -/
def setPhase (e : Executor R X) (r : R) (p : JobPhase X) : Executor R X :=
  { e with phase := Function.update e.phase r p }

/-- One operation of an executor with `n` places. -/
def step (n : ℕ) (e : Executor R X) : Op R X → Option (Executor R X)
  | .make r =>
    match e.phase r with
    | .unborn => some (e.setPhase r .made)
    | _ => none
  | .submit r =>
    match e.phase r with
    | .unborn | .made => some (e.setPhase r .submitted)
    | _ => none
  | .start r =>
    match e.phase r, e.canceled r with
    | .submitted, false =>
      if e.active.card < n then some { e.setPhase r .active with active := insert r e.active }
      else none
    | _, _ => none
  | .finish r x =>
    match e.phase r with
    | .active => some { e.setPhase r (.ended x) with active := e.active.erase r }
    | _ => none
  | .skip r =>
    match e.phase r, e.canceled r with
    | .submitted, true => some (e.setPhase r .dropped)
    | _, _ => none
  | .discard r =>
    match e.phase r with
    | .made => some (e.setPhase r .dropped)
    | _ => none
  | .cancel r => some { e with canceled := Function.update e.canceled r true }
  | .hand r =>
    match e.phase r, e.canceled r, e.handed r with
    | .ended x, false, none => some { e with handed := Function.update e.handed r (some x) }
    | _, _, _ => none

end Executor

variable [DecidableEq R]

/-- An executor with `n` places as a transition system. -/
def executor (n : ℕ) (R X : Type*) [DecidableEq R] : System (Executor R X) (Executor.Op R X) where
  init e := e = .empty
  step := Executor.step n

namespace Executor

variable {n : ℕ} {e e' : Executor R X} {op : Op R X}

/-- The steps, with what each of them has found. -/
inductive Move (n : ℕ) (e : Executor R X) : Executor R X → Prop
  /-- A job moves on outside the places. -/
  | pass {r : R} {p : JobPhase X} (hr : (e.phase r).isFinal = false) (ha : e.phase r ≠ .active)
      (hp : p ≠ .active) : Move n e (e.setPhase r p)
  | start {r : R} (hr : e.phase r = .submitted) (hn : e.active.card < n) :
    Move n e { e.setPhase r .active with active := insert r e.active }
  | finish {r : R} {x : X} (hr : e.phase r = .active) :
    Move n e { e.setPhase r (.ended x) with active := e.active.erase r }
  | cancel {r : R} : Move n e { e with canceled := Function.update e.canceled r true }
  | hand {r : R} {x : X} (hr : e.phase r = .ended x) :
    Move n e { e with handed := Function.update e.handed r (some x) }

/-- **Inversion.**  Every operation is one of the listed steps. -/
theorem Move.of_step (h : e.step n op = some e') : Move n e e' := by
  cases op with
  | make r | submit r | discard r =>
    simp only [Executor.step] at h
    split at h <;> cases h <;> rename_i hr <;>
      exact .pass (by rw [hr]; rfl) (by simp [hr]) (by simp)
  | start r =>
    simp only [Executor.step] at h
    split at h
    · rename_i hr hc
      split at h <;> cases h
      exact .start hr ‹_›
    · cases h
  | finish r x =>
    simp only [Executor.step] at h
    split at h <;> cases h
    exact .finish ‹_›
  | skip r =>
    simp only [Executor.step] at h
    split at h <;> cases h
    rename_i hr hc
    exact .pass (by rw [hr]; rfl) (by simp [hr]) (by simp)
  | cancel r =>
    cases h
    exact .cancel
  | hand r =>
    simp only [Executor.step] at h
    split at h <;> cases h
    rename_i hr hc hnone
    exact .hand hr

/-- What holds of every executor: its places suffice, they hold the active jobs, and what was handed
out is the output of a job. -/
structure Sound (n : ℕ) (e : Executor R X) : Prop where
  places : e.active.card ≤ n
  active : ∀ r, r ∈ e.active ↔ e.phase r = .active
  handed : ∀ r x, e.handed r = some x → e.phase r = .ended x

/-- **Step lemma.** -/
theorem Sound.step (h : Sound n e) (hm : Move n e e') : Sound n e' := by
  -- a job that is not final has handed out nothing
  have hkeep : ∀ {r : R} {p : JobPhase X}, (e.phase r).isFinal = false → ∀ u x,
      e.handed u = some x → Function.update e.phase r p u = .ended x := by
    intro r p hr u x hu
    have hended := h.handed u x hu
    have hne : u ≠ r := by
      rintro rfl
      rw [hended] at hr
      cases hr
    rw [Function.update_of_ne hne]
    exact hended
  cases hm with
  | @pass r p hr ha hp =>
    refine ⟨h.places, fun u => ?_, hkeep hr⟩
    simp only [setPhase, h.active u]
    by_cases hu : u = r
    · subst hu
      simp [ha, hp]
    · simp [hu]
  | @start r hr hn =>
    refine ⟨(Finset.card_insert_le _ _).trans hn, fun u => ?_, hkeep (by rw [hr]; rfl)⟩
    simp only [setPhase, Finset.mem_insert, h.active u]
    by_cases hu : u = r
    · subst hu
      simp
    · simp [hu]
  | @finish r x hr =>
    refine ⟨(Finset.card_erase_le).trans h.places, fun u => ?_, hkeep (by rw [hr]; rfl)⟩
    simp only [setPhase, Finset.mem_erase, h.active u]
    by_cases hu : u = r
    · subst hu
      simp
    · simp [hu]
  | cancel => exact ⟨h.places, h.active, h.handed⟩
  | @hand r x hr =>
    refine ⟨h.places, h.active, fun u y hu => ?_⟩
    rcases update_cases hu with ⟨rfl, hy⟩ | ⟨-, hold⟩
    · cases hy
      exact hr
    · exact h.handed u y hold

/-- The invariant holds in every run. -/
theorem Sound.of_reachable (h : (executor n R X).Reachable e) : Sound n e := by
  refine h.invariant ?_ fun u op u' _ hu _ hstep => hu.step (.of_step hstep)
  rintro _ rfl
  exact ⟨Nat.zero_le n, fun r => by simp [Executor.empty], fun r x hr => by cases hr⟩

end Executor

end Transition
