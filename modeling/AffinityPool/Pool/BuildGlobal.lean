import AffinityPool.Foundation.TransitionSystem
import Mathlib.Data.Fintype.Basic

/-!
# `Threadpool::build_global`

The global pool lives in a `OnceLock`.  `build_global` first looks whether the lock is set,
then calls `get_or_init` with its own pool, and reports success whatever `get_or_init` has
done.  The callers are the elements of an arbitrary type, and each of them calls once, with
a pool of its own.

`OnceLock::get_or_init` runs at most one initialiser at a time and none after the first: a
caller that finds the lock set discards its closure, and one that finds an initialiser at
work waits for it.

Two calls that look at the empty lock before either has set it both report success, though
one of their pools is dropped (`both_report_success`).  When no call looks while another one
is under way, the calls agree with the lock (`build_global_atomic`).
-/

namespace AffinityPool

open Transition System

/-- The errors of the crate. -/
inductive Error
  | globalThreadpoolExists

namespace Global

variable {I : Type}

/-- The state of the lock `THREADPOOL`. -/
inductive Slot (I : Type)
  | empty
  /-- The initialiser of the caller is at work. -/
  | initialising (i : I)
  /-- The pool of the caller is the global one. -/
  | installed (i : I)

/-- Where a caller is in `build_global`. -/
inductive Stage
  /-- Before `THREADPOOL.get()`. -/
  | check
  /-- Before `THREADPOOL.get_or_init`. -/
  | getOrInit
  /-- Inside its initialiser. -/
  | initialising
  | returned (r : Except Error Unit)

/-- The call is about to look at the lock. -/
def Stage.isCheck : Stage → Bool
  | .check => true
  | _ => false

/-- The call has looked at the lock and not reported yet. -/
def Stage.isUnderWay : Stage → Bool
  | .getOrInit | .initialising => true
  | _ => false

/-- A state: the lock and the callers. -/
structure State (I : Type) where
  slot : Slot I
  stage : I → Stage

/-- One step of caller `i`. -/
def State.step [DecidableEq I] (s : State I) (i : I) : Option (State I) :=
  match s.stage i, s.slot with
  | .check, .installed _ =>
    some { s with stage := Function.update s.stage i (.returned (.error .globalThreadpoolExists)) }
  | .check, _ => some { s with stage := Function.update s.stage i .getOrInit }
  | .getOrInit, .empty =>
    some ⟨.initialising i, Function.update s.stage i .initialising⟩
  | .getOrInit, .initialising _ => none
  | .getOrInit, .installed _ =>
    some { s with stage := Function.update s.stage i (.returned (.ok ())) }
  | .initialising, _ => some ⟨.installed i, Function.update s.stage i (.returned (.ok ()))⟩
  | .returned _, _ => none

/-- The calls on an initially empty lock. -/
def machine (I : Type) [DecidableEq I] : System (State I) I where
  init s := s = ⟨.empty, fun _ => .check⟩
  step := State.step

/-! ## What one step can do -/

/-- The steps of a caller, with the state of the lock each of them has found. -/
inductive Move (s : State I) (i : I) : Slot I → Stage → Prop
  | reject {w : I} (hi : s.stage i = .check) (hs : s.slot = .installed w) :
    Move s i s.slot (.returned (.error .globalThreadpoolExists))
  | look (hi : s.stage i = .check) (hs : ∀ w, s.slot ≠ .installed w) : Move s i s.slot .getOrInit
  | start (hi : s.stage i = .getOrInit) (hs : s.slot = .empty) :
    Move s i (.initialising i) .initialising
  /-- `get_or_init` drops the closure with the pool inside. -/
  | discard {w : I} (hi : s.stage i = .getOrInit) (hs : s.slot = .installed w) :
    Move s i s.slot (.returned (.ok ()))
  | install (hi : s.stage i = .initialising) : Move s i (.installed i) (.returned (.ok ()))

/-- **Inversion.**  Every step is one of the listed ones. -/
theorem Move.of_step [DecidableEq I] {s s' : State I} {i : I} (h : s.step i = some s') :
    ∃ slot stage, Move s i slot stage ∧ s' = ⟨slot, Function.update s.stage i stage⟩ := by
  unfold State.step at h
  split at h
  · cases h
    exact ⟨_, _, .reject ‹_› ‹_›, rfl⟩
  · rename_i hi hne
    cases h
    exact ⟨_, _, .look hi fun w hw => hne w hw, rfl⟩
  · cases h
    exact ⟨_, _, .start ‹_› ‹_›, rfl⟩
  · cases h
  · cases h
    exact ⟨_, _, .discard ‹_› ‹_›, rfl⟩
  · cases h
    exact ⟨_, _, .install ‹_›, rfl⟩
  · cases h

namespace State

/-- No call looks at the lock while another one is under way. -/
def NoOverlap (s : State I) (i : I) : Prop :=
  (s.stage i).isCheck = true → ∀ j, (s.stage j).isUnderWay = false

instance NoOverlap.decidable [Fintype I] (s : State I) (i : I) : Decidable (s.NoOverlap i) :=
  inferInstanceAs (Decidable (_ → ∀ _j, _ = false))

/-- Every call has returned. -/
def Finished (s : State I) : Prop := ∀ i, ∃ r, s.stage i = .returned r

/-- The calls agree with the lock: only the caller whose pool is installed has been told `Ok`, and
when all of them have returned, it has, and every other one has been told that there is a global
pool already. -/
structure Atomic (s : State I) : Prop where
  ok : ∀ i, s.stage i = .returned (.ok ()) → s.slot = .installed i
  winner : s.Finished → Nonempty I → ∃ w, s.slot = .installed w ∧
    s.stage w = .returned (.ok ()) ∧
      ∀ i, i ≠ w → s.stage i = .returned (.error .globalThreadpoolExists)

end State

/-! ## The invariants -/

/-- What the stages say about the lock, in every run. -/
structure Coherent (s : State I) : Prop where
  initialising : ∀ i, s.stage i = .initialising → s.slot = .initialising i
  installed : ∀ i, s.slot = .installed i → s.stage i = .returned (.ok ())
  refused : ∀ i e, s.stage i = .returned (.error e) → ∃ w, s.slot = .installed w

/-- What they say in addition when no calls overlap. -/
structure Exclusive (s : State I) : Prop where
  one : ∀ i j, (s.stage i).isUnderWay = true → (s.stage j).isUnderWay = true → i = j
  unset : ∀ i w, (s.stage i).isUnderWay = true → s.slot ≠ .installed w
  ok : ∀ i, s.stage i = .returned (.ok ()) → s.slot = .installed i

section Step

variable {s : State I} {i : I} {slot : Slot I} {stage : Stage}

/-- The lock is set by the end of an initialiser and never reset. -/
lemma Move.slot_cases (hm : Move s i slot stage) :
    slot = s.slot ∧ stage ≠ .initialising ∨
      s.slot = .empty ∧ s.stage i = .getOrInit ∧ slot = .initialising i ∧ stage = .initialising ∨
      s.stage i = .initialising ∧ slot = .installed i ∧ stage = .returned (.ok ()) := by
  cases hm with
  | reject hi hs => exact Or.inl ⟨rfl, nofun⟩
  | look hi hs => exact Or.inl ⟨rfl, nofun⟩
  | start hi hs => exact Or.inr (Or.inl ⟨hs, hi, rfl, rfl⟩)
  | discard hi hs => exact Or.inl ⟨rfl, nofun⟩
  | install hi => exact Or.inr (Or.inr ⟨hi, rfl, rfl⟩)

/-- A call reports an error when the lock is set. -/
lemma Move.refused {e : Error} (hm : Move s i slot (.returned (.error e))) :
    ∃ w, slot = .installed w := by
  generalize hr : Stage.returned (.error e) = stage at hm
  cases hm with
  | reject hi hs => exact ⟨_, hs⟩
  | _ => cases hr

/-- A caller that has returned takes no step. -/
lemma Move.not_returned (hm : Move s i slot stage) (r : Except Error Unit) :
    s.stage i ≠ .returned r := by
  intro hr
  cases hm with
  | reject hi | look hi | start hi | discard hi | install hi =>
    rw [hr] at hi
    cases hi

/-- **Step lemma.**  A step keeps the stages coherent. -/
theorem Coherent.step [DecidableEq I] (h : Coherent s) (hm : Move s i slot stage) :
    Coherent ⟨slot, Function.update s.stage i stage⟩ := by
  constructor
  · intro j hj
    rcases hm.slot_cases with ⟨rfl, hne⟩ | ⟨hempty, -, rfl, rfl⟩ | ⟨hi, rfl, rfl⟩
    · rcases update_cases hj with ⟨-, hstage⟩ | ⟨-, hold⟩
      · exact absurd hstage hne
      · exact h.initialising j hold
    · rcases update_cases hj with ⟨heq, -⟩ | ⟨-, hold⟩
      · rw [heq]
      · have hslot := h.initialising j hold
        rw [hempty] at hslot
        cases hslot
    · rcases update_cases hj with ⟨-, hstage⟩ | ⟨hne, hold⟩
      · cases hstage
      · have hslot := (h.initialising j hold).symm.trans (h.initialising i hi)
        injection hslot with heq
        exact absurd heq hne
  · intro w hw
    rcases hm.slot_cases with ⟨rfl, -⟩ | ⟨-, -, rfl, -⟩ | ⟨-, rfl, rfl⟩
    · have hold := h.installed w hw
      have hwi : w ≠ i := by
        rintro rfl
        exact hm.not_returned _ hold
      dsimp only
      rw [Function.update_of_ne hwi]
      exact hold
    · cases hw
    · cases hw
      exact Function.update_self ..
  · intro j e hj
    rcases update_cases hj with ⟨-, rfl⟩ | ⟨-, hold⟩
    · exact hm.refused
    · obtain ⟨w, hw⟩ := h.refused j e hold
      rcases hm.slot_cases with ⟨rfl, -⟩ | ⟨hempty, -⟩ | ⟨-, rfl, -⟩
      · exact ⟨w, hw⟩
      · rw [hempty] at hw
        cases hw
      · exact ⟨i, rfl⟩

/-- A caller gets under way by looking at an unset lock. -/
lemma Move.under_way (hm : Move s i slot stage) (h : stage.isUnderWay = true) :
    (s.stage i).isUnderWay = true ∧ (∃ w, slot = .initialising w) ∨
      s.stage i = .check ∧ slot = s.slot ∧ ∀ w, s.slot ≠ .installed w := by
  cases hm with
  | look hi hs => exact Or.inr ⟨hi, rfl, hs⟩
  | start hi hs => exact Or.inl ⟨by rw [hi]; rfl, i, rfl⟩
  | _ => cases h

/-- **Step lemma.**  A step that does not overlap keeps the calls exclusive. -/
theorem Exclusive.step [DecidableEq I] (h : Exclusive s) (hc : Coherent s) (hok : s.NoOverlap i)
    (hm : Move s i slot stage) : Exclusive ⟨slot, Function.update s.stage i stage⟩ := by
  have hother : ∀ j, j ≠ i → (s.stage j).isUnderWay = true → stage.isUnderWay = false := by
    intro j hj hjw
    by_contra hne
    rcases hm.under_way (Bool.eq_true_of_not_eq_false hne) with ⟨hiw, -⟩ | ⟨hi, -, -⟩
    · exact hj (h.one j i hjw hiw)
    · have hnone := hok (by rw [hi]; rfl) j
      rw [hjw] at hnone
      cases hnone
  constructor
  · intro j k hj hk
    dsimp only at hj hk
    by_cases hji : j = i
    · by_cases hki : k = i
      · rw [hji, hki]
      · rw [hji, Function.update_self] at hj
        rw [Function.update_of_ne hki] at hk
        rw [hother k hki hk] at hj
        cases hj
    · rw [Function.update_of_ne hji] at hj
      by_cases hki : k = i
      · rw [hki, Function.update_self] at hk
        rw [hother j hji hj] at hk
        cases hk
      · rw [Function.update_of_ne hki] at hk
        exact h.one j k hj hk
  · intro j w hj hw
    dsimp only at hj hw
    by_cases hji : j = i
    · rw [hji, Function.update_self] at hj
      rcases hm.under_way hj with ⟨-, v, hslot⟩ | ⟨-, hslot, hunset⟩
      · rw [hslot] at hw
        cases hw
      · exact hunset w (hslot.symm.trans hw)
    · rw [Function.update_of_ne hji] at hj
      rcases hm.slot_cases with ⟨rfl, -⟩ | ⟨-, -, rfl, -⟩ | ⟨hi, -, -⟩
      · exact h.unset j w hj hw
      · cases hw
      · exact hji (h.one j i hj (by rw [hi]; rfl))
  · intro j hj
    rcases update_cases hj with ⟨rfl, rfl⟩ | ⟨-, hold⟩
    · cases hm with
      | discard hi hs => exact absurd hs (h.unset j _ (by rw [hi]; rfl))
      | install hi => rfl
    · have hslot := h.ok j hold
      rcases hm.slot_cases with ⟨rfl, -⟩ | ⟨hempty, -⟩ | ⟨hi, -⟩
      · exact hslot
      · rw [hempty] at hslot
        cases hslot
      · have hinit := hc.initialising i hi
        rw [hslot] at hinit
        cases hinit

end Step

/-! ## Runs -/

variable {s : State I}

/-- The stages are coherent in every run. -/
theorem Coherent.of_reachable [DecidableEq I] (h : (machine I).Reachable s) : Coherent s := by
  refine h.invariant ?_ ?_
  · rintro _ rfl
    exact ⟨nofun, nofun, nofun⟩
  · intro s i s' _ hs _ hstep
    obtain ⟨slot, stage, hm, rfl⟩ := Move.of_step hstep
    exact hs.step hm

/-- Without overlaps, the calls are exclusive. -/
theorem Exclusive.of_reach [DecidableEq I] (h : (machine I).Reach State.NoOverlap s) :
    Exclusive s := by
  refine h.invariant ?_ ?_
  · rintro _ rfl
    exact ⟨nofun, nofun, nofun⟩
  · intro s i s' hr hs hok hstep
    obtain ⟨slot, stage, hm, rfl⟩ := Move.of_step hstep
    exact hs.step (.of_reachable hr.reachable) hok hm

/-- When all calls have returned, there is a global pool. -/
lemma Coherent.exists_installed (h : Coherent s) (he : Exclusive s) (hf : s.Finished) (i : I) :
    ∃ w, s.slot = .installed w := by
  obtain ⟨r, hr⟩ := hf i
  cases r with
  | ok u => exact ⟨i, he.ok i hr⟩
  | error e => exact h.refused i e hr

/-- Exclusive calls agree with the lock. -/
lemma Exclusive.atomic (he : Exclusive s) (h : Coherent s) : s.Atomic := by
  refine ⟨he.ok, ?_⟩
  rintro hf ⟨i⟩
  obtain ⟨w, hw⟩ := h.exists_installed he hf i
  refine ⟨w, hw, h.installed w hw, fun j hj => ?_⟩
  obtain ⟨r, hr⟩ := hf j
  cases r with
  | ok u =>
    have hslot := he.ok j hr
    rw [hw] at hslot
    cases hslot
    exact absurd rfl hj
  | error e =>
    cases e
    exact hr

/-- A caller whose call will report success, or has. -/
def State.Passed (s : State I) (i : I) : Prop :=
  (s.stage i).isUnderWay = true ∨ s.stage i = .returned (.ok ())

/-- A call that has looked at the unset lock reports success in the end. -/
lemma State.Passed.step [DecidableEq I] {i j : I} {slot : Slot I} {stage : Stage} (h : s.Passed j)
    (hm : Move s i slot stage) :
    (⟨slot, Function.update s.stage i stage⟩ : State I).Passed j := by
  unfold State.Passed
  dsimp only
  by_cases hj : j = i
  · subst hj
    rw [Function.update_self]
    cases hm with
    | reject hi hs => rcases h with h | h <;> rw [hi] at h <;> cases h
    | look hi hs => exact Or.inl rfl
    | start hi hs => exact Or.inl rfl
    | discard hi hs => exact Or.inr rfl
    | install hi => exact Or.inr rfl
  · rw [Function.update_of_ne hj]
    exact h

/-- In the end it has. -/
lemma State.Passed.ok {j : I} (h : s.Passed j) (hf : s.Finished) :
    s.stage j = .returned (.ok ()) := by
  obtain ⟨r, hr⟩ := hf j
  refine h.resolve_left fun hway => ?_
  rw [hr] at hway
  cases hway

/-- Two calls have looked at the unset lock. -/
def State.TwoPassed (s : State I) : Prop := ∃ a b, a ≠ b ∧ s.Passed a ∧ s.Passed b

/-- A call that looks at the lock while another one is under way is the second to pass, or comes
after a second one. -/
lemma Coherent.two_passed [DecidableEq I] (h : Coherent s) {i j : I} {s' : State I}
    (hi : (s.stage i).isCheck = true) (hj : (s.stage j).isUnderWay = true)
    (hs : s.step i = some s') : s'.TwoPassed := by
  obtain ⟨slot, stage, hm, rfl⟩ := Move.of_step hs
  have hpassed : s.Passed j := Or.inl hj
  cases hm with
  | @reject w hcheck hslot =>
    have hw : s.Passed w := Or.inr (h.installed w hslot)
    refine ⟨j, w, ?_, hpassed.step (.reject hcheck hslot), hw.step (.reject hcheck hslot)⟩
    rintro rfl
    rw [h.installed j hslot] at hj
    cases hj
  | look hcheck hunset =>
    refine ⟨j, i, ?_, hpassed.step (.look hcheck hunset), Or.inl ?_⟩
    · rintro rfl
      rw [hcheck] at hj
      cases hj
    · simp [Stage.isUnderWay]
  | start hstage | discard hstage | install hstage =>
    rw [hstage] at hi
    cases hi

lemma State.TwoPassed.leads [DecidableEq I] {t : State I} (hr : (machine I).Reachable s)
    (hl : (machine I).Leads (fun _ _ => True) s t) (h : s.TwoPassed) : t.TwoPassed := by
  refine hl.stable hr ?_ h
  rintro u i u' - ⟨a, b, hab, ha, hb⟩ - hs
  obtain ⟨slot, stage, hm, rfl⟩ := Move.of_step hs
  exact ⟨a, b, hab, ha.step hm, hb.step hm⟩

/-- **Global pool.**  When no call looks at the lock while another one is under way, the calls
agree with the lock in every reached state; and once one has, they will not. -/
theorem build_global_atomic (I : Type) [DecidableEq I] :
    (∀ s, (machine I).Reach State.NoOverlap s → s.Atomic) ∧
      ∀ s i s' t, (machine I).Reachable s → ¬ s.NoOverlap i → (machine I).step s i = some s' →
        (machine I).Leads (fun _ _ => True) s' t → t.Finished → ¬ t.Atomic := by
  constructor
  · intro s h
    exact (Exclusive.of_reach h).atomic (.of_reachable h.reachable)
  · intro s i s' t h hok hs hl hf hatomic
    obtain ⟨hcheck, hnone⟩ := Classical.not_imp.mp hok
    obtain ⟨j, hj⟩ := not_forall.mp hnone
    have hpassed := (Coherent.of_reachable h).two_passed hcheck (Bool.eq_true_of_not_eq_false hj) hs
    obtain ⟨a, b, hab, ha, hb⟩ := State.TwoPassed.leads (h.step trivial hs) hl hpassed
    have hslot := (hatomic.ok a (ha.ok hf)).symm.trans (hatomic.ok b (hb.ok hf))
    injection hslot with heq
    exact hab heq

/-! ## Two successes -/

/-- The second caller looks at the lock when the first one has reported. -/
def inTurn : State (Fin 2) :=
  (machine (Fin 2)).final ⟨.empty, fun _ => .check⟩ [0, 0, 0, 1] (by decide)

/-- One call succeeds and the other one fails. -/
theorem atomic_inTurn : inTurn.Atomic ∧
    inTurn.stage 1 = .returned (.error .globalThreadpoolExists) :=
  ⟨(build_global_atomic (Fin 2)).1 inTurn (Reach.final rfl (by decide) _), rfl⟩

/-- Both callers look at the lock before either calls `get_or_init`. -/
def atOnce : State (Fin 2) :=
  (machine (Fin 2)).final ⟨.empty, fun _ => .check⟩ [0, 1, 0, 0, 1] (by decide)

/-- Both calls report success, and the pool of the second one is not the global one. -/
theorem both_report_success :
    atOnce.Finished ∧ atOnce.stage 0 = .returned (.ok ()) ∧ atOnce.stage 1 = .returned (.ok ()) ∧
      atOnce.slot = .installed 0 ∧ ¬ ∀ s, (machine (Fin 2)).Reachable s → s.Atomic := by
  refine ⟨?_, rfl, rfl, rfl, ?_⟩
  · exact Fin.forall_fin_two.mpr ⟨⟨_, rfl⟩, ⟨_, rfl⟩⟩
  · intro hall
    have hok := (hall atOnce (Reachable.final rfl _)).ok 1 rfl
    have hslot : (Slot.installed 0 : Slot (Fin 2)) = .installed 1 := hok
    injection hslot with heq
    exact absurd heq (by decide)

end Global

end AffinityPool
