import AffinityPool.Pool.Lifecycle

/-!
# `Threadpool::drop`

The drop joins the handles it finds when it takes the list.  A replacement whose handle is
stored later is joined by nobody, so the pool can be gone while a worker of it still runs
(`replacement_outlives`).  When no sentry is at work at that moment and no worker unwinds
afterwards, every thread ever started has terminated when the drop returns
(`all_joined`).
-/

namespace AffinityPool

namespace Lifecycle

open Transition System

variable {s s' : State} {a : Action} {workers : ℕ}

/-- The sentry of the thread is at work. -/
def Status.respawns : Status → Bool
  | .unwinding | .counting | .spawning | .storing _ => true
  | _ => false

namespace Dropper

/-- The handles have been taken. -/
def drained : Dropper → Bool
  | .joining _ _ | .panicked _ | .returned _ | .released => true
  | _ => false

/-- The drop joins the handles it has taken, or has joined them all. -/
def joins : Dropper → Bool
  | .joining _ _ | .returned _ => true
  | _ => false

/-- Handles that are joined have been taken. -/
lemma drained_of_joins {d : Dropper} (h : d.joins = true) : d.drained = true := by
  cases d with
  | joining | returned => rfl
  | idle | begun | shut | panicked | released => cases h

/-- The handles that are left to join. -/
def left : Dropper → List ℕ
  | .joining _ hs => hs
  | _ => []

end Dropper

namespace State

/-- The handles are taken when no sentry is at work, and no worker unwinds afterwards. -/
def Undisturbed (s : State) : Action → Prop
  | .drop => (s.dropper matches .shut _) → ∀ k < s.next, (s.status k).respawns = false
  | .unwind _ => s.dropper.drained = false
  | _ => True

instance Undisturbed.decidable (s : State) : ∀ a, Decidable (s.Undisturbed a)
  | .drop => inferInstanceAs (Decidable (_ → ∀ k < s.next, (s.status k).respawns = false))
  | .unwind _ => inferInstanceAs (Decidable (_ = false))
  | .begin _ | .exit _ | .advance _ => inferInstanceAs (Decidable True)

end State

/-! ## Handles and threads -/

/-- Every thread is accounted for: before the handles are taken its handle is stored or about to
be; no sentry is at work afterwards; and while the drop joins, the handle is left to join or the
thread has terminated. -/
structure Accounted (s : State) : Prop where
  numbered : ∀ k, s.next ≤ k → s.status k = .unborn
  listed : s.dropper.drained = false → ∀ k, s.status k ≠ .unborn →
    k ∈ s.data.threadHandles ∨ ∃ j, s.status j = .storing k
  quiet : s.dropper.drained = true → ∀ k, (s.status k).respawns = false
  left : s.dropper.joins = true → ∀ k, s.status k ≠ .unborn →
    k ∈ s.dropper.left ∨ s.status k = .terminated

/-- A started thread that stores no handle goes on. -/
lemma Accounted.setStatus (h : Accounted s) {k : ℕ} {x : Status} (hold : s.status k ≠ .unborn)
    (hstoring : ∀ m, s.status k ≠ .storing m) (hended : s.status k ≠ .terminated)
    (hquiet : s.dropper.drained = true → x.respawns = false) :
    Accounted (s.setStatus k x) := by
  have hstatus : ∀ j, j ≠ k → (s.setStatus k x).status j = s.status j :=
    fun j hj => Function.update_of_ne hj _ _
  have hself : (s.setStatus k x).status k = x := Function.update_self _ _ _
  have hborn : ∀ j, (s.setStatus k x).status j ≠ .unborn → s.status j ≠ .unborn := by
    intro j hj
    by_cases hjk : j = k
    · rwa [hjk]
    · rwa [hstatus j hjk] at hj
  constructor
  · intro j hj
    have hjk : j ≠ k := by
      rintro rfl
      exact hold (h.numbered j hj)
    rw [hstatus j hjk]
    exact h.numbered j hj
  · intro hd j hj
    refine (h.listed hd j (hborn j hj)).imp_right ?_
    rintro ⟨i, hi⟩
    have hik : i ≠ k := by
      rintro rfl
      exact hstoring j hi
    exact ⟨i, by rw [hstatus i hik]; exact hi⟩
  · intro hd j
    by_cases hjk : j = k
    · rw [hjk, hself]
      exact hquiet hd
    · rw [hstatus j hjk]
      exact h.quiet hd j
  · intro hd j hj
    rcases h.left hd j (hborn j hj) with hmem | hterm
    · exact Or.inl hmem
    · have hjk : j ≠ k := by
        rintro rfl
        exact hended hterm
      rw [hstatus j hjk]
      exact Or.inr hterm

/-- While a sentry is at work, the handles have not been taken. -/
lemma Accounted.not_drained (h : Accounted s) {k : ℕ} (hk : (s.status k).respawns = true) :
    s.dropper.drained = false := by
  by_contra hd
  have hquiet := h.quiet (Bool.eq_true_of_not_eq_false hd) k
  rw [hk] at hquiet
  cases hquiet

/-- The start of a replacement. -/
lemma Accounted.spawn (h : Accounted s) {k : ℕ} (hk : s.status k = .spawning) :
    Accounted { (s.setStatus s.next .running).setStatus k (.storing s.next) with
      next := s.next + 1 } := by
  have hd := h.not_drained (k := k) (by rw [hk]; rfl)
  have hlt : k < s.next := by
    by_contra hge
    have hunborn := h.numbered k (Nat.le_of_not_lt hge)
    rw [hk] at hunborn
    cases hunborn
  have hstatus : ∀ j, j ≠ k → j ≠ s.next →
      ((s.setStatus s.next .running).setStatus k (.storing s.next)).status j = s.status j := by
    intro j hjk hjn
    exact (Function.update_of_ne hjk _ _).trans (Function.update_of_ne hjn _ _)
  have hself : ((s.setStatus s.next .running).setStatus k (.storing s.next)).status k =
      .storing s.next := Function.update_self _ _ _
  constructor
  · intro j hj
    dsimp only at hj ⊢
    rw [hstatus j (by omega) (by omega)]
    exact h.numbered j (by omega)
  · intro _ j hj
    by_cases hjn : j = s.next
    · rw [hjn]
      exact Or.inr ⟨k, hself⟩
    · have hborn : s.status j ≠ .unborn := by
        by_cases hjk : j = k
        · rw [hjk, hk]
          nofun
        · rwa [hstatus j hjk hjn] at hj
      refine (h.listed hd j hborn).imp_right ?_
      rintro ⟨i, hi⟩
      have hik : i ≠ k := by
        rintro rfl
        rw [hk] at hi
        cases hi
      have hin : i ≠ s.next := by
        rintro rfl
        rw [h.numbered _ le_rfl] at hi
        cases hi
      exact ⟨i, (hstatus i hik hin).trans hi⟩
  · intro hd'
    exact absurd (hd.symm.trans hd') nofun
  · intro hd'
    exact absurd (hd.symm.trans (Dropper.drained_of_joins hd')) nofun

/-- The handle of a replacement is stored. -/
lemma Accounted.store (h : Accounted s) {k m : ℕ} (hk : s.status k = .storing m) :
    Accounted { s.setStatus k .ending with data := s.data.store m, strong := s.strong - 1 } := by
  have hd := h.not_drained (k := k) (by rw [hk]; rfl)
  have hstatus : ∀ j, j ≠ k → (s.setStatus k .ending).status j = s.status j :=
    fun j hj => Function.update_of_ne hj _ _
  constructor
  · intro j hj
    have hjk : j ≠ k := by
      rintro rfl
      have hunborn := h.numbered j hj
      rw [hk] at hunborn
      cases hunborn
    exact (hstatus j hjk).trans (h.numbered j hj)
  · intro _ j hj
    have hborn : s.status j ≠ .unborn := by
      by_cases hjk : j = k
      · rw [hjk, hk]
        nofun
      · exact fun hu => hj ((hstatus j hjk).trans hu)
    rcases h.listed hd j hborn with hmem | ⟨i, hi⟩
    · exact Or.inl (List.mem_append_left _ hmem)
    · by_cases hik : i = k
      · rw [hik, hk] at hi
        cases hi
        exact Or.inl (List.mem_append_right _ (List.mem_singleton_self _))
      · exact Or.inr ⟨i, (hstatus i hik).trans hi⟩
  · intro hd'
    exact absurd (hd.symm.trans hd') nofun
  · intro hd'
    exact absurd (hd.symm.trans (Dropper.drained_of_joins hd')) nofun

/-- **Step lemma.**  An undisturbed step keeps every thread accounted for. -/
theorem Accounted.step (h : Accounted s) (hok : s.Undisturbed a) (hm : Move s a s') :
    Accounted s' := by
  cases hm with
  | begin hi he =>
    exact ⟨h.numbered, fun _ => h.listed (by rw [hi]; rfl), nofun, nofun⟩
  | shutdown hd =>
    exact ⟨h.numbered, fun _ => h.listed (by rw [hd]; rfl), nofun, nofun⟩
  | drain hd =>
    have hquiet : ∀ k, (s.status k).respawns = false := by
      intro k
      by_cases hk : k < s.next
      · exact hok (by rw [hd]) k hk
      · rw [h.numbered k (Nat.le_of_not_lt hk)]
        rfl
    refine ⟨h.numbered, nofun, fun _ => hquiet, fun _ k hk => ?_⟩
    rcases h.listed (by rw [hd]; rfl) k hk with hmem | ⟨j, hj⟩
    · exact Or.inl hmem
    · have hrespawns := hquiet j
      rw [hj] at hrespawns
      cases hrespawns
  | @join e m hs hd he ht =>
    refine ⟨h.numbered, nofun, fun _ => h.quiet (by rw [hd]; rfl), fun _ k hk => ?_⟩
    rcases h.left (by rw [hd]; rfl) k hk with hmem | hterm
    · rw [hd] at hmem
      rcases List.mem_cons.mp hmem with rfl | hmem
      · exact Or.inr ht
      · exact Or.inl hmem
    · exact Or.inr hterm
  | reset hd =>
    refine ⟨h.numbered, nofun, fun _ => h.quiet (by rw [hd]; rfl), fun _ k hk => ?_⟩
    have hleft := h.left (by rw [hd]; rfl) k hk
    rwa [hd] at hleft
  | panic hd | release hd | abandon hd =>
    exact ⟨h.numbered, nofun, fun _ => h.quiet (by rw [hd]; rfl), nofun⟩
  | exit hk hs =>
    refine h.setStatus ?_ ?_ ?_ fun _ => rfl
    all_goals
      rw [hk.1]
      nofun
  | unwind hk =>
    refine h.setStatus ?_ ?_ ?_ fun hd => ?_
    · rw [hk.1]
      nofun
    · rw [hk.1]
      nofun
    · rw [hk.1]
      nofun
    · rw [hok] at hd
      cases hd
  | upgrade hk hs =>
    have hd := h.not_drained (by rw [hk]; rfl)
    have hnext := h.setStatus (x := .counting) (by rw [hk]; nofun) (by rw [hk]; nofun)
      (by rw [hk]; nofun) fun hd' => absurd (hd.symm.trans hd') nofun
    exact ⟨hnext.numbered, hnext.listed, hnext.quiet, hnext.left⟩
  | count hk =>
    have hd := h.not_drained (by rw [hk]; rfl)
    have hnext := h.setStatus (x := .spawning) (by rw [hk]; nofun) (by rw [hk]; nofun)
      (by rw [hk]; nofun) fun hd' => absurd (hd.symm.trans hd') nofun
    exact ⟨hnext.numbered, hnext.listed, hnext.quiet, hnext.left⟩
  | spawn hk => exact h.spawn hk
  | store hk => exact h.store hk
  | orphan hk _ | terminate hk =>
    refine h.setStatus ?_ ?_ ?_ fun _ => rfl
    all_goals
      rw [hk]
      nofun

/-- Every thread is accounted for in an undisturbed run. -/
theorem Accounted.of_reach (h : (machine workers).Reach State.Undisturbed s) : Accounted s := by
  refine h.invariant ?_ ?_
  · rintro _ rfl
    refine ⟨fun k hk => ?_, fun _ k hk => Or.inl ?_, nofun, nofun⟩
    · exact if_neg (Nat.not_lt.mpr hk)
    · refine List.mem_range.mpr ?_
      by_contra hge
      exact hk (if_neg hge)
  · intro s a s' _ hs hok hstep
    exact hs.step hok (.of_step hstep)

/-- **Joined threads.**  In a run in which no sentry is at work when the handles are taken, and no
worker unwinds afterwards, every thread the pool ever started has terminated when the drop
returns. -/
theorem all_joined (h : (machine workers).Reach State.Undisturbed s) {e : Option ℕ}
    (hd : s.dropper = .returned e) : ∀ k, s.status k = .unborn ∨ s.status k = .terminated := by
  intro k
  by_cases hk : s.status k = .unborn
  · exact Or.inl hk
  · have hleft := (Accounted.of_reach h).left (by rw [hd]; rfl) k hk
    rw [hd] at hleft
    exact Or.inr (hleft.resolve_left List.not_mem_nil)

/-- A worker unwinds and is replaced, and then the pool is dropped. -/
def replaced : State :=
  (machine 1).final (.start 1)
    ([.unwind 0] ++ List.replicate 5 (.advance 0) ++ [.begin none, .drop, .drop, .drop, .exit 1,
      .advance 1, .drop, .drop]) (by decide)

/-- Both threads have terminated. -/
theorem all_joined_replaced : replaced.next = 2 ∧ replaced.status 1 = .terminated :=
  ⟨by decide, (all_joined (Reach.final rfl (by decide) (by decide)) (rfl : replaced.dropper = _)
    1).resolve_left (by decide)⟩

/-- The only worker unwinds after the drop has taken its handle. -/
def outlived : State :=
  (machine 1).final (.start 1)
    ([.begin none, .drop, .drop, .unwind 0] ++ List.replicate 5 (.advance 0) ++ [.drop, .drop])
    (by decide)

/-- A replacement can outlive the drop of its pool. -/
theorem replacement_outlives :
    outlived.dropper = .returned none ∧ outlived.status 1 = .running ∧
      ¬ ∀ (workers : ℕ) (s : State), (machine workers).Reachable s → s.dropper = .returned none →
        ∀ k, s.status k = .unborn ∨ s.status k = .terminated := by
  refine ⟨rfl, by decide, fun hall => ?_⟩
  have hone := hall 1 outlived (Reachable.final rfl _) rfl 1
  exact absurd hone (by decide)

end Lifecycle

end AffinityPool
