import AffinityPool.Queue.Handshake

/-!
# The counters of the park handshake

What `parked` and `notified` count in every reachable state, and why neither of them wraps.
`parked` is the number of armed workers.  `notified` is bounded by the workers that have left
the wait set and not yet passed their post-wait decrement: a worker leaves it by
`notify_one`, by `notify_all` or by a spurious return of the wait, and a spurious return
makes room for a notification that no signal of the same worker accompanies
(`notified_exceeds_signalled`).
-/

namespace AffinityPool

open Transition System

variable {q : Shape} {P R : Type}

/-- The worker has just returned from the wait without a signal. -/
def Pc.stirred : Pc q R → ℕ
  | .spurious => 1
  | _ => 0

namespace State

/-- The workers between their `parked.fetch_add` and the matching `fetch_sub`. -/
def armed (s : State q P R) : Finset q.Worker :=
  Finset.univ.filter fun w => (s.pc (.inl w)).armed = 1

section Away

variable [DecidableEq P]

/-- The workers that have left the wait set since they entered the wait and have not executed
their post-wait decrement. -/
def away (s : State q P R) : Finset q.Worker :=
  Finset.univ.filter fun w => (s.pc (.inl w)).slept = 1 ∧ .inl w ∉ s.mem.waiters

/-- The workers away that have not just returned spuriously. -/
def signalled (s : State q P R) : Finset q.Worker :=
  s.away.filter fun w => (s.pc (.inl w)).stirred = 0

end Away

end State

section Counts

variable [Fintype P] {s : State q P R}

/-- Only workers are armed, so the armed workers make up the tally. -/
lemma Kinds.tally_armed (h : Kinds s) : tally Pc.armed s.pc = s.armed.card := by
  rw [tally_sum, h.tally_armed_foreign, Nat.add_zero]
  exact tally_eq_card_filter fun w => (s.pc (.inl w)).armed_le_one

/-- The waiters are workers. -/
lemma Handshake.exists_worker (hh : Handshake s) (hk : Kinds s) {t : Thread q P}
    (ht : t ∈ s.mem.waiters) : ∃ w, t = .inl w := by
  have hkind := hk t
  rw [hh.waiting t ht] at hkind
  cases t with
  | inl w => exact ⟨w, rfl⟩
  | inr p => cases hkind

variable [DecidableEq P]

/-- The workers that have slept are away or in the wait set. -/
lemma Handshake.away_add (hh : Handshake s) (hk : Kinds s) :
    s.away.card + s.mem.waiters.card = tally Pc.slept s.pc := by
  have hforeign : tally Pc.slept (fun p => s.pc (.inr p)) = 0 :=
    tally_eq_zero_iff.mpr fun p =>
      Nat.le_zero.mp ((Pc.slept_le_armed _).trans (Pc.armed_of_isForeign (hk (.inr p))).le)
  have hle : ∀ w : q.Worker, (s.pc (.inl w)).slept ≤ 1 := fun w =>
    (Pc.slept_le_armed _).trans (Pc.armed_le_one _)
  have hwait : s.mem.waiters =
      ((Finset.univ.filter fun w : q.Worker => (s.pc (.inl w)).slept = 1).filter fun w =>
        .inl w ∈ s.mem.waiters).map .inl := by
    ext t
    simp only [Finset.mem_map, Finset.mem_filter, Finset.mem_univ, true_and,
      Function.Embedding.inl_apply]
    constructor
    · intro ht
      obtain ⟨w, rfl⟩ := hh.exists_worker hk ht
      refine ⟨w, ⟨?_, ht⟩, rfl⟩
      rw [hh.waiting _ ht]
      rfl
    · rintro ⟨w, ⟨-, hw⟩, rfl⟩
      exact hw
  have hcard : _ = (Finset.univ.filter fun w : q.Worker => (s.pc (.inl w)).slept = 1).card :=
    Finset.card_filter_add_card_filter_not fun w => Sum.inl w ∈ s.mem.waiters
  have hcardwait := congrArg Finset.card hwait
  rw [Finset.card_map] at hcardwait
  rw [tally_sum, hforeign, Nat.add_zero, tally_eq_card_filter hle, ← hcard, Nat.add_comm,
    hcardwait]
  congr 1
  rw [Finset.filter_filter]
  rfl

end Counts

section Runs

variable [DecidableEq P] [DecidableEq R] [Fintype P] {s : State q P R}

/-- **The counters of the handshake.**  In every reachable state `parked` counts the armed
workers; while `park` is free `notified` is at most the number of workers away, so
`notified ≤ parked ≤ numWorkers`; and whoever is about to change a counter changes it without
a wrap. -/
theorem counters_of_reachable (h : (machine q P R).Reachable s) :
    s.mem.parked = s.armed.card ∧
    (s.mem.park = false →
      s.mem.notified ≤ s.away.card ∧ s.mem.notified ≤ s.mem.parked ∧
        s.mem.parked ≤ q.numWorkers) ∧
    (∀ t, s.pc t = .arm → s.mem.parked + 1 < usizeBound) ∧
    (∀ t e, s.pc t = .leave e .unpark → 0 < s.mem.parked) ∧
    (∀ t k x, s.pc t = .push k x .fetchAdd → s.mem.notified + 1 < usizeBound) ∧
    (∀ t e, s.pc t = .leave e .fetchSub → 0 < s.mem.notified) := by
  have hk := Kinds.of_reachable h
  have hh := Handshake.of_reachable h
  have hle := hk.armed_le
  have hlt := q.numWorkers_lt
  have hpos := q.numWorkers_pos
  have hparked := hh.parked
  have hcredit := hh.credit
  have hslept := tally_slept_le_armed s
  have hsep := tally_armed_add_le s
  have hheld := hh.park
  have hone : s.mem.park.toNat ≤ 1 := Bool.toNat_le _
  refine ⟨?_, ?_, ?_, ?_, ?_, ?_⟩
  · rw [hparked, hk.tally_armed]
  · intro hfree
    rw [hfree, Bool.toNat_false] at hheld
    have haway := hh.away_add hk
    exact ⟨by omega, by omega, by omega⟩
  · intro t ht
    omega
  · intro t e ht
    have harmed := le_tally Pc.armed s.pc t
    rw [ht] at harmed
    simp only [Pc.armed] at harmed
    omega
  · intro t k x ht
    have hraise := hh.raise
    have hraises := le_tally Pc.raises s.pc t
    rw [ht] at hraises
    simp only [Pc.raises] at hraises
    omega
  · intro t e ht
    have hconsumes := le_tally Pc.consumes s.pc t
    rw [ht] at hconsumes
    exact hh.consume hconsumes

end Runs

/-! ## A notification beyond the signalled workers -/

/-- A worker goes to sleep; a push increments `notified`; the worker returns spuriously; the
push finds nobody to signal. -/
def stirRun : List (Thread solo Unit × Choice solo Unit ℕ) :=
  goes solo.worker 21 ++ [(.inr (), .spawn 0 0 none)] ++ goes (.inr ()) 6 ++
    [(solo.worker, .spurious)] ++ goes (.inr ()) 2

/-- The state after `stirRun`. -/
def stirred : State solo Unit ℕ :=
  (machine solo Unit ℕ).final (.start solo Unit ℕ) stirRun (by decide)

/-- The run is one of the machine. -/
lemma stirred_reachable : (machine solo Unit ℕ).Reachable stirred :=
  Reachable.final rfl _

/-- `notified` can exceed the number of workers that signals took out of the wait set. -/
theorem notified_exceeds_signalled :
    ¬ ∀ s, (machine solo Unit ℕ).Reachable s → s.mem.park = false →
      s.mem.notified ≤ s.signalled.card := by
  intro hall
  have hle := hall stirred stirred_reachable (by decide)
  exact absurd hle (by decide)

/-- The bounds at the end of that run: one notification, one worker away. -/
theorem counters_of_stirred :
    stirred.mem.notified = 1 ∧ stirred.mem.notified ≤ stirred.away.card :=
  ⟨by decide, ((counters_of_reachable stirred_reachable).2.1 (by decide)).1⟩

end AffinityPool
