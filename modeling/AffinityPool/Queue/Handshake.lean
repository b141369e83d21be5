import AffinityPool.Foundation.Tally
import AffinityPool.Queue.Machine

/-!
# The park handshake

The counters `parked` and `notified`, the mutex `park` and the wait set of `notify`.  Each
notion is a measure of program counters, and the invariant `Handshake` is a set of linear
facts about the tallies of these measures: `park` is held by as many threads as its flag
says, `parked` counts the armed workers, and `notified` together with the unsignalled
waiters never exceeds the workers that are in or after a wait and have not consumed a
notification yet.
-/

namespace AffinityPool

open Transition

variable {q : Shape} {P R : Type}

/-! ## Measures of program counters -/

/-- The thread is no worker of the queue. -/
def Caller.isForeign : Caller R → Bool
  | .foreign => true
  | .running _ => false

namespace Pc

/-- The thread holds `park`. -/
def held : Pc q R → ℕ
  | .push _ _ .recheckParked | .push _ _ (.recheckNotified _) | .push _ _ .fetchAdd
  | .push _ _ .notifyOne | .push _ _ .unlock => 1
  | .close _ .notifyAll | .close _ .unlock => 1
  | .arm | .sweep _ | .checkShutdown | .wait | .leave _ _ => 1
  | _ => 0

/-- The worker is between its `parked.fetch_add` and the matching `fetch_sub`. -/
def armed : Pc q R → ℕ
  | .sweep _ | .checkShutdown | .wait | .waiting | .spurious => 1
  | .leave _ .loadNotified | .leave _ .fetchSub | .leave _ .unpark => 1
  | _ => 0

/-- The worker is in `Condvar::wait`, in the wait set or already taken out of it. -/
def asleep : Pc q R → ℕ
  | .waiting => 1
  | _ => 0

/-- The worker has entered the wait and has not executed its post-wait decrement. -/
def slept : Pc q R → ℕ
  | .waiting | .spurious => 1
  | .leave .woken .loadNotified | .leave .woken .fetchSub => 1
  | _ => 0

/-- The push has loaded `parked` under `park`. -/
def rechecks : Pc q R → ℕ
  | .push _ _ (.recheckNotified _) => 1
  | _ => 0

/-- The value the push has loaded under `park`. -/
def rechecked : Pc q R → ℕ
  | .push _ _ (.recheckNotified p) => p
  | _ => 0

/-- The push is about to increment `notified`. -/
def raises : Pc q R → ℕ
  | .push _ _ .fetchAdd => 1
  | _ => 0

/-- The push has incremented `notified` and is about to signal. -/
def notifies : Pc q R → ℕ
  | .push _ _ .notifyOne => 1
  | _ => 0

/-- The worker has seen a positive `notified` and is about to decrement it. -/
def consumes : Pc q R → ℕ
  | .leave _ .fetchSub => 1
  | _ => 0

/-- The program counters of a thread that is no worker of the queue. -/
def isForeign : Pc q R → Bool
  | .out k | .push k _ _ | .close k _ => k.isForeign
  | _ => false

/-- Whoever is armed without having slept, or signals, holds `park`. -/
lemma armed_add_le (pc : Pc q R) :
    pc.armed + pc.rechecks + pc.raises + pc.notifies ≤ pc.slept + pc.held := by
  rcases pc with _ | ⟨_, _, _ | _ | _ | _ | _ | _ | _ | _⟩ | ⟨_, _ | _ | _⟩ | _ | _ | _ | _ | _ |
    _ | _ | _ | _ | ⟨_ | _ | _, _ | _ | _ | _⟩ | _ <;>
    simp [armed, rechecks, raises, notifies, slept, held]

/-- Whoever decrements `notified` holds `park`. -/
lemma consumes_le_held (pc : Pc q R) : pc.consumes ≤ pc.held := by
  rcases pc with _ | _ | _ | _ | _ | _ | _ | _ | _ | _ | _ | _ | ⟨_, _ | _ | _ | _⟩ | _ <;>
    simp [consumes, held]

/-- A worker in the wait has slept. -/
lemma asleep_le_slept (pc : Pc q R) : pc.asleep ≤ pc.slept := by
  cases pc <;> simp [asleep, slept]

/-- Whoever has slept is armed. -/
lemma slept_le_armed (pc : Pc q R) : pc.slept ≤ pc.armed := by
  rcases pc with _ | _ | _ | _ | _ | _ | _ | _ | _ | _ | _ | _ | ⟨_ | _ | _, _ | _ | _ | _⟩ | _ <;>
    simp [slept, armed]

/-- Only workers are armed. -/
lemma armed_of_isForeign {pc : Pc q R} (h : pc.isForeign = true) : pc.armed = 0 := by
  rcases pc with _ | _ | _ | _ | _ | _ | _ | _ | _ | _ | _ | _ | _ | _ <;>
    simp_all [isForeign, armed]

lemma armed_le_one (pc : Pc q R) : pc.armed ≤ 1 := by
  rcases pc with _ | _ | _ | _ | _ | _ | _ | _ | _ | _ | _ | _ | ⟨_, _ | _ | _ | _⟩ | _ <;>
    simp [armed]

end Pc

/-! ## Counters that do not wrap -/

lemma fetchAdd_eq {n : ℕ} (h : n + 1 < usizeBound) : fetchAdd n = n + 1 := Nat.mod_eq_of_lt h

lemma fetchSub_eq {n : ℕ} (hpos : 0 < n) (h : n < usizeBound) : fetchSub n = n - 1 := by
  unfold fetchSub
  have husize : usizeBound = 18446744073709551616 := rfl
  rw [Nat.mod_eq_sub_mod (by omega), Nat.mod_eq_of_lt (by omega)]
  omega

/-! ## The invariant -/

/-- The workers run the code of workers, the foreign threads that of foreign threads. -/
def Kinds (s : State q P R) : Prop := ∀ t, (s.pc t).isForeign = t.isRight

/-- The linear facts about the counters, the mutex and the wait set. -/
structure Handshake [Fintype P] (s : State q P R) : Prop where
  park : tally Pc.held s.pc = s.mem.park.toNat
  parked : s.mem.parked = tally Pc.armed s.pc
  waiting : ∀ t ∈ s.mem.waiters, s.pc t = .waiting
  credit : s.mem.notified + s.mem.waiters.card ≤ tally Pc.slept s.pc + tally Pc.notifies s.pc
  recheck : 0 < tally Pc.rechecks s.pc → tally Pc.rechecked s.pc = s.mem.parked
  raise : 0 < tally Pc.raises s.pc → s.mem.notified < tally Pc.slept s.pc
  notify : 0 < tally Pc.notifies s.pc → s.mem.notified ≤ tally Pc.slept s.pc
  consume : 0 < tally Pc.consumes s.pc → 0 < s.mem.notified

section Facts

variable [Fintype P] {s : State q P R}

/-- No foreign thread is armed. -/
lemma Kinds.tally_armed_foreign (h : Kinds s) : tally Pc.armed (fun p => s.pc (.inr p)) = 0 :=
  tally_eq_zero_iff.mpr fun p => Pc.armed_of_isForeign (h (.inr p))

/-- At most as many threads are armed as there are workers. -/
lemma Kinds.armed_le (h : Kinds s) : tally Pc.armed s.pc ≤ q.numWorkers := by
  have hworkers : tally Pc.armed (fun w => s.pc (.inl w)) ≤ Fintype.card q.Worker :=
    tally_le_card fun w => (s.pc (.inl w)).armed_le_one
  rw [tally_sum, h.tally_armed_foreign, Nat.add_zero]
  simpa using hworkers

/-- Whoever is armed without having slept, or signals, holds `park`. -/
lemma tally_armed_add_le (s : State q P R) :
    tally Pc.armed s.pc + tally Pc.rechecks s.pc + tally Pc.raises s.pc +
      tally Pc.notifies s.pc ≤ tally Pc.slept s.pc + tally Pc.held s.pc := by
  have hle : tally (fun pc : Pc q R => pc.armed + pc.rechecks + pc.raises + pc.notifies) s.pc ≤
      tally (fun pc => pc.slept + pc.held) s.pc := tally_le_tally fun t => (s.pc t).armed_add_le
  simpa only [tally_add] using hle

/-- Where no push has loaded `parked` under `park`, no loaded value is counted. -/
lemma tally_rechecked_eq_zero (s : State q P R) (h : tally Pc.rechecks s.pc = 0) :
    tally Pc.rechecked s.pc = 0 := by
  refine tally_eq_zero_iff.mpr fun t => ?_
  have ht := tally_eq_zero_iff.mp h t
  rcases hpc : s.pc t with _ | ⟨_, _, _ | _ | _ | _ | _ | _ | _ | _⟩ | _ | _ | _ | _ | _ | _ |
    _ | _ | _ | _ | _ | _ <;> simp_all [Pc.rechecks, Pc.rechecked]

/-- Whoever has slept is armed. -/
lemma tally_slept_le_armed (s : State q P R) : tally Pc.slept s.pc ≤ tally Pc.armed s.pc :=
  tally_le_tally fun t => (s.pc t).slept_le_armed

/-- The unsignalled waiters are among the workers in the wait. -/
lemma Handshake.card_waiters_le (h : Handshake s) : s.mem.waiters.card ≤ tally Pc.asleep s.pc :=
  card_le_tally fun t ht => by rw [h.waiting t ht]; rfl

/-- A thread that holds `park` has locked it. -/
lemma Handshake.park_eq_true (h : Handshake s) {t : Thread q P} (ht : (s.pc t).held = 1) :
    s.mem.park = true := by
  have hle := le_tally Pc.held s.pc t
  rw [ht, h.park] at hle
  cases hp : s.mem.park with
  | true => rfl
  | false =>
    rw [hp] at hle
    exact absurd hle (by decide)

/-- While a thread holds `park` no other thread does. -/
lemma Handshake.held_eq_zero [DecidableEq P] (h : Handshake s) {t u : Thread q P}
    (ht : (s.pc t).held = 1) (hu : u ≠ t) : (s.pc u).held = 0 := by
  have htwo := add_le_tally Pc.held s.pc hu
  have hone : s.mem.park.toNat ≤ 1 := Bool.toNat_le _
  rw [h.park] at htwo
  omega

/-- `notified` does not wrap when a push raises it. -/
lemma Handshake.fetchAdd_notified (hk : Kinds s) (hh : Handshake s) {t : Thread q P} {k : Caller R}
    {x : Pushed q R} (hpc : s.pc t = .push k x .fetchAdd) :
    fetchAdd s.mem.notified = s.mem.notified + 1 := by
  have hraises := le_tally Pc.raises s.pc t
  rw [hpc] at hraises
  have hlt := hh.raise hraises
  have hslept := tally_slept_le_armed s
  have harmed := hk.armed_le
  have hworkers := q.numWorkers_lt
  exact fetchAdd_eq (by omega)

/-- `notified` is positive when a worker lowers it. -/
lemma Handshake.fetchSub_notified (hk : Kinds s) (hh : Handshake s) {t : Thread q P} {e : Exit R}
    (hpc : s.pc t = .leave e .fetchSub) : fetchSub s.mem.notified + 1 = s.mem.notified := by
  have hconsumes := le_tally Pc.consumes s.pc t
  rw [hpc] at hconsumes
  have hpos := hh.consume hconsumes
  have hcredit := hh.credit
  have hle := tally_armed_add_le s
  have hpark := hh.park
  have hone : s.mem.park.toNat ≤ 1 := Bool.toNat_le _
  have harmed := hk.armed_le
  have hslept := tally_slept_le_armed s
  have hworkers := q.numWorkers_lt
  have hworkers' := q.numWorkers_pos
  rw [fetchSub_eq hpos (by omega)]
  omega

end Facts

section Steps

variable [DecidableEq P] {t : Thread q P} {c : Choice q P R} {m m' : Mem q P R}
  {pc pc' : Pc q R} {s : State q P R}

/-- A step keeps a thread a worker or a foreign thread. -/
lemma Move.isForeign_eq (h : Move t c m pc m' pc') : pc'.isForeign = pc.isForeign := by
  cases h
  all_goals rfl

/-- A step keeps the kinds of threads. -/
lemma Kinds.step (h : Kinds s) (hm : Move t c s.mem (s.pc t) m' pc') :
    Kinds ⟨m', Function.update s.pc t pc'⟩ := by
  intro u
  by_cases hu : u = t
  · subst hu
    simp only [Function.update_self]
    rw [hm.isForeign_eq, h]
  · simp only [Function.update_of_ne hu]
    exact h u

namespace Handshake

variable [Fintype P]

/-- The wait set after a step is in the wait. -/
lemma waiting_step (h : Handshake s) (hpc : s.pc t = pc) (hm : Move t c s.mem pc m' pc') :
    ∀ u ∈ m'.waiters, Function.update s.pc t pc' u = .waiting := by
  have hsub : pc ≠ .waiting → m'.waiters ⊆ s.mem.waiters →
      ∀ u ∈ m'.waiters, Function.update s.pc t pc' u = .waiting := by
    intro hne hss u hu
    have hw := h.waiting u (hss hu)
    have hut : u ≠ t := by
      rintro rfl
      exact hne (hpc ▸ hw)
    rw [Function.update_of_ne hut, hw]
  cases hm
  case wait =>
    intro u hu
    rcases Finset.mem_insert.mp hu with rfl | hu
    · exact Function.update_self _ _ _
    · by_cases hut : u = t
      · subst hut
        exact Function.update_self _ _ _
      · rw [Function.update_of_ne hut, h.waiting u hu]
  case wake hw hp =>
    intro u hu
    have hut : u ≠ t := by
      rintro rfl
      exact hw hu
    rw [Function.update_of_ne hut, h.waiting u hu]
  case stir hw =>
    intro u hu
    rw [Function.update_of_ne (Finset.ne_of_mem_erase hu),
      h.waiting u (Finset.mem_of_mem_erase hu)]
  case notifyOne k x u hu => exact hsub (by simp) (Finset.erase_subset _ _)
  case notifyAll k => exact hsub (by simp) (Finset.empty_subset _)
  all_goals exact hsub (by simp) (Finset.Subset.refl _)

/-- A step that leaves `notified` and the measures alone, and moves `park` and `parked` with
them, keeps the invariant. -/
lemma steady (h : Handshake s) (hpc : s.pc t = pc)
    (hwaiting : ∀ u ∈ m'.waiters, Function.update s.pc t pc' u = .waiting)
    (hcard : m'.waiters.card ≤ s.mem.waiters.card)
    (hpark : m'.park.toNat + pc.held = s.mem.park.toNat + pc'.held)
    (hparked : m'.parked = s.mem.parked) (hnotified : m'.notified = s.mem.notified)
    (harmed : pc'.armed = pc.armed) (hslept : pc'.slept = pc.slept)
    (hrechecks : pc'.rechecks = pc.rechecks) (hrechecked : pc'.rechecked = pc.rechecked)
    (hraises : pc'.raises = pc.raises) (hnotifies : pc'.notifies = pc.notifies)
    (hconsumes : pc'.consumes = pc.consumes) :
    Handshake ⟨m', Function.update s.pc t pc'⟩ := by
  have hsame : ∀ f : Pc q R → ℕ, f pc' = f pc →
      tally f (Function.update s.pc t pc') = tally f s.pc := by
    intro f hf
    have he := tally_update f s.pc t pc'
    rw [hpc] at he
    omega
  have eheld := tally_update Pc.held s.pc t pc'
  rw [hpc] at eheld
  have hold := h.park
  refine ⟨?_, ?_, hwaiting, ?_, ?_, ?_, ?_, ?_⟩
  · show tally Pc.held (Function.update s.pc t pc') = m'.park.toNat
    omega
  · rw [hsame _ harmed, hparked]
    exact h.parked
  · rw [hsame _ hslept, hsame _ hnotifies, hnotified]
    exact le_trans (Nat.add_le_add_left hcard _) h.credit
  · rw [hsame _ hrechecks, hsame _ hrechecked, hparked]
    exact h.recheck
  · rw [hsame _ hraises, hsame _ hslept, hnotified]
    exact h.raise
  · rw [hsame _ hnotifies, hsame _ hslept, hnotified]
    exact h.notify
  · rw [hsame _ hconsumes, hnotified]
    exact h.consume

/-- The changes of all tallies under one step. -/
lemma updates (hpc : s.pc t = pc) (pc' : Pc q R) :
    let l := Function.update s.pc t pc'
    (tally Pc.held l + pc.held = tally Pc.held s.pc + pc'.held ∧
      tally Pc.armed l + pc.armed = tally Pc.armed s.pc + pc'.armed ∧
      tally Pc.asleep l + pc.asleep = tally Pc.asleep s.pc + pc'.asleep ∧
      tally Pc.slept l + pc.slept = tally Pc.slept s.pc + pc'.slept) ∧
    (tally Pc.rechecks l + pc.rechecks = tally Pc.rechecks s.pc + pc'.rechecks ∧
      tally Pc.rechecked l + pc.rechecked = tally Pc.rechecked s.pc + pc'.rechecked ∧
      tally Pc.raises l + pc.raises = tally Pc.raises s.pc + pc'.raises ∧
      tally Pc.notifies l + pc.notifies = tally Pc.notifies s.pc + pc'.notifies ∧
      tally Pc.consumes l + pc.consumes = tally Pc.consumes s.pc + pc'.consumes) := by
  subst hpc
  exact ⟨⟨tally_update _ _ _ _, tally_update _ _ _ _, tally_update _ _ _ _, tally_update _ _ _ _⟩,
    tally_update _ _ _ _, tally_update _ _ _ _, tally_update _ _ _ _, tally_update _ _ _ _,
    tally_update _ _ _ _⟩

/-- **Step lemma.**  A step keeps the handshake invariant. -/
theorem step (hk : Kinds s) (h : Handshake s) (hpc : s.pc t = pc)
    (hm : Move t c s.mem pc m' pc') : Handshake ⟨m', Function.update s.pc t pc'⟩ := by
  have hwaiting := h.waiting_step hpc hm
  obtain ⟨⟨eheld, earmed, easleep, eslept⟩, erechecks, erechecked, eraises, enotifies, econsumes⟩ :=
    updates hpc pc'
  have hN := hk.armed_le
  have hlt := q.numWorkers_lt
  have hworkers := q.numWorkers_pos
  have hone : s.mem.park.toNat ≤ 1 := Bool.toNat_le _
  have hcard := h.card_waiters_le
  have h₀ := h
  obtain ⟨hpark, hparked, -, hcredit, hrecheck, hraise, hnotify, hconsume⟩ := h
  have hsep := tally_armed_add_le s
  have hsep' := tally_armed_add_le (⟨m', Function.update s.pc t pc'⟩ : State q P R)
  have hslept := tally_slept_le_armed s
  have hslept' := tally_slept_le_armed (⟨m', Function.update s.pc t pc'⟩ : State q P R)
  have hasleep' : tally Pc.asleep (Function.update s.pc t pc') ≤
      tally Pc.slept (Function.update s.pc t pc') := tally_le_tally fun u => Pc.asleep_le_slept _
  have hcons : tally Pc.consumes s.pc ≤ tally Pc.held s.pc :=
    tally_le_tally fun u => Pc.consumes_le_held _
  dsimp only at hsep' hslept'
  have hheld : pc.held ≤ s.mem.park.toNat := by
    rw [← hpark, ← hpc]
    exact le_tally _ _ _
  cases hm
  -- the steps that take `park`
  case pushLock | closeLock | lock | wake | relock =>
    exact h₀.steady hpc hwaiting le_rfl (by simp [*, Pc.held]) rfl rfl rfl rfl rfl rfl rfl rfl rfl
  -- the steps that release it
  case pushUnlock | closeUnlock | giveBack | quit | again =>
    refine h₀.steady hpc hwaiting le_rfl ?_ rfl rfl rfl rfl rfl rfl rfl rfl rfl
    simp only [Pc.held, Bool.toNat_false] at hheld ⊢
    omega
  -- the steps that leave the handshake alone
  case stir hw =>
    exact h₀.steady hpc hwaiting (Finset.card_erase_le) rfl rfl rfl rfl rfl rfl rfl rfl rfl rfl
  case notifyAll k =>
    exact h₀.steady hpc hwaiting (by simp) rfl rfl rfl rfl rfl rfl rfl rfl rfl rfl
  case spawn | close | ret | loadParked | contend | skip | boot | cheapMore | cheapFound |
      cheapNext | cheapLast | sweepMore | sweepFound | sweepEmpty | seeShutdown | stay =>
    exact h₀.steady hpc hwaiting le_rfl rfl rfl rfl rfl rfl rfl rfl rfl rfl rfl
  -- the steps that move the counters, the wait set or a loaded value
  all_goals
    simp only [Pc.held, Pc.armed, Pc.asleep, Pc.slept, Pc.rechecks, Pc.rechecked, Pc.raises,
      Pc.notifies, Pc.consumes] at *
  case recheckParked k x =>
    have hzero := tally_rechecked_eq_zero s
    refine ⟨?_, ?_, hwaiting, ?_, ?_, ?_, ?_, ?_⟩ <;> dsimp only <;> omega
  case confirm k x p hp | decline k x p hp =>
    refine ⟨?_, ?_, hwaiting, ?_, ?_, ?_, ?_, ?_⟩ <;> dsimp only <;> omega
  case raise k x =>
    have hadd : fetchAdd s.mem.notified = s.mem.notified + 1 := fetchAdd_eq (by omega)
    refine ⟨?_, ?_, hwaiting, ?_, ?_, ?_, ?_, ?_⟩ <;> dsimp only <;> omega
  case notifyNone k x hw =>
    have hnone : s.mem.waiters.card = 0 := Finset.card_eq_zero.mpr hw
    refine ⟨?_, ?_, hwaiting, ?_, ?_, ?_, ?_, ?_⟩ <;> dsimp only <;> omega
  case notifyOne k x u hu =>
    have herase : (s.mem.waiters.erase u).card + 1 = s.mem.waiters.card :=
      Finset.card_erase_add_one hu
    refine ⟨?_, ?_, hwaiting, ?_, ?_, ?_, ?_, ?_⟩ <;> dsimp only <;> omega
  case arm =>
    have hadd : fetchAdd s.mem.parked = s.mem.parked + 1 := fetchAdd_eq (by omega)
    refine ⟨?_, ?_, hwaiting, ?_, ?_, ?_, ?_, ?_⟩ <;> dsimp only <;> omega
  case wait =>
    have hnew : t ∉ s.mem.waiters := fun ht => by
      have hw := h₀.waiting t ht
      rw [hpc] at hw
      cases hw
    have hinsert : (insert t s.mem.waiters).card = s.mem.waiters.card + 1 :=
      Finset.card_insert_of_notMem hnew
    refine ⟨?_, ?_, hwaiting, ?_, ?_, ?_, ?_, ?_⟩ <;> dsimp only [Bool.toNat_false] <;> omega
  case consume e hnotified | pass e hnotified =>
    cases e <;> simp only at eslept <;>
      refine ⟨?_, ?_, hwaiting, ?_, ?_, ?_, ?_, ?_⟩ <;> dsimp only <;> omega
  case lower e =>
    have hpos : 0 < s.mem.notified := by omega
    have hbound : s.mem.notified < usizeBound := by omega
    rw [fetchSub_eq hpos hbound]
    cases e <;> simp only at eslept <;>
      refine ⟨?_, ?_, hwaiting, ?_, ?_, ?_, ?_, ?_⟩ <;> dsimp only <;> omega
  case unpark e =>
    have hpos : 0 < s.mem.parked := by omega
    have hbound : s.mem.parked < usizeBound := by omega
    rw [fetchSub_eq hpos hbound]
    refine ⟨?_, ?_, hwaiting, ?_, ?_, ?_, ?_, ?_⟩ <;> dsimp only <;> omega

end Handshake

end Steps

/-! ## Runs -/

section Runs

variable [DecidableEq P] [DecidableEq R] {s : State q P R}

/-- The threads keep their kinds in every run. -/
theorem Kinds.of_reachable (h : (machine q P R).Reachable s) : Kinds s := by
  refine h.invariant ?_ ?_
  · rintro _ rfl (w | p)
    · rfl
    · rfl
  · rintro s a s' - hk - hs
    obtain ⟨m, pc, hm, rfl⟩ := State.step_cases hs
    exact hk.step hm

variable [Fintype P]

/-- The handshake invariant holds in every run. -/
theorem Handshake.of_reachable (h : (machine q P R).Reachable s) : Handshake s := by
  refine h.invariant ?_ ?_
  · rintro _ rfl
    have hzero : ∀ f : Pc q R → ℕ, f .boot = 0 → f (.out .foreign) = 0 →
        tally f (State.start q P R).pc = 0 := by
      intro f hboot hout
      refine tally_eq_zero_iff.mpr ?_
      rintro (w | p)
      · exact hboot
      · exact hout
    refine ⟨hzero _ rfl rfl, (hzero _ rfl rfl).symm, ?_, ?_, ?_, ?_, ?_, ?_⟩
    · intro t ht
      cases ht
    · exact Nat.zero_le _
    · rw [hzero _ rfl rfl]
      exact fun hpos => absurd hpos (lt_irrefl 0)
    · rw [hzero _ rfl rfl]
      exact fun hpos => absurd hpos (lt_irrefl 0)
    · exact fun _ => Nat.zero_le _
    · rw [hzero _ rfl rfl]
      exact fun hpos => absurd hpos (lt_irrefl 0)
  · intro s a s' hr hh _ hs
    obtain ⟨m, pc, hm, rfl⟩ := State.step_cases hs
    exact hh.step (Kinds.of_reachable hr) rfl hm

end Runs

end AffinityPool
