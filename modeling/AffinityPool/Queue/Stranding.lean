import AffinityPool.Queue.Covering

/-!
# Work behind a sleeping worker

A thief moves a batch to its own deque without a wake check.  A sweep visits its victims one
after the other, so a batch may move from a deque the sweep has not reached yet to one it has
already cleared; the sweeping worker then sleeps while the thief runs one runnable and its
deque holds others (`stranded_reachable`).

This is the only way.  In a run in which no thief hops over a sweep (`State.NoHop`), the
stored runnables and the waiters together are at most as many as the workers inside
`pop_blocking` and the wake checks that will still be made (`Potential`), and so no worker
sleeps behind stored work once every wake check is over and all other workers are busy
(`not_stranded`).
-/

namespace AffinityPool

open Transition System

variable {q : Shape} {P R : Type}

namespace Pc

/-- The worker is inside `pop_blocking` and has no runnable in hand. -/
def popping : Pc q R → ℕ
  | .out _ | .push _ _ _ | .close _ _ | .leave (.got _) _ => 0
  | _ => 1

/-- The wake check is not over, and the value of `parked` it has read is not below the number
`n` of workers that have slept. -/
def keen (n : ℕ) : Pc q R → ℕ
  | .push _ _ (.loadNotified p) => if n ≤ p then 1 else 0
  | .push _ _ .unlock => 0
  | .push _ _ _ => 1
  | _ => 0

/-- The worker is inside `Runnable::run`. -/
def isBusy : Pc q R → Bool
  | .out (.running _) => true
  | _ => false

/-- The runnable of a push in progress. -/
def pushItem : Pc q R → Option R
  | .push _ x _ => some x.item
  | _ => none

lemma popping_le_one (pc : Pc q R) : pc.popping ≤ 1 := by
  rcases pc with _ | _ | _ | _ | _ | _ | _ | _ | _ | _ | _ | _ | ⟨_ | _ | _, _⟩ | _ <;>
    simp [popping]

lemma popping_of_isBusy {pc : Pc q R} (h : pc.isBusy = true) : pc.popping = 0 := by
  cases pc <;> first | rfl | cases h

/-- Foreign threads are never inside `pop_blocking`. -/
lemma popping_of_isForeign {pc : Pc q R} (h : pc.isForeign = true) : pc.popping = 0 := by
  cases pc <;> first | rfl | cases h

/-- Fewer sleepers make a wake check keener. -/
lemma keen_anti {n n' : ℕ} (h : n' ≤ n) (pc : Pc q R) : pc.keen n ≤ pc.keen n' := by
  rcases pc with _ | ⟨k, x, _ | p | _ | _ | _ | _ | _ | _⟩ | _ | _ | _ | _ | _ | _ | _ | _ | _ | _ |
    _ | _
  all_goals first | exact le_rfl | skip
  simp only [keen]
  split
  · rw [if_pos (by omega)]
  · exact Nat.zero_le _

/-- A push that presses is keen, also after one more worker has fallen asleep. -/
lemma Presses.keen_eq {n : ℕ} {v : Victim q} {r : R} {pc : Pc q R} (h : pc.Presses n v r) :
    pc.keen (n + 1) = 1 ∧ pc.pushItem = some r := by
  rcases pc with _ | ⟨k, x, _ | p | _ | _ | _ | _ | _ | _⟩ | _ | _ | _ | _ | _ | _ | _ | _ | _ | _ |
    _ | _
  all_goals first | exact ⟨rfl, congrArg some h.1⟩ | cases h
  rename_i hserves hlt
  exact ⟨if_pos hlt, congrArg some hserves.1⟩

end Pc

/-- The stored runnables and the waiters, bounded by the workers in `pop_blocking` and the keen
wake checks, as long as some waiter is not about to be signalled. -/
def Potential [Fintype P] (s : State q P R) : Prop :=
  tally Pc.notifies s.pc < s.mem.waiters.card →
    s.mem.store.items.card + s.mem.waiters.card ≤
      tally Pc.popping s.pc + tally (Pc.keen (tally Pc.slept s.pc)) s.pc

/-- Where every stored runnable has a keen push of its own, there are as many of these. -/
lemma Storage.card_items_le [Fintype P] [DecidableEq R] {s : State q P R} (hs : Storage s) {n : ℕ}
    {l : Thread q P → Pc q R}
    (h : ∀ r ∈ s.mem.store.items, ∃ u, (l u).keen n = 1 ∧ (l u).pushItem = some r) :
    s.mem.store.items.card ≤ tally (Pc.keen n) l := by
  have hnodup : s.mem.store.items.Nodup := by
    have hle : s.mem.store.items ≤ (s.mem.pushed : Multiset R) := by
      rw [hs.conserved, add_assoc, add_left_comm]
      exact Multiset.le_add_right _ _
    exact Multiset.nodup_of_le hle (Multiset.coe_nodup.mpr hs.nodup)
  have hsub : s.mem.store.items.toFinset.image some ⊆
      (Finset.univ.filter fun u => (l u).keen n = 1).image fun u => (l u).pushItem := by
    intro x hx
    obtain ⟨r, hr, rfl⟩ := Finset.mem_image.mp hx
    obtain ⟨u, hkeen, hitem⟩ := h r (Multiset.mem_toFinset.mp hr)
    exact Finset.mem_image.mpr ⟨u, Finset.mem_filter.mpr ⟨Finset.mem_univ u, hkeen⟩, hitem⟩
  calc s.mem.store.items.card = s.mem.store.items.toFinset.card :=
        (Multiset.toFinset_card_of_nodup hnodup).symm
    _ = (s.mem.store.items.toFinset.image some).card :=
        (Finset.card_image_of_injective _ (Option.some_injective R)).symm
    _ ≤ _ := Finset.card_le_card hsub
    _ ≤ (Finset.univ.filter fun u => (l u).keen n = 1).card := Finset.card_image_le
    _ ≤ tally (Pc.keen n) l := card_le_tally fun u hu => (Finset.mem_filter.mp hu).2.ge

section Step

variable [DecidableEq P] [Fintype P] {t : Thread q P} {c : Choice q P R} {m' : Mem q P R}
  {pc pc' : Pc q R} {s : State q P R}

/-- The step from `pc` leaves a signal to come for every waiter, or it keeps the potential. -/
def Pays (s : State q P R) (t : Thread q P) (pc : Pc q R) (m' : Mem q P R) (pc' : Pc q R) : Prop :=
  m'.waiters.card ≤ tally Pc.notifies (Function.update s.pc t pc') ∨
    (m'.waiters.card + tally Pc.notifies s.pc ≤
        s.mem.waiters.card + tally Pc.notifies (Function.update s.pc t pc') ∧
      m'.store.items.card + m'.waiters.card + (pc.popping + pc.keen (tally Pc.slept s.pc)) ≤
        s.mem.store.items.card + s.mem.waiters.card +
          (pc'.popping + pc'.keen (tally Pc.slept s.pc)) ∧
      pc'.slept ≤ pc.slept)

/-- Every step but the one that falls asleep pays. -/
lemma Handshake.pays (hh : Handshake s) (hs : Storage s) (hpc : s.pc t = pc)
    (hm : Move t c s.mem pc m' pc') (hwait : pc ≠ .wait) : Pays s t pc m' pc' := by
  have hcredit := hh.credit
  have hslept := tally_slept_le_armed s
  have hparked := hh.parked
  have hnotifies := tally_update Pc.notifies s.pc t pc'
  rw [hpc] at hnotifies
  have hkept : ∀ {w : q.Worker} {b : Probe} {o : Steal} {sc : Scan q} {st : Store q R}
      {res : ScanResult q R}, ScanMove w b o s.mem.store sc st res →
      st.items.card + res.taken.card = s.mem.store.items.card := by
    intro w b o sc st res h
    rw [← h.items_add, Multiset.card_add]
  -- a push that gives up leaves no waiter without a signal to come, if it was keen
  have hgiveUp : ∀ p, p ≤ s.mem.notified → tally Pc.slept s.pc ≤ p →
      s.mem.waiters.card ≤ tally Pc.notifies s.pc := by
    intro p hp hkeen
    omega
  have hplain : pc.notifies ≤ pc'.notifies → m'.waiters.card ≤ s.mem.waiters.card →
      m'.store.items.card ≤ s.mem.store.items.card →
      pc.popping + pc.keen (tally Pc.slept s.pc) ≤ pc'.popping + pc'.keen (tally Pc.slept s.pc) →
      pc'.slept ≤ pc.slept → Pays s t pc m' pc' :=
    fun h₁ h₂ h₃ h₄ h₅ => Or.inr ⟨by omega, by omega, h₅⟩
  cases hm
  case wait => exact absurd rfl hwait
  case skip k x p hp =>
    by_cases hkeen : tally Pc.slept s.pc ≤ p
    · have hle := hgiveUp p hp hkeen
      simp only [Pc.notifies] at hnotifies
      exact Or.inl (by omega)
    · refine hplain le_rfl le_rfl le_rfl ?_ le_rfl
      simp only [Pc.popping, Pc.keen, if_neg hkeen, le_refl]
  case decline k x p hp =>
    have hp' := hh.recheck_eq hpc
    have hle := hgiveUp p hp (by omega)
    simp only [Pc.notifies] at hnotifies
    exact Or.inl (by omega)
  case notifyNone k x hw =>
    refine Or.inl ?_
    rw [hw, Finset.card_empty]
    exact Nat.zero_le _
  case notifyAll k => exact Or.inl (Nat.zero_le _)
  case notifyOne k x u hu =>
    have herase := Finset.card_erase_add_one hu
    simp only [Pc.notifies] at hnotifies
    refine Or.inr ⟨by dsimp only; omega, ?_, le_rfl⟩
    simp only [Pc.popping, Pc.keen]
    omega
  case spawn k x hash cell hc hx hown hfor =>
    simp only [Pc.notifies] at hnotifies
    refine Or.inr ⟨by dsimp only; omega, ?_, le_rfl⟩
    simp only [Pc.popping, Pc.keen, Store.items_insert, Multiset.card_add, Multiset.card_singleton]
    omega
  case loadParked k x =>
    refine hplain le_rfl le_rfl le_rfl ?_ le_rfl
    simp only [Pc.popping, Pc.keen]
    rw [if_pos (by omega)]
  case contend k x p hp =>
    refine hplain le_rfl le_rfl le_rfl ?_ le_rfl
    simp only [Pc.popping, Pc.keen]
    split <;> omega
  case raise k x => exact hplain (Nat.zero_le _) le_rfl le_rfl le_rfl le_rfl
  case ret r hc => exact hplain le_rfl le_rfl le_rfl (Nat.zero_le _) le_rfl
  case boot w ht =>
    have hnil : s.mem.store.deques w = [] := by
      refine hs.drained w ?_
      rw [← ht, hpc]
      rfl
    exact hplain le_rfl le_rfl (congrArg _ (Store.items_register _ w hnil)).le le_rfl le_rfl
  case stir hw => exact hplain le_rfl (Finset.card_erase_le) le_rfl le_rfl le_rfl
  case cheapMore w o round sc sc' st ht ho h | cheapNext w o round sc st ht ho hr h |
      cheapLast w o round sc st ht ho hr h | sweepMore w o sc sc' st ht ho h |
      sweepEmpty w o sc st ht ho h =>
    exact hplain le_rfl le_rfl (hkept h).le le_rfl le_rfl
  case cheapFound w o round sc st r ht ho h | sweepFound w o sc st r ht ho h =>
    have hcard := hkept h
    simp only [ScanResult.taken, Multiset.card_singleton] at hcard
    simp only [Pc.notifies] at hnotifies
    refine Or.inr ⟨by dsimp only; omega, ?_, le_rfl⟩
    simp only [Pc.popping, Pc.keen]
    omega
  case consume e he => cases e <;> exact hplain le_rfl le_rfl le_rfl le_rfl le_rfl
  case pass e he | lower e => cases e <;> exact hplain le_rfl le_rfl le_rfl le_rfl (Nat.zero_le _)
  case unpark e => cases e <;> exact hplain le_rfl le_rfl le_rfl le_rfl le_rfl
  all_goals exact hplain le_rfl le_rfl le_rfl le_rfl le_rfl

/-- When a worker falls asleep, its armed pass has left every stored runnable to a push. -/
lemma Potential.of_wait [DecidableEq R] (hs : Storage s) (hc : Covered (fun _ => True) s)
    (hpc : s.pc t = .wait) (hm : Move t c s.mem .wait m' pc')
    (hh' : Handshake ⟨m', Function.update s.pc t pc'⟩) :
    Potential ⟨m', Function.update s.pc t pc'⟩ := by
  intro _
  cases hm
  have hslept := tally_update Pc.slept s.pc t .waiting
  rw [hpc] at hslept
  simp only [Pc.slept, Nat.add_zero] at hslept
  have hwaiters : (insert t s.mem.waiters).card ≤
      tally Pc.popping (Function.update s.pc t .waiting) := by
    refine card_le_tally fun u hu => ?_
    have hu' := hh'.waiting u hu
    dsimp only at hu'
    rw [hu']
    rfl
  have hitems : s.mem.store.items.card ≤
      tally (Pc.keen (tally Pc.slept s.pc + 1)) (Function.update s.pc t .waiting) := by
    refine hs.card_items_le fun r hr => ?_
    obtain ⟨v, hv⟩ := Store.mem_items.mp hr
    have hcleared : (s.pc t).Cleared v := by
      rw [hpc]
      trivial
    obtain ⟨u, hu⟩ := hc t v r trivial hcleared hv
    have hut : u ≠ t := by
      rintro rfl
      rw [hpc] at hu
      cases hu
    exact ⟨u, by rw [Function.update_of_ne hut]; exact hu.keen_eq⟩
  dsimp only
  rw [hslept]
  omega

/-- **Step lemma.**  A step keeps the potential where the cleared queues are covered. -/
theorem Potential.step [DecidableEq R] (hp : Potential s) (hh : Handshake s) (hs : Storage s)
    (hc : Covered (fun _ => True) s) (hm : Move t c s.mem (s.pc t) m' pc')
    (hh' : Handshake ⟨m', Function.update s.pc t pc'⟩) :
    Potential ⟨m', Function.update s.pc t pc'⟩ := by
  by_cases hwait : s.pc t = .wait
  · rw [hwait] at hm
    exact .of_wait hs hc hwait hm hh'
  · intro hpremise
    dsimp only at hpremise ⊢
    rcases hh.pays hs rfl hm hwait with hle | ⟨hsignals, hpays, hslept⟩
    · omega
    · have hold := hp (by omega)
      have hfewer : tally Pc.slept (Function.update s.pc t pc') ≤ tally Pc.slept s.pc := by
        have hupdate := tally_update Pc.slept s.pc t pc'
        omega
      have hkeener : tally (Pc.keen (tally Pc.slept s.pc)) (Function.update s.pc t pc') ≤
          tally (Pc.keen (tally Pc.slept (Function.update s.pc t pc')))
            (Function.update s.pc t pc') := tally_le_tally fun u => Pc.keen_anti hfewer _
      have hpopping := tally_update Pc.popping s.pc t pc'
      have hkeen := tally_update (Pc.keen (tally Pc.slept s.pc)) s.pc t pc'
      omega

end Step

/-! ## Runs -/

namespace State

/-- No thief hops over an armed scan: when it moves a batch from the deque of `v` to its own,
every scan that has cleared its own deque has cleared that of `v`. -/
def NoHop (s : State q P R) (a : Thread q P × Choice q P R) : Prop :=
  ∀ w v, s.Hauls w (.peer v) a → ∀ t, (s.pc t).Cleared (.peer w) → (s.pc t).Cleared (.peer v)

instance NoHop.decidable [DecidableEq P] [Fintype P] (s : State q P R)
    (a : Thread q P × Choice q P R) : Decidable (s.NoHop a) :=
  inferInstanceAs (Decidable (∀ w v, s.Hauls w (.peer v) a → ∀ _t, _ → _))

/-- Work behind a sleeping worker: a runnable is stored, a worker sleeps without a signal, every
wake check is over, and every worker either sleeps so too or is busy running a runnable. -/
structure Stranded (s : State q P R) : Prop where
  stored : ∃ v r, r ∈ s.mem.store.queue v
  asleep : s.mem.waiters.Nonempty
  settled : ∀ t, (s.pc t).isPush = false
  busy : ∀ w, .inl w ∈ s.mem.waiters ∨ (s.pc (.inl w)).isBusy = true

end State

/-- Without hops, what moves into a cleared queue comes from a cleared one. -/
lemma Storage.contained [Fintype P] {s : State q P R} (hs : Storage s) (hk : Kinds s)
    {a : Thread q P × Choice q P R} (hok : s.NoHop a) : s.Contained (fun _ => True) a := by
  rintro w (i | v) hhaul -
  · -- a pass that has cleared a deque has cleared every injector before
    refine ⟨trivial, fun t ht => ?_⟩
    cases hpc : s.pc t with
    | checkShutdown => trivial
    | wait => trivial
    | sweep sc =>
      rw [hpc] at ht
      obtain ⟨hcontended, hmem⟩ := ht
      cases sc with
      | own => cases hmem
      | visit p =>
        cases t with
        | inl u => exact ⟨hcontended, (hs.covers u _ hpc).injector_mem hcontended hmem i⟩
        | inr f =>
          have hkind := hk (.inr f)
          rw [hpc] at hkind
          cases hkind
    | _ => rw [hpc] at ht; cases ht
  · exact ⟨trivial, fun t ht => hok w v hhaul t ht⟩

section Runs

variable [DecidableEq P] [DecidableEq R] [Fintype P] {s : State q P R}

/-- The potential holds in every run without hops. -/
theorem Potential.of_reach (h : (machine q P R).Reach State.NoHop s) : Potential s := by
  refine h.invariant ?_ ?_
  · rintro _ rfl hpremise
    cases hpremise
  · intro s a s' hr hp hok hs
    have hh' := Handshake.of_reachable (hr.step hok hs).reachable
    have hc : Covered (fun _ => True) s :=
      Covered.of_reach (fun s a hr hok =>
        (Storage.of_reachable hr).contained (Kinds.of_reachable hr) hok) hr
    obtain ⟨m, pc, hm, rfl⟩ := State.step_cases hs
    exact hp.step (.of_reachable hr.reachable) (.of_reachable hr.reachable) hc hm hh'

/-- **No stranded work.**  In a run in which no thief hops over an armed scan, no reachable
state has work behind a sleeping worker. -/
theorem not_stranded (h : (machine q P R).Reach State.NoHop s) : ¬ s.Stranded := by
  rintro ⟨⟨v, r, hr⟩, hasleep, hsettled, hbusy⟩
  have hk := Kinds.of_reachable h.reachable
  have hh := Handshake.of_reachable h.reachable
  have hnotifies : tally Pc.notifies s.pc = 0 := by
    refine tally_eq_zero_iff.mpr fun t => ?_
    by_contra hne
    obtain ⟨k, x, hpc⟩ := Pc.exists_of_notifies_pos (Nat.pos_of_ne_zero hne)
    have hpush := hsettled t
    rw [hpc] at hpush
    cases hpush
  have hkeen : tally (Pc.keen (tally Pc.slept s.pc)) s.pc = 0 := by
    refine tally_eq_zero_iff.mpr fun t => ?_
    have hpush := hsettled t
    cases hpc : s.pc t with
    | push k x u => rw [hpc] at hpush; cases hpush
    | _ => rfl
  have hpopping : tally Pc.popping s.pc ≤ s.mem.waiters.card := by
    refine tally_le_card_of_eq_zero (fun t => (s.pc t).popping_le_one) ?_
    rintro (w | f) ht
    · exact Pc.popping_of_isBusy ((hbusy w).resolve_left ht)
    · exact Pc.popping_of_isForeign (hk (.inr f))
  have hstored : 0 < s.mem.store.items.card :=
    Multiset.card_pos_iff_exists_mem.mpr ⟨r, Store.mem_items.mpr ⟨v, hr⟩⟩
  have hwaiters := hasleep.card_pos
  have hpotential := Potential.of_reach h (by omega)
  omega

end Runs

/-! ## A thief that hops over a sweep -/

/-- Worker 0 scans cheaply; one runnable is pushed and taken by worker 2, which pushes three more
and finds nobody armed; worker 1 is about to steal from worker 2. -/
def batchRun : List (Thread trio Unit × Choice trio Unit ℕ) :=
  goes (trio.worker 0 trio.numWorkers_pos) 29 ++ [(.inr (), .spawn 1 0 none)] ++ goes (.inr ()) 2 ++
    goes (trio.worker 2 (by decide)) 3 ++ [(trio.worker 2 (by decide), .steal (.batch 1))] ++
    [(trio.worker 2 (by decide), .spawn 2 0 none)] ++ goes (trio.worker 2 (by decide)) 2 ++
    [(trio.worker 2 (by decide), .spawn 3 0 none)] ++ goes (trio.worker 2 (by decide)) 2 ++
    [(trio.worker 2 (by decide), .spawn 4 0 none)] ++ goes (trio.worker 2 (by decide)) 2 ++
    goes (trio.worker 1 (by decide)) 5

/-- Worker 1 moves a batch before worker 0 arms. -/
def hauled : State trio Unit ℕ :=
  (machine trio Unit ℕ).final (.start trio Unit ℕ)
    (batchRun ++ [(trio.worker 1 (by decide), .steal (.batch 2))]) (by decide +kernel)

/-- No work is stranded there. -/
theorem not_stranded_hauled :
    hauled.mem.store.deques ⟨1, by decide⟩ = [3] ∧ ¬ hauled.Stranded :=
  ⟨by decide +kernel, not_stranded (Reach.final rfl (by decide +kernel) _)⟩

/-- Worker 0 arms and clears the deque of worker 1; worker 1 moves a batch from worker 2 to it;
worker 2 takes its last runnable; worker 0 finds the deque of worker 2 empty and sleeps. -/
def hopped : State trio Unit ℕ :=
  (machine trio Unit ℕ).final (.start trio Unit ℕ)
    (batchRun ++ goes (trio.worker 0 trio.numWorkers_pos) 6 ++
      [(trio.worker 1 (by decide), .steal (.batch 2)), (trio.worker 2 (by decide), .ret)] ++
      goes (trio.worker 2 (by decide)) 1 ++ goes (trio.worker 0 trio.numWorkers_pos) 4)
    (by decide +kernel)

/-- Stranded work is reachable. -/
theorem stranded_reachable :
    ¬ ∀ s, (machine trio Unit ℕ).Reach (fun _ a => a.2 ≠ .close) s → ¬ s.Stranded := by
  intro hall
  refine hall hopped (Reach.final rfl (by decide +kernel) _)
    ⟨⟨.peer ⟨1, by decide⟩, 3, ?_⟩, ?_, ?_, ?_⟩
  all_goals decide +kernel

end AffinityPool
