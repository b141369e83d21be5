import AffinityPool.Queue.Handshake
import AffinityPool.Queue.Sweep

/-!
# Where the runnables are

A step of the queue moves runnables between the injectors, the deques, the hands of a worker
that has taken one and is about to return it, and the history of returns.  `Storage` is the
invariant: the runnables pushed so far are, as a multiset, those returned, those stored and
those in hand; a worker that has walked on from an empty own deque still has an empty one;
and a push in progress knows its runnable and its queue.
-/

namespace AffinityPool

open Transition

variable {q : Shape} {P R : Type}

/-! ## The contents of the storage -/

namespace Store

/-- All runnables in the injectors and in the deques. -/
def items (st : Store q R) : Multiset R :=
  tally (fun l : List R => (l : Multiset R)) st.injectors +
    tally (fun l : List R => (l : Multiset R)) st.deques

@[simp] lemma items_setRng (st : Store q R) (i : q.Worker) (x : UInt32) :
    (st.setRng i x).items = st.items := rfl

/-- Replacing the contents of one queue. -/
lemma items_setQueue (st : Store q R) (v : Victim q) (xs : List R) :
    (st.setQueue v xs).items + (st.queue v : Multiset R) = st.items + (xs : Multiset R) := by
  cases v with
  | injector s =>
    have hupdate := tally_update (fun l : List R => (l : Multiset R)) st.injectors s xs
    simp only [items, setQueue, queue]
    rw [add_right_comm, hupdate, add_right_comm]
  | peer w =>
    have hupdate := tally_update (fun l : List R => (l : Multiset R)) st.deques w xs
    simp only [items, setQueue, queue]
    rw [add_assoc, hupdate, ← add_assoc]

/-- A stored runnable is in some queue. -/
lemma mem_items {st : Store q R} {r : R} : r ∈ st.items ↔ ∃ v, r ∈ st.queue v := by
  simp only [items, tally, Multiset.mem_add, Multiset.mem_sum, Finset.mem_univ, true_and,
    Multiset.mem_coe]
  constructor
  · rintro (⟨s, hs⟩ | ⟨w, hw⟩)
    · exact ⟨.injector s, hs⟩
    · exact ⟨.peer w, hw⟩
  · rintro ⟨s | w, hr⟩
    · exact Or.inl ⟨s, hr⟩
    · exact Or.inr ⟨w, hr⟩

/-- An insertion adds its runnable. -/
lemma items_insert (st : Store q R) (x : Pushed q R) :
    (st.insert x).items = st.items + {x.item} := by
  have hset := st.items_setQueue x.into (st.queue x.into ++ [x.item])
  rw [← Multiset.coe_add, Multiset.coe_singleton, add_comm (st.queue x.into : Multiset R),
    ← add_assoc] at hset
  exact add_right_cancel hset

/-- Registering a worker whose old deque is empty moves nothing. -/
lemma items_register (st : Store q R) (w : q.Worker) (h : st.deques w = []) :
    (st.register w).items = st.items := by
  have hset := st.items_setQueue (.peer w) []
  rw [queue_peer, h, Multiset.coe_nil, add_zero, add_zero] at hset
  exact hset

/-- The queues after an insertion. -/
lemma mem_queue_insert {st : Store q R} {x : Pushed q R} {v : Victim q} {r : R}
    (h : r ∈ (st.insert x).queue v) : r ∈ st.queue v ∨ v = x.into ∧ r = x.item := by
  by_cases hv : v = x.into
  · subst hv
    rw [insert, queue_setQueue_self, List.mem_append, List.mem_singleton] at h
    exact h.imp_right fun hr => ⟨rfl, hr⟩
  · rw [insert, queue_setQueue_of_ne _ hv] at h
    exact Or.inl h

/-- The queues after a registration. -/
lemma mem_queue_register {st : Store q R} {w : q.Worker} {v : Victim q} {r : R}
    (h : r ∈ (st.register w).queue v) : r ∈ st.queue v := by
  cases v with
  | injector s => exact h
  | peer u =>
    by_cases hu : u = w
    · subst hu
      simp [register] at h
    · simpa [register, Function.update_of_ne hu] using h

end Store

/-! ## The effect of a scan -/

/-- The runnable a step of a scan has taken out of the storage. -/
def ScanResult.taken : ScanResult q R → Multiset R
  | .found r => {r}
  | _ => 0

section Scan

variable {i : q.Worker} {b : Probe} {o : Steal} {st st' : Store q R} {s : Scan q}
  {res : ScanResult q R}

/-- Leaving a victim returns nothing. -/
lemma Store.advance_ne_found (st : Store q R) (i : q.Worker) (b : Probe) (p : Pass q) (r : R) :
    (st.advance i b p).2 ≠ .found r := by
  have hnext := @Pass.continues_next q R p i b (st.rng i)
  intro heq
  change (p.next i b (st.rng i)).1 = .found r at heq
  rw [heq] at hnext
  cases hnext

/-- Leaving a victim takes nothing. -/
lemma Store.taken_advance (st : Store q R) (i : q.Worker) (b : Probe) (p : Pass q) :
    (st.advance i b p).2.taken = 0 := by
  cases h : (st.advance i b p).2 with
  | more s => rfl
  | found r => exact absurd h (st.advance_ne_found i b p r)
  | empty => rfl

/-- A step of a scan only takes out the runnable it returns. -/
theorem ScanMove.items_add (h : ScanMove i b o st s st' res) :
    st'.items + res.taken = st.items := by
  cases h with
  | @pop r rest hd =>
    have hset := st.items_setQueue (.peer i) rest
    rw [Store.queue_peer, hd, ← Multiset.cons_coe, ← Multiset.singleton_add, ← add_assoc] at hset
    exact add_right_cancel hset
  | start hd => exact add_zero _
  | access p a => exact add_zero _
  | miss hblank => rw [Store.taken_advance, add_zero]; rfl
  | retry p => rw [Store.taken_advance, add_zero]; rfl
  | @batch p n r moved ho ha ht =>
    have hcut := st.items_setQueue p.victim ((st.queue p.victim).drop n)
    have hsplit : (st.queue p.victim : Multiset R) =
        {r} + moved + ((st.queue p.victim).drop n : Multiset R) := by
      conv_lhs => rw [← List.take_append_drop n (st.queue p.victim), ht]
      rw [← Multiset.coe_add, ← Multiset.cons_coe, ← Multiset.singleton_add]
    rw [hsplit, ← add_assoc] at hcut
    have hcut' := add_right_cancel hcut
    have hmove := (st.setQueue p.victim ((st.queue p.victim).drop n)).items_setQueue (.peer i)
      ((st.setQueue p.victim ((st.queue p.victim).drop n)).queue (.peer i) ++ moved)
    rw [← Multiset.coe_add, add_comm _ (moved : Multiset R), ← add_assoc] at hmove
    have hmove' := add_right_cancel hmove
    rw [hmove', ← hcut', ScanResult.taken]
    abel

/-- A runnable that appears in a queue by a step of a scan was moved to the own deque by a
batch. -/
theorem ScanMove.mem_queue (h : ScanMove i b o st s st' res) {v : Victim q} {r : R}
    (hr : r ∈ st'.queue v) :
    r ∈ st.queue v ∨
      ∃ p n, (s = .visit p ∧ p.access = .steal ∧ o = .batch n ∧ ∃ x, res = .found x) ∧
        v = .peer i ∧ r ∈ ((st.queue p.victim).take n).tail := by
  cases h with
  | @pop x rest hd =>
    by_cases hv : v = .peer i
    · subst hv
      rw [Store.queue_setQueue_self] at hr
      exact Or.inl (by rw [Store.queue_peer, hd]; exact List.mem_cons_of_mem _ hr)
    · rw [Store.queue_setQueue_of_ne _ hv] at hr
      exact Or.inl hr
  | start hd => exact Or.inl hr
  | access p a => exact Or.inl hr
  | miss hblank => exact Or.inl (by simpa [Store.advance] using hr)
  | retry p => exact Or.inl (by simpa [Store.advance] using hr)
  | @batch p n x moved ho ha ht =>
    have hcut : ∀ v, r ∈ (st.setQueue p.victim ((st.queue p.victim).drop n)).queue v →
        r ∈ st.queue v := by
      intro v hr
      by_cases hv : v = p.victim
      · subst hv
        rw [Store.queue_setQueue_self] at hr
        exact List.mem_of_mem_drop hr
      · rwa [Store.queue_setQueue_of_ne _ hv] at hr
    by_cases hv : v = .peer i
    · subst hv
      rw [Store.queue_setQueue_self] at hr
      rcases List.mem_append.mp hr with hr | hr
      · exact Or.inl (hcut _ hr)
      · exact Or.inr ⟨p, n, ⟨rfl, ha, ho, x, rfl⟩, rfl, by rw [ht]; exact hr⟩
    · rw [Store.queue_setQueue_of_ne _ hv] at hr
      exact Or.inl (hcut _ hr)

/-- A scan registers no worker. -/
lemma ScanMove.stealers_eq (h : ScanMove i b o st s st' res) : st'.stealers = st.stealers := by
  cases h with
  | pop hd => exact Store.stealers_setQueue _ _ _
  | start hd => rfl
  | access p a => rfl
  | miss hblank => rfl
  | retry p => rfl
  | batch ho ha ht => rw [Store.stealers_setQueue, Store.stealers_setQueue]

end Scan

/-! ## The effect of a step -/

namespace Pc

/-- The runnable a worker has taken and is about to return. -/
def inHand : Pc q R → Multiset R
  | .leave (.got r) _ => {r}
  | _ => 0

/-- The worker has found its own deque empty and has taken nothing since. -/
def drained : Pc q R → Bool
  | .boot | .cheap _ (.visit _) | .sweep (.visit _) | .checkShutdown | .wait | .waiting
  | .spurious | .leave .shut _ | .leave .woken _ | .finished => true
  | _ => false

/-- The scan a worker is in. -/
def scan : Pc q R → Option (Scan q)
  | .cheap _ s | .sweep s => some s
  | _ => none

/-- The victim of the steal attempt a scan is about to make. -/
def stealing : Pc q R → Option (Victim q)
  | .cheap _ (.visit p) | .sweep (.visit p) => if p.access = .steal then some p.victim else none
  | _ => none

/-- The thread is inside `Queue::push`. -/
def isPush : Pc q R → Bool
  | .push _ _ _ => true
  | _ => false

lemma stealing_of_scan {pc : Pc q R} {p : Pass q} (h : pc.scan = some (.visit p))
    (ha : p.access = .steal) : pc.stealing = some p.victim := by
  cases pc <;> cases h <;> exact if_pos ha

end Pc

section Moves

variable [DecidableEq P] {t : Thread q P} {c : Choice q P R} {m m' : Mem q P R} {pc pc' : Pc q R}

/-- A step creates and loses no runnable. -/
theorem Move.conserve (hm : Move t c m pc m' pc')
    (hboot : ∀ w, t = .inl w → pc = .boot → m.store.deques w = []) :
    (m'.returned : Multiset R) + m'.store.items + pc'.inHand + m.pushed =
      m.returned + m.store.items + pc.inHand + m'.pushed := by
  have hkept : ∀ {w : q.Worker} {b : Probe} {o : Steal} {sc : Scan q} {st : Store q R}
      {res : ScanResult q R}, ScanMove w b o m.store sc st res → res.taken = 0 →
      st.items = m.store.items := by
    intro w b o sc st res h htaken
    rw [← h.items_add, htaken, add_zero]
  cases hm
  case spawn k x hash cell hc hx hown hfor =>
    simp only [Pc.inHand, Store.items_insert, ← Multiset.coe_add, Multiset.coe_singleton]
    abel
  case boot w ht => simp only [Pc.inHand, Store.items_register _ w (hboot w ht rfl)]
  case cheapMore w o round sc sc' st ht ho h | cheapNext w o round sc st ht ho hr h |
      cheapLast w o round sc st ht ho hr h | sweepMore w o sc sc' st ht ho h |
      sweepEmpty w o sc st ht ho h =>
    simp only [Pc.inHand, hkept h rfl]
  case cheapFound w o round sc st r ht ho h =>
    simp only [Pc.inHand, ← h.items_add, ScanResult.taken, ← Multiset.coe_add,
      Multiset.coe_singleton]
    abel
  case sweepFound w o sc st r ht ho h =>
    simp only [Pc.inHand, ← h.items_add, ScanResult.taken]
    abel
  case giveBack r =>
    simp only [Pc.inHand, ← Multiset.coe_add, Multiset.coe_singleton]
    abel
  case consume e h | pass e h | lower e | unpark e => cases e <;> rfl
  all_goals rfl

/-- A step keeps the balance of pushed runnables and of those returned, stored or in hand. -/
theorem Move.conserved_step [Fintype P] {s : State q P R} (hm : Move t c s.mem (s.pc t) m' pc')
    (hboot : ∀ w, t = .inl w → s.pc t = .boot → s.mem.store.deques w = [])
    (h : (s.mem.pushed : Multiset R) =
      s.mem.returned + s.mem.store.items + tally Pc.inHand s.pc) :
    (m'.pushed : Multiset R) =
      m'.returned + m'.store.items + tally Pc.inHand (Function.update s.pc t pc') := by
  classical
  have hstep := hm.conserve hboot
  have hupdate := tally_update Pc.inHand s.pc t pc'
  refine Multiset.ext.mpr fun r => ?_
  have cstep := congrArg (Multiset.count r) hstep
  have cupdate := congrArg (Multiset.count r) hupdate
  have cold := congrArg (Multiset.count r) h
  simp only [Multiset.count_add] at cstep cupdate cold ⊢
  omega

/-- How a runnable comes into a queue: it is pushed there, or a worker moves it to its own
deque with the batch that follows the runnable it has stolen. -/
inductive Gain (t : Thread q P) (c : Choice q P R) (m : Mem q P R) (pc pc' : Pc q R)
    (v : Victim q) (r : R) : Prop
  | pushed {k : Caller R} {x : Pushed q R} (hpc : pc = .out k)
    (hpc' : pc' = .push k x .loadParked) (hv : v = x.into) (hr : r = x.item)
  | moved {w : q.Worker} {u : Victim q} {n : ℕ} (ht : t = .inl w) (hc : c = .steal (.batch n))
    (hpc : pc.stealing = some u)
    (hpc' : (∃ x, pc' = .out (.running x)) ∨ ∃ x, pc' = .leave (.got x) .loadNotified)
    (hv : v = .peer w) (hr : r ∈ ((m.store.queue u).take n).tail)

/-- A step brings a runnable into a queue in one of these two ways only. -/
theorem Move.mem_queue (hm : Move t c m pc m' pc') {v : Victim q} {r : R}
    (hr : r ∈ m'.store.queue v) : r ∈ m.store.queue v ∨ Gain t c m pc pc' v r := by
  have hscan : ∀ {w : q.Worker} {b : Probe} {o : Steal} {sc : Scan q} {st : Store q R}
      {res : ScanResult q R}, t = .inl w → pc.scan = some sc → c.report = some o →
      ScanMove w b o m.store sc st res →
      (∀ x, res = .found x →
        (∃ x, pc' = .out (.running x)) ∨ ∃ x, pc' = .leave (.got x) .loadNotified) →
      r ∈ st.queue v → r ∈ m.store.queue v ∨ Gain t c m pc pc' v r := by
    intro w b o sc st res ht hsc ho h hpc' hr
    rcases h.mem_queue hr with hr | ⟨p, n, ⟨rfl, ha, rfl, x, hx⟩, hv, hmem⟩
    · exact Or.inl hr
    · have hc : c = .steal (.batch n) := by
        cases c <;> simp_all [Choice.report]
      exact Or.inr (.moved ht hc (Pc.stealing_of_scan hsc ha) (hpc' x hx) hv hmem)
  cases hm
  case spawn k x hash cell hc hx hown hfor =>
    rcases Store.mem_queue_insert hr with hr | ⟨hv, hr⟩
    · exact Or.inl hr
    · exact Or.inr (.pushed rfl rfl hv hr)
  case boot w ht => exact Or.inl (Store.mem_queue_register hr)
  case cheapFound w o round sc st x ht ho h =>
    exact hscan ht rfl ho h (fun _ _ => Or.inl ⟨x, rfl⟩) hr
  case sweepFound w o sc st x ht ho h =>
    exact hscan ht rfl ho h (fun _ _ => Or.inr ⟨x, rfl⟩) hr
  case cheapMore w o round sc sc' st ht ho h | cheapNext w o round sc st ht ho hround h |
      cheapLast w o round sc st ht ho hround h | sweepMore w o sc sc' st ht ho h |
      sweepEmpty w o sc st ht ho h =>
    exact hscan ht rfl ho h (fun _ hx => by cases hx) hr
  all_goals exact Or.inl hr

/-- A step from an empty own deque that takes nothing leaves it empty. -/
theorem Move.drained (hm : Move t c m pc m' pc') {w : q.Worker} (ht : t = .inl w)
    (hold : pc.drained = true → m.store.deques w = []) (hnew : pc'.drained = true) :
    m'.store.deques w = [] := by
  have hscan : ∀ {u : q.Worker} {b : Probe} {o : Steal} {sc : Scan q} {st : Store q R}
      {res : ScanResult q R}, t = .inl u → ScanMove u b o m.store sc st res →
      (sc ≠ .own → m.store.deques w = []) → (∀ r, res ≠ .found r) → res ≠ .more .own →
      st.deques w = [] := by
    intro u b o sc st res hu h hvisit hfound hown
    obtain rfl : u = w := Sum.inl_injective (hu.symm.trans ht)
    cases h with
    | pop hd => exact absurd rfl (hfound _)
    | start hd => exact hd
    | access p a => exact hvisit (by simp)
    | miss hblank => exact hvisit (by simp)
    | retry p => exact hvisit (by simp)
    | batch ho ha h => exact absurd rfl (hfound _)
  cases hm
  case cheapMore u o round sc sc' st hu ho h | sweepMore u o sc sc' st hu ho h =>
    cases sc' with
    | own => cases hnew
    | visit p' =>
      refine hscan hu h (fun hsc => ?_) (by simp) (by simp)
      cases sc with
      | own => exact absurd rfl hsc
      | visit p => exact hold rfl
  case sweepEmpty u o sc st hu ho h =>
    cases sc with
    | own => cases h
    | visit p =>
      exact hscan hu h (fun _ => hold rfl) (by simp) (by simp)
  case consume e h | pass e h | lower e | unpark e =>
    cases e <;> first | exact hold rfl | cases hnew
  all_goals first | exact hold rfl | cases hnew

/-- A step leads nobody back to the start. -/
lemma Move.ne_boot (hm : Move t c m pc m' pc') : pc' ≠ .boot := by
  cases hm
  all_goals exact fun h => by cases h

/-- A step registers the worker that starts. -/
lemma Move.stealers_eq (hm : Move t c m pc m' pc') :
    (pc ≠ .boot ∧ m'.store.stealers = m.store.stealers) ∨
      ∃ w, t = .inl w ∧ m'.store.stealers = Function.update m.store.stealers w true := by
  cases hm
  case boot w ht => exact Or.inr ⟨w, ht, rfl⟩
  case cheapMore w o round sc sc' st ht ho h | cheapFound w o round sc st r ht ho h |
      cheapNext w o round sc st ht ho hr h | cheapLast w o round sc st ht ho hr h |
      sweepMore w o sc sc' st ht ho h | sweepFound w o sc st r ht ho h |
      sweepEmpty w o sc st ht ho h =>
    exact Or.inl ⟨by simp, h.stealers_eq⟩
  case spawn k x hash cell hc hx hown hfor => exact Or.inl ⟨by simp, Store.stealers_setQueue _ _ _⟩
  all_goals exact Or.inl ⟨by simp, rfl⟩

/-- The push in progress after a step. -/
lemma Move.push_cases {k : Caller R} {x : Pushed q R} {u : PushStage}
    (hm : Move t c m pc m' (.push k x u)) :
    (∃ u', pc = .push k x u') ∨
      ((∃ hash cell, c = .spawn x.item hash cell) ∧ u = .loadParked ∧
        m'.pushed = m.pushed ++ [x.item] ∧ x.item ∉ m.pushed) ∧
        (∀ w, t = .inl w → x.into = .peer w) ∧ ∀ p, t = .inr p → ∃ s, x.into = .injector s := by
  generalize hpc : (Pc.push k x u : Pc q R) = pc' at hm
  cases hm
  case spawn k' x' hash cell hc hx hown hfor =>
    cases hpc
    exact Or.inr ⟨⟨⟨hash, cell, hc⟩, rfl, rfl, hx⟩, hown, hfor⟩
  all_goals cases hpc
  all_goals exact Or.inl ⟨_, rfl⟩

/-- The armed scan after a step. -/
lemma Move.covers {w : q.Worker} {sc : Scan q} (hm : Move (.inl w) c m pc m' (.sweep sc))
    (hold : ∀ sc, pc = .sweep sc → sc.Covers w) : sc.Covers w := by
  generalize hpc : (Pc.sweep sc : Pc q R) = pc' at hm
  cases hm
  case arm =>
    cases hpc
    trivial
  case sweepMore u o sc₀ sc' st ht ho h =>
    cases hpc
    cases ht
    exact (h.advances (hold _ rfl)).1
  all_goals cases hpc

/-- The history of pushes only grows. -/
lemma Move.pushed_subset (hm : Move t c m pc m' pc') : m.pushed ⊆ m'.pushed := by
  cases hm
  case spawn k x hash cell hc hx hown hfor => exact List.subset_append_left _ _
  all_goals exact List.Subset.refl _

/-- No runnable is pushed twice. -/
lemma Move.pushed_nodup (hm : Move t c m pc m' pc') (h : m.pushed.Nodup) : m'.pushed.Nodup := by
  cases hm
  case spawn k x hash cell hc hx hown hfor =>
    exact h.append (List.nodup_singleton _) (List.disjoint_singleton.mpr hx)
  all_goals exact h

end Moves

/-! ## The invariant -/

/-- Where the runnables are, and what the program counters know about it. -/
structure Storage [Fintype P] (s : State q P R) : Prop where
  conserved : (s.mem.pushed : Multiset R) =
    s.mem.returned + s.mem.store.items + tally Pc.inHand s.pc
  nodup : s.mem.pushed.Nodup
  registered : ∀ w, s.mem.store.stealers w = false ↔ s.pc (.inl w) = .boot
  drained : ∀ w, (s.pc (.inl w)).drained = true → s.mem.store.deques w = []
  pushing : ∀ t k x u, s.pc t = .push k x u → x.item ∈ s.mem.pushed ∧
    (∀ w, t = .inl w → x.into = .peer w) ∧ ∀ p, t = .inr p → ∃ i, x.into = .injector i
  covers : ∀ w sc, s.pc (.inl w) = .sweep sc → sc.Covers w

namespace Storage

variable [Fintype P] {s : State q P R}

/-- A victim without runnables has an empty queue. -/
lemma queue_eq_nil (h : Storage s) {v : Victim q} (hv : s.mem.store.Blank v) :
    s.mem.store.queue v = [] := by
  rcases hv with hv | ⟨w, rfl, hw⟩
  · exact hv
  · refine h.drained w ?_
    rw [(h.registered w).mp hw]
    rfl

variable [DecidableEq P] {t : Thread q P} {c : Choice q P R} {m' : Mem q P R} {pc' : Pc q R}

/-- **Step lemma.**  A step keeps the storage invariant. -/
theorem step (h : Storage s) (hm : Move t c s.mem (s.pc t) m' pc') :
    Storage ⟨m', Function.update s.pc t pc'⟩ := by
  refine ⟨?_, hm.pushed_nodup h.nodup, ?_, ?_, ?_, ?_⟩
  · refine hm.conserved_step (fun w hw hpc => h.drained w ?_) h.conserved
    rw [← hw, hpc]
    rfl
  · intro w
    by_cases hw : t = .inl w
    · subst hw
      simp only [Function.update_self, hm.ne_boot, iff_false]
      rcases hm.stealers_eq with ⟨hpc, hst⟩ | ⟨u, hu, hst⟩
      · rw [hst, h.registered]
        exact hpc
      · cases hu
        simp [hst]
    · have hpc : Function.update s.pc t pc' (.inl w) = s.pc (.inl w) :=
        Function.update_of_ne (Ne.symm hw) _ _
      simp only [hpc, ← h.registered]
      rcases hm.stealers_eq with ⟨-, hst⟩ | ⟨u, rfl, hst⟩
      · rw [hst]
      · have hne : w ≠ u := fun heq => hw (congrArg Sum.inl heq.symm)
        rw [hst, Function.update_of_ne hne]
  · intro w hw
    by_cases ht : t = .inl w
    · subst ht
      simp only [Function.update_self] at hw
      exact hm.drained rfl (h.drained w) hw
    · simp only [Function.update_of_ne (Ne.symm ht)] at hw
      have hold : s.mem.store.queue (.peer w) = [] := h.drained w hw
      refine List.eq_nil_iff_forall_not_mem.mpr fun r hr => ?_
      have hr' : r ∈ m'.store.queue (.peer w) := hr
      rcases hm.mem_queue hr' with hmem | ⟨hpc, rfl, hinto, -⟩ | ⟨hu, -, -, -, hv, -⟩
      · rw [hold] at hmem
        cases hmem
      · rcases hm.push_cases with ⟨u', hpush⟩ | ⟨-, hown, hfor⟩
        · rw [hpc] at hpush
          cases hpush
        · cases t with
          | inl u =>
            have hu := hinto.trans (hown u rfl)
            exact ht (congrArg Sum.inl (Victim.peer.inj hu).symm)
          | inr p =>
            obtain ⟨i, hi⟩ := hfor p rfl
            rw [← hinto] at hi
            cases hi
      · cases hv
        exact ht hu
  · intro u k x st hu
    rcases update_cases hu with ⟨rfl, rfl⟩ | ⟨-, hold⟩
    · rcases hm.push_cases with ⟨u', hpc⟩ | ⟨⟨-, rfl, hpushed, -⟩, hown, hfor⟩
      · obtain ⟨hmem, hinto⟩ := h.pushing u k x u' hpc
        exact ⟨hm.pushed_subset hmem, hinto⟩
      · refine ⟨?_, hown, hfor⟩
        rw [hpushed]
        exact List.mem_append_right _ (List.mem_singleton_self _)
    · obtain ⟨hmem, hinto⟩ := h.pushing u k x st hold
      exact ⟨hm.pushed_subset hmem, hinto⟩
  · intro w sc hw
    rcases update_cases hw with ⟨rfl, rfl⟩ | ⟨-, hold⟩
    · exact hm.covers (h.covers w)
    · exact h.covers w sc hold

end Storage

/-- The storage invariant holds in every run. -/
theorem Storage.of_reachable [Fintype P] [DecidableEq P] [DecidableEq R] {s : State q P R}
    (h : (machine q P R).Reachable s) : Storage s := by
  refine h.invariant ?_ ?_
  · rintro _ rfl
    refine ⟨?_, List.nodup_nil, ?_, fun w _ => rfl, ?_, ?_⟩
    · have hitems : (State.start q P R).mem.store.items = 0 := by
        refine Multiset.eq_zero_of_forall_notMem fun r hr => ?_
        obtain ⟨v, hv⟩ := Store.mem_items.mp hr
        cases v <;> cases hv
      have hhand : tally Pc.inHand (State.start q P R).pc = 0 := by
        refine tally_eq_zero ?_
        rintro (w | p)
        · rfl
        · rfl
      rw [hitems, hhand]
      rfl
    · intro w
      exact ⟨fun _ => rfl, fun _ => rfl⟩
    · rintro (w | p) k x u hu
      · cases hu
      · cases hu
    · intro w sc hw
      cases hw
  · intro s a s' _ hs _ hstep
    obtain ⟨m, pc, hm, rfl⟩ := State.step_cases hstep
    exact hs.step hm

end AffinityPool
