import AffinityPool.Foundation.Record
import AffinityPool.Queue.CheapScan

/-!
# The retry loop of a scan terminates

`Queue::scan` walks its victims again when a pass has found nothing but some victim answered
`Retry`.  The source says that a `Retry` implies concurrent activity.  Here that is a condition
on the steps: a steal reports `Retry` only if, since it began, another thread has changed the
contents of its victim (`RetriesJustified`).

A pass by itself is bounded: every step of the worker uses up some of its `budget`.  A further
pass is paid for by an operation of another thread, which no other pass is charged with
(`CallLog.Fits`).  Operations are pushes and removals (`Effect`), and a removal takes a runnable
out of the queues for good, so their number is bounded by the number of runnables pushed.
Hence every call finishes (`scan_terminates`); nothing here depends on who holds `park`.
-/

namespace AffinityPool

open Transition System

variable {q : Shape} {P R : Type}

/-! ## The steps of one pass -/

/-- How many accesses a visit may still take. -/
def Access.budget : Access → ℕ
  | .slot => 3
  | .probe => 2
  | .steal => 1

/-- How many victims the later phases of a pass have, at most. -/
def Phase.later (q : Shape) : Phase → ℕ
  | .preferred => q.mask + (q.numWorkers - 1)
  | .injectors => q.numWorkers - 1
  | .peers => 0

/-- How many steps the rest of a pass may take. -/
def Pass.budget (p : Pass q) : ℕ := p.access.budget + 3 * (p.rest.length + p.phase.later q)

/-- How many steps a whole pass may take: the pop of the own deque, and three accesses for every
victim. -/
def Shape.passSteps (q : Shape) : ℕ := 1 + 3 * (q.mask + q.numWorkers)

namespace Scan

/-- How many steps the present pass of a scan may still take. -/
def budget : Scan q → ℕ
  | .own => q.passSteps
  | .visit p => p.budget

lemma visit_ne_own (p : Pass q) : visit p ≠ .own := nofun

/-- Only the deque of another worker has a slot to load. -/
def Slotted : Scan q → Prop
  | .own => True
  | .visit p => p.access = .slot → ∃ w, p.victim = .peer w

lemma budget_pos (s : Scan q) : 0 < s.budget := by
  cases s with
  | own => exact Nat.lt_add_right _ Nat.one_pos
  | visit p =>
    have haccess : 0 < p.access.budget := by cases p.access <;> exact Nat.succ_pos _
    exact Nat.lt_add_right _ haccess

/-- The steal attempt the scan is at reports `Retry`. -/
def Retried (s : Scan q) (o : Steal) : Prop :=
  ∃ p, s = .visit p ∧ p.access = .steal ∧ o = .retry

end Scan

/-- What follows a visited victim: a visit with at most `n` steps to the end of the pass, or the
end of the pass. -/
inductive Onward (contended : Bool) (n : ℕ) : ScanResult q R → Prop
  | visit {p : Pass q} (hcontended : p.contended = contended) (hbudget : p.budget ≤ n)
    (hslot : (Scan.visit p).Slotted) : Onward contended n (.more (.visit p))
  | again (h : contended = true) : Onward contended n (.more .own)
  | empty : Onward contended n .empty

section Walk

variable {i : q.Worker} {b : Probe} {contended : Bool}

/-- The first access to a victim leaves two more at most, and begins with the slot only at a
worker. -/
lemma Probe.budget_firstAccess (b : Probe) (v : Victim q) : (b.firstAccess v).budget ≤ 3 := by
  cases v <;> cases b <;> simp [firstAccess, access, Access.budget]

lemma Probe.slotted_firstAccess (b : Probe) (v : Victim q) (h : b.firstAccess v = .slot) :
    ∃ w, v = .peer w := by
  cases v with
  | injector s => cases b <;> cases h
  | peer w => exact ⟨w, rfl⟩

lemma Probe.access_ne_slot (b : Probe) : b.access ≠ .slot := by
  cases b <;> nofun

/-- More steps may be left. -/
lemma Onward.mono {n n' : ℕ} {res : ScanResult q R} (hn : n ≤ n') (h : Onward contended n res) :
    Onward contended n' res := by
  cases h with
  | visit hcontended hbudget hslot => exact .visit hcontended (le_trans hbudget hn) hslot
  | again h => exact .again h
  | empty => exact .empty

/-- The end of a pass. -/
lemma onward_finishPass (contended : Bool) (n : ℕ) :
    Onward contended n (finishPass contended : ScanResult q R) := by
  cases contended with
  | true => exact .again rfl
  | false => exact .empty

/-- The walk over the other workers. -/
lemma onward_enterPeers (i : q.Worker) (b : Probe) (contended : Bool) (clear : List (Victim q))
    (rng : UInt32) : Onward contended (3 * (q.numWorkers - 1))
      (enterPeers i b contended clear rng : ScanResult q R × UInt32).1 := by
  unfold enterPeers
  split
  · dsimp only
    split
    · rename_i v rest hpeers
      have hlength := congrArg List.length hpeers
      rw [List.length_map, Shape.peers, List.length_ofFn, List.length_cons] at hlength
      have hlimit := probeLimit_le (q.numWorkers - 1) b
      have hfirst := b.budget_firstAccess v
      refine .visit rfl ?_ (b.slotted_firstAccess v)
      simp only [Pass.budget, Phase.later]
      omega
    · exact onward_finishPass _ _
  · exact onward_finishPass _ _

/-- The walk over the other injectors, and what follows. -/
lemma onward_enterInjectors (i : q.Worker) (b : Probe) (contended : Bool)
    (clear : List (Victim q)) (rng : UInt32) :
    Onward contended (3 * (q.mask + (q.numWorkers - 1)))
      (enterInjectors i b contended clear rng : ScanResult q R × UInt32).1 := by
  have hpeers : ∀ rng, Onward contended (3 * (q.mask + (q.numWorkers - 1)))
      (enterPeers i b contended clear rng : ScanResult q R × UInt32).1 := fun rng =>
    (onward_enterPeers i b contended clear rng).mono (by omega)
  unfold enterInjectors
  split
  · dsimp only
    split
    · rename_i v rest hshards
      have hlength := congrArg List.length hshards
      rw [List.length_map, Shape.otherShards, List.length_ofFn, List.length_cons] at hlength
      have hlimit := probeLimit_le (q.mask + 1 - 1) b
      have hfirst := b.budget_firstAccess v
      refine .visit rfl ?_ (b.slotted_firstAccess v)
      simp only [Pass.budget, Phase.later]
      omega
    · exact hpeers _
  · exact hpeers _

/-- The scan goes on from a visited victim. -/
lemma Pass.onward_next (p : Pass q) (i : q.Worker) (b : Probe) (rng : UInt32) :
    Onward p.contended (3 * (p.rest.length + p.phase.later q))
      (p.next i b rng : ScanResult q R × UInt32).1 := by
  unfold next
  split
  · rename_i v rest hrest
    have hfirst := b.budget_firstAccess v
    refine .visit rfl ?_ (b.slotted_firstAccess v)
    rw [hrest, List.length_cons]
    simp only [budget]
    omega
  · rename_i hrest
    rw [hrest, List.length_nil, Nat.zero_add]
    split
    · rename_i hphase
      rw [hphase]
      exact onward_enterInjectors i b p.contended p.clear rng
    · rename_i hphase
      rw [hphase]
      exact onward_enterPeers i b p.contended p.clear rng
    · exact onward_finishPass _ _

end Walk

/-- How a scan that goes on gets from `s` to `s'`: it uses up some of its pass, or begins a further
one; and its pass is contended only if it was before or a steal has just reported `Retry`. -/
def Scan.Proceeds (s : Scan q) (o : Steal) (s' : Scan q) : Prop :=
  s'.Slotted ∧
    (s' = .own ∧ (s.contended = true ∨ s.Retried o) ∨
      s' ≠ .own ∧ s'.budget < s.budget ∧ (s'.contended = true → s.contended = true ∨ s.Retried o))

section Steps

variable {i : q.Worker} {b : Probe} {o : Steal} {st st' : Store q R} {s s' : Scan q} {p : Pass q}

/-- The next access to the same victim. -/
lemma Pass.proceeds_access {a : Access} (ha : a ≠ .slot) (hless : a.budget < p.access.budget) :
    (Scan.visit p).Proceeds o (.visit { p with access := a }) := by
  refine ⟨fun h => absurd h ha, Or.inr ⟨Scan.visit_ne_own _, ?_, Or.inl⟩⟩
  simp only [Scan.budget, Pass.budget]
  omega

/-- A visit that leaves its victim with the pass `p'`: the pass goes on with less to do, or it was
contended and the next one begins. -/
lemma Store.proceeds_advance (p' : Pass q) (hphase : p'.phase = p.phase) (hrest : p'.rest = p.rest)
    (hcontended : p'.contended = true → p.contended = true ∨ (Scan.visit p).Retried o)
    (h : (st.advance i b p').2 = .more s') : (Scan.visit p).Proceeds o s' := by
  have honward : Onward p'.contended _ (st.advance i b p').2 := p'.onward_next i b (st.rng i)
  rw [h, hphase, hrest] at honward
  have hpos : 0 < p.access.budget := by cases p.access <;> exact Nat.succ_pos _
  cases honward with
  | visit hc hbudget hslot =>
    refine ⟨hslot, Or.inr ⟨Scan.visit_ne_own _, ?_, fun ht => hcontended (hc ▸ ht)⟩⟩
    simp only [Scan.budget, Pass.budget] at hbudget ⊢
    omega
  | again hc => exact ⟨trivial, Or.inl ⟨rfl, hcontended hc⟩⟩

/-- **Step lemma.**  Every step of a scan that goes on is such a progress. -/
theorem scanMove_proceeds (h : scanMove st i b o s = some (st', .more s')) (hslot : s.Slotted) :
    s.Proceeds o s' := by
  cases s with
  | own =>
    cases hd : st.deques i with
    | cons r rest => simp [scanMove, hd] at h
    | nil =>
      simp only [scanMove, hd, Option.some.injEq, Prod.mk.injEq, ScanResult.more.injEq] at h
      obtain ⟨-, rfl⟩ := h
      have haccess : b.access.budget ≤ 2 := by cases b <;> simp [Probe.access, Access.budget]
      have hworkers := q.numWorkers_pos
      refine ⟨b.slotted_firstAccess (.injector (q.myShard i)), Or.inr ⟨Scan.visit_ne_own _, ?_, ?_⟩⟩
      swap
      · exact fun hc => absurd hc Bool.false_ne_true
      simp only [Scan.budget, Pass.budget, Pass.start, Phase.later, Shape.passSteps,
        List.length_nil]
      omega
  | visit p =>
    cases ha : p.access with
    | slot =>
      obtain ⟨w, hw⟩ := hslot ha
      cases hs : st.stealers w with
      | true =>
        simp only [scanMove, ha, hw, hs, if_true, Option.some.injEq, Prod.mk.injEq,
          ScanResult.more.injEq] at h
        have hmore : s' = .visit { p with access := b.access } := by
          rw [← h.2, ← hw]
        rw [hmore]
        refine Pass.proceeds_access b.access_ne_slot ?_
        rw [ha]
        cases b <;> simp [Probe.access, Access.budget]
      | false =>
        simp only [scanMove, ha, hw, hs, Bool.false_eq_true, if_false, Option.some.injEq] at h
        exact Store.proceeds_advance p.miss rfl rfl Or.inl (congrArg Prod.snd h)
    | probe =>
      by_cases he : (st.queue p.victim).isEmpty
      · simp only [scanMove, ha, he, if_true, Option.some.injEq] at h
        exact Store.proceeds_advance p.miss rfl rfl Or.inl (congrArg Prod.snd h)
      · simp only [scanMove, ha, he, Bool.false_eq_true, if_false, Option.some.injEq,
          Prod.mk.injEq, ScanResult.more.injEq] at h
        rw [← h.2]
        refine Pass.proceeds_access (by simp) ?_
        rw [ha]
        simp [Access.budget]
    | steal =>
      cases o with
      | batch n => simp [scanMove, ha] at h
      | empty =>
        by_cases he : (st.queue p.victim).isEmpty
        · simp only [scanMove, ha, he, if_true, Option.some.injEq] at h
          exact Store.proceeds_advance p.miss rfl rfl Or.inl (congrArg Prod.snd h)
        · simp [scanMove, ha, he] at h
      | retry =>
        simp only [scanMove, ha, Option.some.injEq] at h
        refine Store.proceeds_advance p.retry rfl rfl ?_ (congrArg Prod.snd h)
        exact fun _ => Or.inr ⟨p, rfl, ha, rfl⟩

/-- With nobody else around no steal reports `Retry`. -/
lemma Store.report_ne_retry (st : Store q R) (moved : Victim q → ℕ) (s : Scan q) :
    st.report moved s ≠ .retry := by
  unfold report
  split
  · nofun
  · split <;> nofun

/-- A scan can always take its next step, and need not report a `Retry` for it. -/
lemma exists_scanMove (st : Store q R) (i : q.Worker) (b : Probe) (hslot : s.Slotted) :
    ∃ o res, o ≠ .retry ∧ scanMove st i b o s = some res := by
  refine ⟨st.report (fun _ => 0) s, ?_⟩
  have hreport := st.report_ne_retry (fun _ => 0) s
  cases s with
  | own =>
    cases hd : st.deques i with
    | nil => exact ⟨(st, .more (.visit (Pass.start i b))), hreport, by simp [scanMove, hd]⟩
    | cons r rest =>
      exact ⟨(st.setQueue (.peer i) rest, .found r), hreport, by simp [scanMove, hd]⟩
  | visit p =>
    cases ha : p.access with
    | slot =>
      obtain ⟨w, hw⟩ := hslot ha
      cases hs : st.stealers w with
      | true =>
        refine ⟨(st, .more (.visit { p with access := b.access })), hreport, ?_⟩
        simp only [scanMove, ha, hw, hs, if_true]
      | false =>
        refine ⟨st.advance i b p.miss, hreport, ?_⟩
        simp only [scanMove, ha, hw, hs, Bool.false_eq_true, if_false]
    | probe =>
      by_cases he : (st.queue p.victim).isEmpty
      · exact ⟨st.advance i b p.miss, hreport, by simp only [scanMove, ha, he, if_true]⟩
      · refine ⟨(st, .more (.visit { p with access := .steal })), hreport, ?_⟩
        simp only [scanMove, ha, he, Bool.false_eq_true, if_false]
    | steal =>
      by_cases he : (st.queue p.victim).isEmpty
      · refine ⟨st.advance i b p.miss, hreport, ?_⟩
        simp only [Store.report, scanMove, ha, he, if_true]
      · have hne : st.queue p.victim ≠ [] := fun hnil => he (List.isEmpty_iff.mpr hnil)
        obtain ⟨⟨r, st'⟩, hsteal⟩ :=
          Option.ne_none_iff_exists'.mp (Store.stealBatch_ne_none (i := i) (n := 0) hne)
        refine ⟨(st', .found r), hreport, ?_⟩
        simp only [Store.report, scanMove, ha, he, Bool.false_eq_true, if_false, hsteal,
          Option.map_some]

end Steps

/-! ## The scans of the queue -/

namespace Pc

/-- The mode of the scan a worker is in. -/
def probe : Pc q R → Probe
  | .cheap _ _ => .cheap
  | _ => .strict

/-- A step from the one place to the other stays inside one call of `Queue::scan`. -/
def sameCall : Pc q R → Pc q R → Bool
  | .cheap round _, .cheap round' _ => round == round'
  | .sweep _, .sweep _ => true
  | _, _ => false

lemma exists_scan_of_sameCall {pc pc' : Pc q R} (h : pc.sameCall pc' = true) :
    (∃ s, pc.scan = some s) ∧ ∃ s', pc'.scan = some s' := by
  cases pc <;> cases pc' <;> first | exact ⟨⟨_, rfl⟩, _, rfl⟩ | cases h

/-- Foreign threads do not scan. -/
lemma isForeign_of_scan {pc : Pc q R} {s : Scan q} (h : pc.scan = some s) :
    pc.isForeign = false := by
  cases pc <;> first | rfl | cases h

end Pc

/-- Only workers scan. -/
lemma Kinds.exists_worker_of_scan {s : State q P R} (hk : Kinds s) {t : Thread q P} {sc : Scan q}
    (h : (s.pc t).scan = some sc) : ∃ w, t = .inl w := by
  cases t with
  | inl w => exact ⟨w, rfl⟩
  | inr p =>
    have hkind := hk (.inr p)
    rw [Pc.isForeign_of_scan h] at hkind
    cases hkind

/-- What a step does to the runnables in the queues: nothing, a push, or a removal. -/
inductive Effect (m m' : Mem q P R) : Prop
  | none (hqueue : ∀ v, m'.store.queue v = m.store.queue v) (hpushed : m'.pushed = m.pushed)
  | push (r : R) (hpushed : m'.pushed = m.pushed ++ [r])
    (hitems : m'.store.items = m.store.items + {r})
  | removal {rs : Multiset R} (hrs : rs ≠ 0) (hpushed : m'.pushed = m.pushed)
    (hitems : m'.store.items + rs = m.store.items)

section Moves

variable [DecidableEq P] {t : Thread q P} {c : Choice q P R} {m m' : Mem q P R} {pc pc' : Pc q R}

/-- A step of a scan that finds nothing moves no runnable. -/
lemma ScanMove.queue_eq {i : q.Worker} {b : Probe} {o : Steal} {st st' : Store q R} {s : Scan q}
    {res : ScanResult q R} (h : ScanMove i b o st s st' res) (hres : res.taken = 0)
    (v : Victim q) : st'.queue v = st.queue v := by
  cases h with
  | pop hd | batch ho ha ht => exact absurd hres (Multiset.singleton_ne_zero _)
  | start hd | access p a => rfl
  | miss hblank | retry p => exact st.queue_setRng i _ v

omit [DecidableEq P] in
/-- A registration leaves the queues as they are, unless the old deque held runnables. -/
lemma Store.register_cases (st : Store q R) (w : q.Worker) :
    (∀ v, (st.register w).queue v = st.queue v) ∨
      ∃ rs : Multiset R, rs ≠ 0 ∧ (st.register w).items + rs = st.items := by
  cases hd : st.deques w with
  | nil =>
    refine Or.inl fun v => ?_
    cases v with
    | injector s => rfl
    | peer u =>
      by_cases hu : u = w
      · subst hu
        exact (Function.update_self _ _ _).trans hd.symm
      · exact Function.update_of_ne hu _ _
  | cons r rest =>
    have hset := st.items_setQueue (.peer w) []
    rw [Multiset.coe_nil, add_zero, Store.queue_peer, hd] at hset
    exact Or.inr ⟨_, Multiset.coe_eq_zero _ |>.not.mpr (List.cons_ne_nil r rest), hset⟩

/-- Every step has one of these effects. -/
theorem Move.effect (hm : Move t c m pc m' pc') : Effect m m' := by
  cases hm
  case spawn k x hash cell hc hx hown hfor =>
    exact .push x.item rfl (m.store.items_insert x)
  case boot w ht =>
    rcases m.store.register_cases w with hqueue | ⟨rs, hrs, hitems⟩
    · exact .none hqueue rfl
    · exact .removal hrs rfl hitems
  case cheapMore w o round sc sc' st ht ho h | cheapNext w o round sc st ht ho hr h |
      cheapLast w o round sc st ht ho hr h | sweepMore w o sc sc' st ht ho h |
      sweepEmpty w o sc st ht ho h =>
    exact .none (h.queue_eq rfl) rfl
  case cheapFound w o round sc st r ht ho h | sweepFound w o sc st r ht ho h =>
    exact .removal (Multiset.singleton_ne_zero r) rfl h.items_add
  all_goals exact .none (fun _ => rfl) rfl

/-- A call of `Queue::scan` begins with the pop of the own deque. -/
lemma Move.scan_eq_own {s : Scan q} (hm : Move t c m pc m' pc') (hs : pc'.scan = some s)
    (hcall : pc.sameCall pc' = false) : s = .own := by
  cases hm
  case cheapMore | sweepMore => simp [Pc.sameCall] at hcall
  case ret | boot | cheapNext | arm | again => exact (Option.some.inj hs).symm
  all_goals cases hs

variable [DecidableEq R]

/-- A step of a worker inside a scan is a step of `Queue::scan`. -/
lemma move_scan {w : q.Worker} {s : Scan q} (hs : pc.scan = some s)
    (h : move (.inl w) m pc c = some (m', pc')) :
    ∃ o st res, c.report = some o ∧ scanMove m.store w pc.probe o s = some (st, res) ∧
      ∀ s', pc.sameCall pc' = true → pc'.scan = some s' → res = .more s' := by
  cases pc with
  | cheap round sc =>
    cases hs
    cases ho : c.report with
    | none => simp [move, ho] at h
    | some o =>
      simp only [move, ho, Option.map_eq_some_iff] at h
      obtain ⟨⟨st, res⟩, hscan, heq⟩ := h
      refine ⟨o, st, res, rfl, hscan, fun s' hcall hs' => ?_⟩
      cases res with
      | more s₁ =>
        cases heq
        cases hs'
        rfl
      | found r =>
        cases heq
        cases hs'
      | empty =>
        simp only [afterCheap, Prod.mk.injEq] at heq
        obtain ⟨-, rfl⟩ := heq
        split at hcall <;> simp [Pc.sameCall] at hcall
  | sweep sc =>
    cases hs
    cases ho : c.report with
    | none => simp [move, ho] at h
    | some o =>
      simp only [move, ho, Option.map_eq_some_iff] at h
      obtain ⟨⟨st, res⟩, hscan, heq⟩ := h
      refine ⟨o, st, res, rfl, hscan, fun s' hcall hs' => ?_⟩
      cases res with
      | more s₁ =>
        cases heq
        cases hs'
        rfl
      | found r | empty =>
        cases heq
        cases hs'
  | _ => cases hs

/-- A scan is never stuck: its next step waits for nobody, whether or not `park` is held, and need
not report a `Retry`. -/
lemma exists_move_of_scan {w : q.Worker} {s : Scan q} (m : Mem q P R) (hs : pc.scan = some s)
    (hslot : s.Slotted) :
    ∃ o res, o ≠ .retry ∧ move (.inl w) m pc (.steal o) = some res := by
  obtain ⟨o, res, ho, hscan⟩ := exists_scanMove m.store w pc.probe hslot
  cases pc with
  | cheap round sc =>
    cases hs
    refine ⟨o, afterCheap m round res.1 res.2, ho, ?_⟩
    have hscan' : scanMove m.store w .cheap o s = some res := hscan
    simp only [move, Choice.report, hscan', Option.map_some]
  | sweep sc =>
    cases hs
    refine ⟨o, afterSweep m res.1 res.2, ho, ?_⟩
    have hscan' : scanMove m.store w .strict o s = some res := hscan
    simp only [move, Choice.report, hscan', Option.map_some]
  | _ => cases hs

end Moves

/-! ## The log of a call -/

instance : Fintype (Victim q) :=
  .ofEquiv (q.Shard ⊕ q.Worker)
    { toFun := Sum.elim .injector .peer
      invFun := fun
        | .injector s => .inl s
        | .peer w => .inr w
      left_inv := by rintro (s | w) <;> rfl
      right_inv := by rintro (s | w) <;> rfl }

/-- Storages with the same queues have the same runnables. -/
lemma Store.items_congr {st st' : Store q R} (h : ∀ v, st'.queue v = st.queue v) :
    st'.items = st.items := by
  have hinjectors : st'.injectors = st.injectors := funext fun s => h (.injector s)
  have hdeques : st'.deques = st.deques := funext fun w => h (.peer w)
  rw [items, items, hinjectors, hdeques]

/-- What has happened since a worker called `Queue::scan`. -/
structure CallLog (q : Shape) where
  /-- The passes of the outer loop so far, with the present one. -/
  passes : ℕ
  /-- The steps of the worker. -/
  steps : ℕ
  /-- The steps by which other threads have pushed or removed runnables. -/
  operations : ℕ
  /-- The queues whose contents other threads have changed since the last step of the worker. -/
  touched : Finset (Victim q)

namespace CallLog

/-- The log at the call. -/
def fresh : CallLog q := ⟨1, 0, 0, ∅⟩

/-- The log after a step of the worker itself. -/
def own (l : CallLog q) (pc pc' : Pc q R) : CallLog q :=
  if pc.sameCall pc' then
    { passes := if pc'.scan = some .own then l.passes + 1 else l.passes
      steps := l.steps + 1
      operations := l.operations
      touched := ∅ }
  else fresh

/-- The log after a step by which another thread has changed the contents of some queues. -/
def other (l : CallLog q) (changed : Finset (Victim q)) : CallLog q :=
  { l with
    operations := if changed = ∅ then l.operations else l.operations + 1
    touched := l.touched ∪ changed }

/-- What a call in progress keeps: every pass but the present one is charged to an operation of
another thread, the present one too if it must be walked again, and the steps are those of the
passes. -/
structure Fits (l : CallLog q) (s : Scan q) : Prop where
  slotted : s.Slotted
  passes : l.passes ≤ l.operations + 1
  charged : s.contended = true ∨ l.touched.Nonempty → l.passes ≤ l.operations
  steps : l.steps + s.budget ≤ l.passes * q.passSteps

end CallLog

section Watched

variable [DecidableEq R]

/-- The queues whose contents a step has changed. -/
def Store.changed (st st' : Store q R) : Finset (Victim q) :=
  Finset.univ.filter fun v => st'.queue v ≠ st.queue v

lemma Store.changed_eq_empty {st st' : Store q R} :
    st.changed st' = ∅ ↔ ∀ v, st'.queue v = st.queue v := by
  simp [changed, Finset.filter_eq_empty_iff]

variable [DecidableEq P]

/-- The logs after a step. -/
def noteCalls (l : q.Worker → CallLog q) (s : State q P R) (a : Thread q P × Choice q P R)
    (s' : State q P R) : q.Worker → CallLog q := fun w =>
  if a.1 = .inl w then (l w).own (s.pc (.inl w)) (s'.pc (.inl w))
  else (l w).other (s.mem.store.changed s'.mem.store)

/-- The queue with a log of the calls of every worker. -/
def watched (q : Shape) (P R : Type) [DecidableEq P] [DecidableEq R] :
    System (State q P R × (q.Worker → CallLog q)) (Thread q P × Choice q P R) :=
  (machine q P R).record (fun _ => .fresh) noteCalls

/-- The logs add no behaviour to the queue. -/
theorem reachable_of_watched {ok : State q P R × (q.Worker → CallLog q) →
    Thread q P × Choice q P R → Prop} {x : State q P R × (q.Worker → CallLog q)}
    (h : (watched q P R).Reach ok x) : (machine q P R).Reachable x.1 := h.of_record

/-- A steal reports `Retry` only if, since it began, another thread has changed the contents of
its victim: it has removed a runnable, or pushed one. -/
def RetriesJustified (x : State q P R × (q.Worker → CallLog q))
    (a : Thread q P × Choice q P R) : Prop :=
  a.2.report = some .retry → ∀ w, a.1 = .inl w → ∀ v ∈ (x.1.pc (.inl w)).stealing,
    v ∈ (x.2 w).touched

instance (x : State q P R × (q.Worker → CallLog q)) (a : Thread q P × Choice q P R) :
    Decidable (RetriesJustified x a) :=
  inferInstanceAs (Decidable (a.2.report = some .retry → ∀ w, a.1 = .inl w →
    ∀ v ∈ (x.1.pc (.inl w)).stealing, v ∈ (x.2 w).touched))

end Watched

namespace CallLog.Fits

variable {l : CallLog q} {s s' : Scan q}

/-- A call begins with a log that fits. -/
lemma fresh : Fits (q := q) .fresh .own where
  slotted := trivial
  passes := le_rfl
  charged := by
    rintro (h | h)
    · cases h
    · exact absurd h Finset.not_nonempty_empty
  steps := by simp only [CallLog.fresh, Scan.budget]; omega

/-- Other threads leave a log that fits: an operation of theirs that changes a queue pays for one
more pass. -/
lemma other (h : l.Fits s) (changed : Finset (Victim q)) : (l.other changed).Fits s where
  slotted := h.slotted
  passes := by
    have hpasses := h.passes
    simp only [CallLog.other]
    split <;> omega
  charged := by
    intro hcharged
    by_cases hchanged : changed = ∅
    · subst hchanged
      rw [CallLog.other, Finset.union_empty] at hcharged
      simpa only [CallLog.other, if_true] using h.charged hcharged
    · simpa only [CallLog.other, if_neg hchanged] using h.passes
  steps := h.steps

/-- **Step lemma.**  A scan that goes on leaves a log that fits: a further pass was paid for, and
otherwise the step uses up some of the present one. -/
lemma own {pc pc' : Pc q R} {o : Steal} (h : l.Fits s) (hp : s.Proceeds o s')
    (hs' : pc'.scan = some s') (hcall : pc.sameCall pc' = true)
    (hretry : s.Retried o → l.touched.Nonempty) : (l.own pc pc').Fits s' := by
  obtain ⟨hslot, ⟨rfl, hpaid⟩ | ⟨hown, hless, hmore⟩⟩ := hp
  · have hcharged : l.passes ≤ l.operations := h.charged (hpaid.imp_right hretry)
    have hsteps := h.steps
    have hpos := s.budget_pos
    simp only [CallLog.own, hcall, hs', if_true]
    refine ⟨hslot, Nat.succ_le_succ hcharged, ?_, ?_⟩
    · rintro (hc | hn)
      · cases hc
      · exact absurd hn Finset.not_nonempty_empty
    · simp only [Scan.budget, Nat.add_mul, Nat.one_mul]
      omega
  · have hne : ¬ pc'.scan = some .own := fun heq => hown (Option.some.inj (hs'.symm.trans heq))
    have hsteps := h.steps
    simp only [CallLog.own, hcall, if_true, if_neg hne]
    refine ⟨hslot, h.passes, ?_, ?_⟩
    · rintro (hc | hn)
      · exact h.charged ((hmore hc).imp_right hretry)
      · exact absurd hn Finset.not_nonempty_empty
    · dsimp only
      omega

end CallLog.Fits

/-! ## Every call is finite -/

section Termination

variable [DecidableEq P] [DecidableEq R]
  {x x' : State q P R × (q.Worker → CallLog q)} {a : Thread q P × Choice q P R}

/-- The log of every call in progress fits. -/
def Logs (x : State q P R × (q.Worker → CallLog q)) : Prop :=
  ∀ w s, (x.1.pc (.inl w)).scan = some s → (x.2 w).Fits s

/-- The operations of other threads are paid for by the runnables pushed: a removal by the one it
takes out, a push by the one it brings. -/
def Paid (x : State q P R × (q.Worker → CallLog q)) : Prop :=
  ∀ w, (x.2 w).operations + x.1.mem.store.items.card ≤ 2 * x.1.mem.pushed.length

omit [DecidableEq P] [DecidableEq R] in
/-- A justified `Retry` was preceded by a change of its victim. -/
lemma touched_of_retried {pc : Pc q R} {s : Scan q} {o : Steal} {touched : Finset (Victim q)}
    (hs : pc.scan = some s) (hok : o = .retry → ∀ v ∈ pc.stealing, v ∈ touched)
    (h : s.Retried o) : touched.Nonempty := by
  obtain ⟨p, rfl, ha, ho⟩ := h
  exact ⟨p.victim, hok ho p.victim (Pc.stealing_of_scan hs ha)⟩

/-- **Step lemma** for the logs of the calls in progress. -/
theorem Logs.step (h : Logs x) (hok : RetriesJustified x a)
    (hstep : (watched q P R).step x a = some x') : Logs x' := by
  obtain ⟨hstep, hlog⟩ := record_step.mp hstep
  obtain ⟨⟨m, pc⟩, hmove, hstate⟩ := Option.map_eq_some_iff.mp hstep
  dsimp only at hstate
  intro w s' hs'
  rw [hlog, noteCalls, ← hstate]
  rw [← hstate] at hs'
  by_cases ha : a.1 = .inl w
  · rw [if_pos ha]
    rw [ha] at hmove
    simp only [ha, Function.update_self] at hs' ⊢
    by_cases hcall : (x.1.pc (.inl w)).sameCall pc = true
    · obtain ⟨s, hs⟩ := (Pc.exists_scan_of_sameCall hcall).1
      obtain ⟨o, st, res, ho, hscan, hmore⟩ := move_scan hs hmove
      rw [hmore s' hcall hs'] at hscan
      refine (h w s hs).own (scanMove_proceeds hscan (h w s hs).slotted) hs' hcall ?_
      refine touched_of_retried hs fun hretry => hok ?_ w ha
      rw [ho, hretry]
    · rw [Bool.not_eq_true] at hcall
      rw [(Move.of_move hmove).scan_eq_own hs' hcall, CallLog.own, hcall]
      exact .fresh
  · rw [if_neg ha]
    dsimp only at hs'
    rw [Function.update_of_ne (Ne.symm ha)] at hs'
    exact (h w s' hs').other _

/-- **Step lemma** for the price of the operations. -/
theorem Paid.step (h : Paid x) (hstep : (watched q P R).step x a = some x') : Paid x' := by
  obtain ⟨hstep, hlog⟩ := record_step.mp hstep
  obtain ⟨⟨m, pc⟩, hmove, hstate⟩ := Option.map_eq_some_iff.mp hstep
  dsimp only at hstate
  intro w
  have hold := h w
  -- the operations go up by one at most, and only with the contents of some queue
  have hops : (x'.2 w).operations ≤ (x.2 w).operations + 1 ∧
      (x.1.mem.store.changed m.store = ∅ → (x'.2 w).operations ≤ (x.2 w).operations) := by
    rw [hlog, noteCalls, ← hstate]
    split
    · simp only [CallLog.own]
      split <;> simp [CallLog.fresh]
    · simp only [CallLog.other]
      split <;> simp_all
  rw [← hstate]
  dsimp only
  cases (Move.of_move hmove).effect with
  | none hqueue hpushed =>
    have hkept := hops.2 (Store.changed_eq_empty.mpr hqueue)
    rw [hpushed, Store.items_congr hqueue]
    omega
  | push r hpushed hitems =>
    have hmost := hops.1
    rw [hpushed, hitems, Multiset.card_add, Multiset.card_singleton, List.length_append,
      List.length_singleton]
    omega
  | removal hrs hpushed hitems =>
    have hmost := hops.1
    have htaken := Multiset.card_pos.mpr hrs
    rw [← hitems, Multiset.card_add] at hold
    rw [hpushed]
    omega

/-- **Run lemma.** -/
theorem logs_of_reach (h : (watched q P R).Reach RetriesJustified x) : Logs x ∧ Paid x := by
  refine h.invariant (I := fun x => Logs x ∧ Paid x) ?_ ?_
  · rintro ⟨s, l⟩ ⟨hs, hl⟩
    obtain rfl : s = State.start q P R := hs
    obtain rfl : l = fun _ => .fresh := hl
    refine ⟨fun w s hs => ?_, fun w => ?_⟩
    · cases hs
    · have hitems : (State.start q P R).mem.store.items = 0 := by
        simp [State.start, Store.items, tally]
      rw [hitems]
      exact Nat.zero_le _
  · rintro y b y' - ⟨hlogs, hpaid⟩ hok hstep
    exact ⟨hlogs.step hok hstep, hpaid.step hstep⟩

/-- A call in progress has made fewer steps than the passes that all runnables pushed so far can
pay for. -/
lemma steps_lt_of_reach (h : (watched q P R).Reach RetriesJustified x) {w : q.Worker}
    (hscan : (x.1.pc (.inl w)).scan.isSome) :
    (x.2 w).steps < (2 * x.1.mem.pushed.length + 1) * q.passSteps := by
  obtain ⟨hlogs, hpaid⟩ := logs_of_reach h
  obtain ⟨s, hs⟩ := Option.isSome_iff_exists.mp hscan
  have hfits := hlogs w s hs
  have hpasses : (x.2 w).passes ≤ 2 * x.1.mem.pushed.length + 1 := by
    have hoperations := hpaid w
    have hcharged := hfits.passes
    omega
  calc (x.2 w).steps < (x.2 w).steps + s.budget := Nat.lt_add_of_pos_right s.budget_pos
    _ ≤ (x.2 w).passes * q.passSteps := hfits.steps
    _ ≤ (2 * x.1.mem.pushed.length + 1) * q.passSteps := Nat.mul_le_mul_right _ hpasses

/-- A call in progress stays in progress through the steps of others. -/
lemma log_of_other {w : q.Worker} (ha : a.1 ≠ .inl w)
    (hstep : (watched q P R).step x a = some x') :
    x'.1.pc (.inl w) = x.1.pc (.inl w) ∧ (x'.2 w).steps = (x.2 w).steps := by
  obtain ⟨hstep, hlog⟩ := record_step.mp hstep
  obtain ⟨⟨m, pc⟩, hmove, hstate⟩ := Option.map_eq_some_iff.mp hstep
  refine ⟨?_, ?_⟩
  · rw [← hstate]
    exact Function.update_of_ne (Ne.symm ha) _ _
  · rw [hlog, noteCalls, if_neg ha, CallLog.other]

/-- A step of the worker inside its call is counted. -/
lemma log_of_own {w : q.Worker} (ha : a.1 = .inl w)
    (hstep : (watched q P R).step x a = some x')
    (hcall : (x.1.pc (.inl w)).sameCall (x'.1.pc (.inl w)) = true) :
    (x'.1.pc (.inl w)).scan.isSome ∧ (x'.2 w).steps = (x.2 w).steps + 1 := by
  obtain ⟨-, hlog⟩ := record_step.mp hstep
  obtain ⟨s', hs'⟩ := (Pc.exists_scan_of_sameCall hcall).2
  refine ⟨Option.isSome_iff_exists.mpr ⟨s', hs'⟩, ?_⟩
  rw [hlog, noteCalls, if_pos ha, CallLog.own, if_pos hcall]

/-- **The retry loop of a scan terminates.**  Suppose that steals report `Retry` only after
another thread has changed the contents of their victim.  In every state of a run in which a
worker is inside a call of `Queue::scan`, cheap or armed:
* the passes of its outer loop are at most one more than the pushes and removals of other threads
  since the call;
* the steps of the call are bounded by the number of runnables pushed;
* the worker can take its next step, whoever holds or waits for `park`;
* and on every continuation on which finitely many runnables are pushed the call ends, provided
  that the worker is scheduled while it scans. -/
theorem scan_terminates (h : (watched q P R).Reach RetriesJustified x) {w : q.Worker}
    (hscan : (x.1.pc (.inl w)).scan.isSome) :
    (x.2 w).passes ≤ 1 + (x.2 w).operations ∧
      (x.2 w).steps < (2 * x.1.mem.pushed.length + 1) * q.passSteps ∧
      (∃ c x', RetriesJustified x (.inl w, c) ∧ (watched q P R).step x (.inl w, c) = some x') ∧
      ∀ r : Run (watched q P R) RetriesJustified x,
        (∃ N, ∀ n, (r.state n).1.mem.pushed.length ≤ N) →
        (∀ n, ((r.state n).1.pc (.inl w)).scan.isSome → ∃ m ≥ n, (r.action m).1 = .inl w) →
        ∃ n, (r.action n).1 = .inl w ∧
          ((r.state n).1.pc (.inl w)).sameCall ((r.state (n + 1)).1.pc (.inl w)) = false := by
  obtain ⟨s, hs⟩ := Option.isSome_iff_exists.mp hscan
  have hfits := (logs_of_reach h).1 w s hs
  refine ⟨?_, steps_lt_of_reach h hscan, ?_, ?_⟩
  · rw [Nat.add_comm]
    exact hfits.passes
  · obtain ⟨o, ⟨m, pc⟩, ho, hmove⟩ := exists_move_of_scan (w := w) x.1.mem hs hfits.slotted
    have hstep : x.1.step (.inl w, .steal o) = some ⟨m, Function.update x.1.pc (.inl w) pc⟩ :=
      Option.map_eq_some_iff.mpr ⟨(m, pc), hmove, rfl⟩
    refine ⟨.steal o, _, ?_, record_of_step hstep⟩
    intro hretry
    exact absurd (Option.some.inj hretry) ho
  · rintro r ⟨N, hN⟩ hacts
    refine r.exists_exit (fun y => (y.1.pc (.inl w)).scan.isSome) (fun b => b.1 = .inl w)
      (fun y z => (y.1.pc (.inl w)).sameCall (z.1.pc (.inl w)) = false)
      (fun y => (y.2 w).steps) ((2 * N + 1) * q.passSteps) ?_ ?_ ?_ hacts hscan
    · intro n hinside hother
      obtain ⟨hpc, hsteps⟩ := log_of_other hother (r.step n)
      exact ⟨by rw [hpc]; exact hinside, hsteps.ge⟩
    · intro n _ hmine hstay
      obtain ⟨hinside, hsteps⟩ := log_of_own hmine (r.step n) (Bool.not_eq_false _ ▸ hstay)
      exact ⟨hinside, by omega⟩
    · intro n hinside
      have hlt := steps_lt_of_reach (h.leads (r.leads n)) hinside
      have hpushed : 2 * (r.state n).1.mem.pushed.length + 1 ≤ 2 * N + 1 := by
        have hle := hN n
        omega
      exact le_trans hlt.le (Nat.mul_le_mul_right _ hpushed)

end Termination

/-! ## A contended sweep -/

/-- Worker 0 arms and is about to steal from the injector; a runnable is pushed there, and its
producer waits for `park`; worker 1 takes the runnable; worker 0 reports `Retry`, finds nothing at
worker 1 either and walks again. -/
def contendedRun : List (Thread duo Unit × Choice duo Unit ℕ) :=
  goes (duo.worker 0 Nat.two_pos) 25 ++ [(.inr (), .spawn 7 0 none)] ++ goes (.inr ()) 2 ++
    goes (duo.worker 1 Nat.one_lt_two) 3 ++ [(duo.worker 1 Nat.one_lt_two, .steal (.batch 1))] ++
    [(duo.worker 0 Nat.two_pos, .steal .retry)] ++ goes (duo.worker 0 Nat.two_pos) 2

/-- The second pass of the sweep is about to begin. -/
def contended : State duo Unit ℕ × (duo.Worker → CallLog duo) :=
  (watched duo Unit ℕ).final (.start duo Unit ℕ, fun _ => .fresh) contendedRun (by decide +kernel)

/-- The sweep is in its second pass there, two operations of others have been made since it began,
`park` is held and the producer blocked, and the sweep goes on and ends. -/
theorem scan_terminates_contended :
    (contended.2 ⟨0, Nat.two_pos⟩).passes = 2 ∧ (contended.2 ⟨0, Nat.two_pos⟩).operations = 2 ∧
      contended.1.mem.park = true ∧ contended.1.step (.inr (), .go) = none ∧
      (∃ c x', RetriesJustified contended (duo.worker 0 Nat.two_pos, c) ∧
        (watched duo Unit ℕ).step contended (duo.worker 0 Nat.two_pos, c) = some x') ∧
      ∀ r : Run (watched duo Unit ℕ) RetriesJustified contended,
        (∃ N, ∀ n, (r.state n).1.mem.pushed.length ≤ N) →
        (∀ n, ((r.state n).1.pc (duo.worker 0 Nat.two_pos)).scan.isSome →
          ∃ m ≥ n, (r.action m).1 = duo.worker 0 Nat.two_pos) →
        ∃ n, (r.action n).1 = duo.worker 0 Nat.two_pos ∧
          ((r.state n).1.pc (duo.worker 0 Nat.two_pos)).sameCall
            ((r.state (n + 1)).1.pc (duo.worker 0 Nat.two_pos)) = false := by
  have hinit : (watched duo Unit ℕ).init (.start duo Unit ℕ, fun _ => .fresh) := ⟨rfl, rfl⟩
  have hreach : (watched duo Unit ℕ).Reach RetriesJustified contended :=
    .final hinit (by decide +kernel) _
  have hscan : (contended.1.pc (duo.worker 0 Nat.two_pos)).scan.isSome := by decide +kernel
  have hblocked : (contended.1.step (.inr (), .go)).isNone := by decide +kernel
  obtain ⟨-, -, hnext, hends⟩ := scan_terminates hreach hscan
  exact ⟨by decide +kernel, by decide +kernel, by decide +kernel,
    Option.isNone_iff_eq_none.mp hblocked, hnext, hends⟩

end AffinityPool
