import AffinityPool.Queue.Machine
import AffinityPool.Queue.Sweep

/-!
# What an empty strict scan has seen

`ScanRun` is one call of `Queue::scan`: the steps of the scanning worker, with any number of
steps of the other threads before each of them.  Of the other threads it only says that they
leave the worker's random stream alone and that they take from the front of its deque, if
anything (`Store.Disturbs`; `Move.disturbs` shows it of the threads of the queue).

The log of a run has the victims visited by the current pass, in order, and the storage at
each of its steps.  The invariant is that the visited victims and those still to visit are
the strict order of the pass (`Shape.order`), a list without repetition of all queues, and
that in a pass without contention every victim but the present one was seen without a
runnable (`Logged`).  A call that returns `None` has come to the end of that list
(`empty_scan`).  The armed scans of the queue are such calls (`Scanned`).
-/

namespace AffinityPool

open Transition System

variable {q : Shape} {P R : Type}

/-! ## One call of `Queue::scan` -/

/-- What other threads may do to the storage while worker `i` scans. -/
structure Store.Disturbs (i : q.Worker) (st st' : Store q R) : Prop where
  rng : st'.rng i = st.rng i
  deque : st'.deques i <:+ st.deques i

/-- What the current pass of a scan has visited, and the storage at each of its steps. -/
structure PassLog (q : Shape) (R : Type) where
  visits : List (Victim q)
  instants : List (Store q R)

/-- Some instant of the pass found this queue without a runnable. -/
def PassLog.Seen (log : PassLog q R) (v : Victim q) : Prop := ∃ st ∈ log.instants, st.Blank v

/-- The log after a step.  A pass begins with the worker's own deque; a visit begins with the
first access to a victim. -/
def PassLog.note (log : PassLog q R) (i : q.Worker) (b : Probe) (st : Store q R) :
    Scan q → PassLog q R
  | .own => ⟨[.peer i], [st]⟩
  | .visit p =>
    ⟨if p.access = b.firstAccess p.victim then log.visits ++ [p.victim] else log.visits,
      log.instants ++ [st]⟩

/-- A call of `Queue::scan` by worker `i`, up to the given storage and result. -/
inductive ScanRun (i : q.Worker) (b : Probe) : PassLog q R → Store q R → ScanResult q R → Prop
  /-- The call begins. -/
  | start (st : Store q R) : ScanRun i b ⟨[], []⟩ st (.more .own)
  /-- Another thread takes a step. -/
  | disturb {log : PassLog q R} {st st' : Store q R} {s : Scan q}
    (h : ScanRun i b log st (.more s)) (hd : st.Disturbs i st') : ScanRun i b log st' (.more s)
  /-- The worker takes a step. -/
  | step {log : PassLog q R} {st st' : Store q R} {s : Scan q} {o : Steal} {res : ScanResult q R}
    (h : ScanRun i b log st (.more s)) (hs : scanMove st i b o s = some (st', res)) :
    ScanRun i b (log.note i b st s) st' res

/-! ## The order of a pass -/

/-- All queues, in the order a strict pass of worker `i` visits them, given its two random
numbers. -/
def Shape.order (q : Shape) (i : q.Worker) (x y : UInt32) : List (Victim q) :=
  [.peer i, .injector (q.myShard i)] ++ (q.otherShards i .strict x).map Victim.injector ++
    (q.peers i .strict y).map Victim.peer

/-- The order leaves no queue out. -/
lemma Shape.mem_order (i : q.Worker) (x y : UInt32) (v : Victim q) : v ∈ q.order i x y := by
  simp only [order, List.mem_append, List.mem_cons, List.not_mem_nil, or_false, List.mem_map]
  cases v with
  | injector s =>
    by_cases hs : s = q.myShard i
    · exact Or.inl (Or.inl (Or.inr (congrArg Victim.injector hs)))
    · exact Or.inl (Or.inr ⟨s, mem_otherShards_strict i x hs, rfl⟩)
  | peer w =>
    by_cases hw : w = i
    · exact Or.inl (Or.inl (Or.inl (congrArg Victim.peer hw)))
    · exact Or.inr ⟨w, mem_peers_strict i y hw, rfl⟩

/-- The order has no queue twice. -/
lemma Shape.order_nodup (i : q.Worker) (x y : UInt32) : (q.order i x y).Nodup := by
  have hshards : ((q.otherShards i .strict x).map Victim.injector).Nodup :=
    (q.otherShards_nodup i .strict x).map fun _ _ h => Victim.injector.inj h
  have hpeers : ((q.peers i .strict y).map Victim.peer).Nodup :=
    (q.peers_nodup i .strict y).map fun _ _ h => Victim.peer.inj h
  have hfirst : ([.peer i, .injector (q.myShard i)] : List (Victim q)).Nodup := by simp
  unfold order
  apply List.Nodup.append
  · apply List.Nodup.append hfirst hshards
    intro v hv hv'
    obtain ⟨s, hs, rfl⟩ := List.mem_map.mp hv'
    have hpref : s = q.myShard i := by simpa using hv
    exact ne_of_mem_otherShards hs hpref
  · exact hpeers
  · intro v hv hv'
    obtain ⟨w, hw, rfl⟩ := List.mem_map.mp hv'
    have hown : w = i := by simpa using hv
    exact ne_of_mem_peers hw hown

/-! ## The invariant -/

/-- The victims whose visit has not begun. -/
def Pass.todo (p : Pass q) : List (Victim q) :=
  if p.access = Probe.strict.firstAccess p.victim then p.ahead else p.rest

/-- The list of victims is what the order of the pass begins with, up to the end of a phase. -/
def Phase.Listed (i : q.Worker) (vs : List (Victim q)) : Phase → Prop
  | .preferred => vs = [.peer i, .injector (q.myShard i)]
  | .injectors => ∃ x, vs = [.peer i, .injector (q.myShard i)] ++
      (q.otherShards i .strict x).map Victim.injector
  | .peers => ∃ x y, vs = q.order i x y

/-- What the log of a strict pass knows while the pass visits a victim. -/
structure Logged (i : q.Worker) (log : PassLog q R) (st : Store q R) (p : Pass q) : Prop where
  own : st.deques i = []
  first : ∃ st₀ ∈ log.instants, st₀.deques i = []
  access : p.access = Probe.strict.firstAccess p.victim ∨ p.access = .steal
  listed : p.phase.Listed i (log.visits ++ p.todo)
  seen : p.contended = false → ∀ v ∈ log.visits, v = p.victim ∨ log.Seen v

/-- What the log knows of a finished strict scan. -/
structure Finished (i : q.Worker) (log : PassLog q R) (st : Store q R) : Prop where
  own : st.deques i = []
  first : ∃ st₀ ∈ log.instants, st₀.deques i = []
  listed : ∃ x y, log.visits = q.order i x y
  seen : ∀ v ∈ log.visits, log.Seen v

/-- What the log knows after a step of a strict scan. -/
def Knows (i : q.Worker) (log : PassLog q R) (st : Store q R) : ScanResult q R → Prop
  | .more .own => True
  | .more (.visit p) => Logged i log st p
  | .found _ => True
  | .empty => Finished i log st

/-- The log between two visits, when the victims left in this phase are `rest`. -/
structure Between (i : q.Worker) (log : PassLog q R) (st : Store q R) (contended : Bool) :
    Prop where
  own : st.deques i = []
  first : ∃ st₀ ∈ log.instants, st₀.deques i = []
  seen : contended = false → ∀ v ∈ log.visits, log.Seen v

section Walk

variable {i : q.Worker} {log : PassLog q R} {st : Store q R} {contended : Bool}

/-- The next visit begins. -/
lemma Between.visit {p : Pass q} (h : Between i log st p.contended)
    (ha : p.access = Probe.strict.firstAccess p.victim)
    (hl : p.phase.Listed i (log.visits ++ p.ahead)) : Logged i log st p := by
  refine ⟨h.own, h.first, Or.inl ha, ?_, fun hc v hv => Or.inr (h.seen hc v hv)⟩
  rw [Pass.todo, if_pos ha]
  exact hl

/-- The pass ends. -/
lemma Between.finish (h : Between i log st contended) (hl : ∃ x y, log.visits = q.order i x y) :
    Knows i log st (finishPass contended : ScanResult q R) := by
  cases contended with
  | true => trivial
  | false => exact ⟨h.own, h.first, hl, h.seen rfl⟩

/-- The walk over the other workers begins, or there are none. -/
lemma Between.enterPeers (h : Between i log st contended) (clear : List (Victim q)) (rng : UInt32)
    (hl : Phase.injectors.Listed i log.visits) :
    Knows i log st (enterPeers i .strict contended clear rng : ScanResult q R × UInt32).1 := by
  obtain ⟨x, hx⟩ := hl
  unfold AffinityPool.enterPeers
  split
  · dsimp only
    split
    · rename_i v rest hpeers
      refine Between.visit h rfl ⟨x, nextRand rng, ?_⟩
      rw [hx, Pass.ahead, ← hpeers, Shape.order]
    · rename_i hpeers
      refine h.finish ⟨x, nextRand rng, ?_⟩
      rw [hx, Shape.order, hpeers, List.append_nil]
  · rename_i hone
    refine h.finish ⟨x, rng, ?_⟩
    have hnone : q.peers i .strict rng = [] := by
      apply List.eq_nil_iff_forall_not_mem.mpr
      intro w hw
      exact Shape.ne_of_mem_peers hw (Fin.ext (by omega))
    rw [hx, Shape.order, hnone, List.map_nil, List.append_nil]

/-- The walk over the other injectors begins, or there are none. -/
lemma Between.enterInjectors (h : Between i log st contended) (clear : List (Victim q))
    (rng : UInt32) (hl : Phase.preferred.Listed i log.visits) :
    Knows i log st (enterInjectors i .strict contended clear rng : ScanResult q R × UInt32).1 := by
  have hl' : log.visits = [.peer i, .injector (q.myShard i)] := hl
  unfold AffinityPool.enterInjectors
  split
  · dsimp only
    split
    · rename_i v rest hshards
      refine Between.visit h rfl ⟨nextRand rng, ?_⟩
      rw [hl', Pass.ahead, ← hshards]
    · rename_i hshards
      refine h.enterPeers clear _ ⟨nextRand rng, ?_⟩
      rw [hl', hshards, List.append_nil]
  · rename_i hone
    refine h.enterPeers clear rng ⟨rng, ?_⟩
    have hnone : q.otherShards i .strict rng = [] := by
      apply List.eq_nil_iff_forall_not_mem.mpr
      intro s hs
      exact Shape.ne_of_mem_otherShards hs (Fin.ext (by omega))
    rw [hl', hnone, List.map_nil, List.append_nil]

/-- The scan goes on from a visited victim. -/
lemma Between.next {p : Pass q} (h : Between i log st p.contended) (rng : UInt32)
    (hl : p.phase.Listed i (log.visits ++ p.rest)) :
    Knows i log st (p.next i .strict rng : ScanResult q R × UInt32).1 := by
  unfold Pass.next
  split
  · rename_i v rest hrest
    rw [hrest] at hl
    exact Between.visit h rfl hl
  · rename_i hrest
    rw [hrest, List.append_nil] at hl
    split
    · rename_i hphase
      rw [hphase] at hl
      exact h.enterInjectors p.clear rng hl
    · rename_i hphase
      rw [hphase] at hl
      exact h.enterPeers p.clear rng hl
    · rename_i hphase
      rw [hphase] at hl
      exact h.finish hl

end Walk

/-! ## The steps of a strict scan -/

section Steps

variable {i : q.Worker} {o : Steal} {log : PassLog q R} {st st' : Store q R} {p : Pass q}
  {res : ScanResult q R}

/-- The steps of a steal attempt: find no runnable, find the victim contended, or take a
batch. -/
lemma scanMove_steal (ha : p.access = .steal)
    (h : scanMove st i .strict o (.visit p) = some (st', res)) :
    (st.Blank p.victim ∧ st' = (st.advance i .strict p.miss).1 ∧
        res = (st.advance i .strict p.miss).2) ∨
      (st' = (st.advance i .strict p.retry).1 ∧ res = (st.advance i .strict p.retry).2) ∨
      ∃ r, res = .found r := by
  cases o with
  | batch n =>
    simp only [scanMove, ha, Option.map_eq_some_iff, Prod.mk.injEq] at h
    obtain ⟨⟨r, st₁⟩, -, -, rfl⟩ := h
    exact Or.inr (Or.inr ⟨r, rfl⟩)
  | empty =>
    by_cases he : (st.queue p.victim).isEmpty
    · simp only [scanMove, ha, he, if_true, Option.some.injEq] at h
      exact Or.inl ⟨Or.inl (List.isEmpty_iff.mp he), (congrArg Prod.fst h).symm,
        (congrArg Prod.snd h).symm⟩
    · simp [scanMove, ha, he] at h
  | retry =>
    simp only [scanMove, ha, Option.some.injEq] at h
    exact Or.inr (Or.inl ⟨(congrArg Prod.fst h).symm, (congrArg Prod.snd h).symm⟩)

/-- The steps of a strict visit: load the slot of a worker, find no runnable, find the victim
contended, or take a batch. -/
lemma scanMove_visit (ha : p.access = Probe.strict.firstAccess p.victim ∨ p.access = .steal)
    (h : scanMove st i .strict o (.visit p) = some (st', res)) :
    (p.access = Probe.strict.firstAccess p.victim ∧ p.access ≠ .steal ∧ st' = st ∧
        res = .more (.visit { p with access := .steal })) ∨
      (st.Blank p.victim ∧ st' = (st.advance i .strict p.miss).1 ∧
        res = (st.advance i .strict p.miss).2) ∨
      (st' = (st.advance i .strict p.retry).1 ∧ res = (st.advance i .strict p.retry).2) ∨
      ∃ r, res = .found r := by
  have hsteal : p.access = .steal → _ := fun hs => scanMove_steal hs h
  cases hv : p.victim with
  | injector s =>
    rw [hv] at ha hsteal
    exact Or.inr (hsteal (ha.elim id id))
  | peer w =>
    rw [hv] at ha hsteal
    rcases ha with ha | ha
    · have hslot : p.access = .slot := ha
      cases hw : st.stealers w with
      | true =>
        simp only [scanMove, hslot, hv, hw, if_true, Option.some.injEq, Prod.mk.injEq] at h
        obtain ⟨rfl, rfl⟩ := h
        refine Or.inl ⟨ha, ?_, rfl, ?_⟩
        · rw [hslot]
          intro heq
          cases heq
        · rw [← hv]
          rfl
      | false =>
        simp only [scanMove, hslot, hv, hw, Bool.false_eq_true, if_false, Option.some.injEq] at h
        exact Or.inr (Or.inl ⟨Or.inr ⟨w, rfl, hw⟩, (congrArg Prod.fst h).symm,
          (congrArg Prod.snd h).symm⟩)
    · exact Or.inr (hsteal ha)

/-- A visited victim leaves the list of those to visit. -/
lemma PassLog.note_visits (log : PassLog q R) (i : q.Worker) (st : Store q R) (p : Pass q) :
    (log.note i .strict st (.visit p)).visits ++ p.rest = log.visits ++ p.todo := by
  simp only [PassLog.note, Pass.todo]
  split
  · exact List.append_assoc _ _ _
  · rfl

/-- The visits after a step are those before and the present one. -/
lemma PassLog.mem_note_visits {v : Victim q}
    (hv : v ∈ (log.note i .strict st (.visit p)).visits) : v ∈ log.visits ∨ v = p.victim := by
  unfold PassLog.note at hv
  dsimp only at hv
  split at hv
  · simpa using hv
  · exact Or.inl hv

/-- What a log has seen it keeps. -/
lemma PassLog.Seen.note {v : Victim q} (h : log.Seen v) :
    (log.note i .strict st (.visit p)).Seen v := by
  obtain ⟨st₀, hmem, hblank⟩ := h
  exact ⟨st₀, List.mem_append_left _ hmem, hblank⟩

/-- A visit that ends, and either keeps the pass uncontended and its victim without a runnable
or makes the pass contended. -/
lemma Logged.leave (h : Logged i log st p) {p' : Pass q} (hphase : p'.phase = p.phase)
    (hrest : p'.rest = p.rest) (hend : p'.contended = true ∨
      p'.contended = p.contended ∧ st.Blank p.victim) :
    Knows i (log.note i .strict st (.visit p)) (st.advance i .strict p').1
      (st.advance i .strict p').2 := by
  have hbetween : Between i (log.note i .strict st (.visit p)) (st.advance i .strict p').1
      p'.contended := by
    obtain ⟨st₀, hmem, hempty⟩ := h.first
    refine ⟨h.own, ⟨st₀, List.mem_append_left _ hmem, hempty⟩, fun hc v hv => ?_⟩
    rcases hend with hcontended | ⟨hsame, hblank⟩
    · rw [hcontended] at hc
      cases hc
    · have hnow : (log.note i .strict st (.visit p)).Seen p.victim :=
        ⟨st, List.mem_append_right _ (List.mem_singleton_self st), hblank⟩
      rcases PassLog.mem_note_visits hv with hv | rfl
      · rcases h.seen (hsame ▸ hc) v hv with rfl | hseen
        · exact hnow
        · exact hseen.note
      · exact hnow
  refine hbetween.next (st.rng i) ?_
  rw [hphase, hrest, PassLog.note_visits]
  exact h.listed

/-- **Step lemma.**  A step of a strict scan keeps what its log knows. -/
theorem Knows.step {s : Scan q} (h : Knows i log st (.more s))
    (hs : scanMove st i .strict o s = some (st', res)) :
    Knows i (log.note i .strict st s) st' res := by
  cases s with
  | own =>
    have hmove := ScanMove.of_scanMove hs
    cases hmove with
    | pop hd => trivial
    | start hd =>
      refine ⟨hd, ⟨st, List.mem_singleton_self st, hd⟩, Or.inl rfl, rfl, fun _ v hv => ?_⟩
      obtain rfl : v = .peer i := List.mem_singleton.mp hv
      exact Or.inr ⟨st, List.mem_singleton_self st, Or.inl hd⟩
  | visit p =>
    have hlogged : Logged i log st p := h
    rcases scanMove_visit hlogged.access hs with ⟨ha, hne, rfl, rfl⟩ | ⟨hblank, rfl, rfl⟩ |
      ⟨rfl, rfl⟩ | ⟨r, rfl⟩
    · obtain ⟨st₀, hmem, hempty⟩ := hlogged.first
      refine ⟨hlogged.own, ⟨st₀, List.mem_append_left _ hmem, hempty⟩, Or.inr rfl, ?_,
        fun hc v hv => ?_⟩
      · have htodo : Pass.todo { p with access := .steal } = p.rest :=
          if_neg fun heq => hne (ha.trans heq.symm)
        rw [htodo, PassLog.note_visits]
        exact hlogged.listed
      · rcases PassLog.mem_note_visits hv with hv | hv
        · exact (hlogged.seen hc v hv).imp_right PassLog.Seen.note
        · exact Or.inl hv
    · exact hlogged.leave rfl rfl (Or.inr ⟨rfl, hblank⟩)
    · exact hlogged.leave rfl rfl (Or.inl rfl)
    · trivial

/-- A step of another thread keeps what the log knows. -/
lemma Knows.disturb {s : Scan q} (h : Knows i log st (.more s)) (hd : st.Disturbs i st') :
    Knows i log st' (.more s) := by
  cases s with
  | own => trivial
  | visit p =>
    have hlogged : Logged i log st p := h
    refine ⟨?_, hlogged.first, hlogged.access, hlogged.listed, hlogged.seen⟩
    have hsuffix := hd.deque
    rw [hlogged.own] at hsuffix
    exact List.suffix_nil.mp hsuffix

/-- What the log of a strict scan knows. -/
theorem ScanRun.knows (h : ScanRun i .strict log st res) : Knows i log st res := by
  induction h with
  | start st => trivial
  | disturb h hd ih => exact ih.disturb hd
  | step h hs ih => exact ih.step hs

end Steps

/-! ## The armed scans of the queue -/

/-- A step of another worker's scan takes from the front of a deque, if anything. -/
lemma ScanMove.disturbs {u w : q.Worker} {b : Probe} {o : Steal} {st st' : Store q R} {s : Scan q}
    {res : ScanResult q R} (h : ScanMove u b o st s st' res) (hu : w ≠ u) : st.Disturbs w st' := by
  have hrng : ∀ (st : Store q R) v xs, (st.setQueue v xs).rng = st.rng := fun _ v _ => by
    cases v <;> rfl
  have hne : (Victim.peer w : Victim q) ≠ .peer u := fun heq => hu (Victim.peer.inj heq)
  have hdeque : ∀ (st : Store q R) xs, (st.setQueue (.peer u) xs).deques w = st.deques w :=
    fun st xs => st.queue_setQueue_of_ne hne xs
  cases h with
  | pop hd => exact ⟨by rw [hrng], by rw [hdeque]⟩
  | start hd => exact ⟨rfl, List.suffix_refl _⟩
  | access p a => exact ⟨rfl, List.suffix_refl _⟩
  | miss hblank => exact ⟨Function.update_of_ne hu _ _, List.suffix_refl _⟩
  | retry p => exact ⟨Function.update_of_ne hu _ _, List.suffix_refl _⟩
  | @batch p n r moved ho ha ht =>
    refine ⟨by rw [hrng, hrng], ?_⟩
    rw [hdeque]
    by_cases hv : Victim.peer w = p.victim
    · rw [← hv]
      have hself := st.queue_setQueue_self (.peer w) ((st.queue (.peer w)).drop n)
      rw [Store.queue_peer] at hself
      rw [hself]
      exact List.drop_suffix n _
    · have hother := st.queue_setQueue_of_ne hv ((st.queue p.victim).drop n)
      rw [Store.queue_peer, Store.queue_peer] at hother
      rw [hother]

section Machine

variable [DecidableEq P] {t : Thread q P} {c : Choice q P R} {m m' : Mem q P R} {pc pc' : Pc q R}

/-- What a step of the queue does to the storage leaves the random streams of other workers
alone, and takes from the front of their deques, if anything. -/
theorem Move.disturbs (hm : Move t c m pc m' pc') {w : q.Worker} (ht : t ≠ .inl w) :
    m.store.Disturbs w m'.store := by
  have hne : ∀ {u : q.Worker}, t = .inl u → w ≠ u := by
    rintro u hu rfl
    exact ht hu
  cases hm
  case spawn k x hash cell hc hx hown hfor =>
    cases t with
    | inl u =>
      have hinto : x.into = .peer u := hown u rfl
      have hpeer : (Victim.peer w : Victim q) ≠ x.into := by
        rw [hinto]
        exact fun heq => hne rfl (Victim.peer.inj heq)
      refine ⟨by rw [Store.insert, hinto]; rfl, ?_⟩
      have hother := m.store.queue_setQueue_of_ne hpeer (m.store.queue x.into ++ [x.item])
      rw [Store.queue_peer, Store.queue_peer] at hother
      rw [Store.insert, hother]
    | inr p =>
      obtain ⟨j, hj⟩ := hfor p rfl
      refine ⟨by rw [Store.insert, hj]; rfl, ?_⟩
      rw [Store.insert, hj]
      exact List.suffix_refl _
  case boot u hu =>
    refine ⟨Function.update_of_ne (hne hu) _ _, ?_⟩
    simp only [Store.register, Function.update_of_ne (hne hu)]
    exact List.suffix_refl _
  case cheapMore u o round sc sc' st hu ho h | cheapFound u o round sc st r hu ho h |
      cheapNext u o round sc st hu ho hr h | cheapLast u o round sc st hu ho hr h |
      sweepMore u o sc sc' st hu ho h | sweepFound u o sc st r hu ho h |
      sweepEmpty u o sc st hu ho h =>
    exact h.disturbs (hne hu)
  all_goals exact ⟨rfl, List.suffix_refl _⟩

/-- An armed scan begins when the worker is armed. -/
lemma Move.eq_sweep {sc : Scan q} (hm : Move t c m pc m' pc') (h : pc' = .sweep sc) :
    (sc = .own ∧ m'.store = m.store) ∨ ∃ sc', pc = .sweep sc' := by
  cases hm
  case arm =>
    cases h
    exact Or.inl ⟨rfl, rfl⟩
  case sweepMore => exact Or.inr ⟨_, rfl⟩
  all_goals cases h

/-- A step of an armed scan is a step of `Queue::scan`. -/
lemma move_sweep [DecidableEq R] {w : q.Worker} {sc : Scan q}
    (h : move (.inl w) m (.sweep sc) c = some (m', pc')) :
    ∃ o st res, scanMove m.store w .strict o sc = some (st, res) ∧
      (m', pc') = afterSweep m st res := by
  cases ho : c.report with
  | none => simp [move, ho] at h
  | some o =>
    simp only [move, ho, Option.map_eq_some_iff] at h
    obtain ⟨⟨st, res⟩, hscan, heq⟩ := h
    exact ⟨o, st, res, hscan, heq.symm⟩

variable [DecidableEq R] {s s' : State q P R}

/-- Every armed scan in progress is a scan in the sense above. -/
def Scanned (s : State q P R) : Prop :=
  ∀ w sc, s.pc (.inl w) = .sweep sc → ∃ log, ScanRun w .strict log s.mem.store (.more sc)

omit [DecidableEq P] [DecidableEq R] in
/-- A step of the armed scan of a worker whose scan is one in the sense above. -/
lemma Scanned.extend {w : q.Worker} {sc : Scan q} {o : Steal} {st : Store q R}
    {res : ScanResult q R} (h : Scanned s) (hpc : s.pc (.inl w) = .sweep sc)
    (hs : scanMove s.mem.store w .strict o sc = some (st, res)) :
    ∃ log, ScanRun w .strict log st res := by
  obtain ⟨log, hrun⟩ := h w sc hpc
  exact ⟨_, hrun.step hs⟩

/-- The armed scans of every run are scans in the sense above. -/
theorem Scanned.of_reachable (h : (machine q P R).Reachable s) : Scanned s := by
  refine h.invariant ?_ ?_
  · rintro _ rfl w sc hw
    cases hw
  · intro s a s' _ hi _ hstep w sc hw
    obtain ⟨⟨m, pc⟩, hmove, rfl⟩ := Option.map_eq_some_iff.mp hstep
    have hm := Move.of_move hmove
    rcases update_cases hw with ⟨ha, hpc⟩ | ⟨ha, hold⟩
    · rcases hm.eq_sweep hpc with ⟨rfl, hstore⟩ | ⟨sc', hold⟩
      · exact ⟨_, .start _⟩
      · rw [← ha] at hold
        rw [← ha, hold] at hmove
        obtain ⟨o, st, res, hscan, heq⟩ := move_sweep hmove
        obtain ⟨log, hrun⟩ := hi.extend hold hscan
        cases res with
        | more sc₁ =>
          cases heq
          cases hpc
          exact ⟨log, hrun⟩
        | found _ | empty =>
          cases heq
          cases hpc
    · obtain ⟨log, hrun⟩ := hi w sc hold
      exact ⟨log, hrun.disturb (hm.disturbs (Ne.symm ha))⟩

/-- A worker that goes on to read the shutdown flag has made an empty strict scan. -/
theorem scanRun_of_checkShutdown (h : (machine q P R).Reachable s) {w : q.Worker} {sc : Scan q}
    (hpc : s.pc (.inl w) = .sweep sc) (hstep : s.step (.inl w, c) = some s')
    (hpc' : s'.pc (.inl w) = .checkShutdown) :
    ∃ log, ScanRun w .strict log s'.mem.store .empty := by
  obtain ⟨⟨m, pc⟩, hmove, rfl⟩ := Option.map_eq_some_iff.mp hstep
  rw [hpc] at hmove
  simp only [Function.update_self] at hpc'
  obtain ⟨o, st, res, hscan, heq⟩ := move_sweep hmove
  obtain ⟨log, hrun⟩ := (Scanned.of_reachable h).extend hpc hscan
  cases res with
  | more _ | found _ =>
    cases heq
    cases hpc'
  | empty =>
    cases heq
    exact ⟨log, hrun⟩

end Machine

/-! ## The result -/

/-- **Meaning of an empty strict scan.**  If a strict scan returns `None`, its last pass has
visited every queue exactly once, its own deque, every injector and every other worker's deque;
each of them was without a runnable at some instant of the pass, and the own deque is empty
when the scan returns. -/
theorem empty_scan {i : q.Worker} {log : PassLog q R} {st : Store q R}
    (h : ScanRun i .strict log st .empty) :
    (∀ v, log.visits.count v = 1) ∧ (∀ v, log.Seen v) ∧
      (∃ st₀ ∈ log.instants, st₀.deques i = []) ∧ st.deques i = [] := by
  have hfinished : Finished i log st := h.knows
  obtain ⟨x, y, hlist⟩ := hfinished.listed
  have hmem : ∀ v, v ∈ log.visits := fun v => hlist ▸ Shape.mem_order i x y v
  have hnodup : log.visits.Nodup := hlist ▸ Shape.order_nodup i x y
  exact ⟨fun v => List.count_eq_one_of_mem hnodup (hmem v), fun v => hfinished.seen v (hmem v),
    hfinished.first, hfinished.own⟩

/-- Two workers.  The first one sweeps: in the first pass it finds the injector contended, and
in the second pass a runnable is pushed behind it. -/
def sweepRun : List (Thread duo Unit × Choice duo Unit ℕ) :=
  goes (duo.worker 1 Nat.one_lt_two) 1 ++ goes (duo.worker 0 Nat.two_pos) 32 ++
    [(duo.worker 0 Nat.two_pos, .steal .retry)] ++ goes (duo.worker 0 Nat.two_pos) 5 ++
    [(.inr (), .spawn 7 0 none)]

/-- The state before the last step of the sweep. -/
def sweeping : State duo Unit ℕ :=
  (machine duo Unit ℕ).final (.start duo Unit ℕ) sweepRun (by decide)

/-- The state after it. -/
def swept : State duo Unit ℕ :=
  (sweeping.step (duo.worker 0 Nat.two_pos, .go)).get (by decide)

/-- The sweep has returned `None` there. -/
theorem empty_scan_swept : ∃ log : PassLog duo ℕ,
    ScanRun ⟨0, by decide⟩ .strict log swept.mem.store .empty ∧
      swept.mem.store.injectors 0 = [7] ∧ (∀ v, log.visits.count v = 1) ∧ (∀ v, log.Seen v) ∧
        (∃ st₀ ∈ log.instants, st₀.deques ⟨0, by decide⟩ = []) ∧
          swept.mem.store.deques ⟨0, by decide⟩ = [] := by
  have hreach : (machine duo Unit ℕ).Reachable sweeping := .final rfl _
  have hpc : sweeping.pc (duo.worker 0 Nat.two_pos) = .sweep (.visit
      ⟨.peers, .peer ⟨1, by decide⟩, [], .steal, false, [.injector 0]⟩) := by decide
  have hstep : sweeping.step (duo.worker 0 Nat.two_pos, .go) = some swept :=
    (Option.some_get _).symm
  obtain ⟨log, hrun⟩ := scanRun_of_checkShutdown hreach hpc hstep (by decide)
  exact ⟨log, hrun, by decide, empty_scan hrun⟩

end AffinityPool
