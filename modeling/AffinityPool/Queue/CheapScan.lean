import AffinityPool.Queue.Storage

/-!
# The cheap scan agrees with the strict one

`Store.scan` is `Queue::scan` with nobody else around: no steal is contended, so one pass
decides, and it takes the first runnable it meets.  `ScanAlone` says the same of the steps of
a scan, and `scanAlone_scan` that the steps lead to what `Store.scan` computes.

A cheap scan skips an empty victim where a strict one fails to steal from it, which makes no
difference, and walks a prefix of the strict walks.  With at most `CHEAP_SCAN_VICTIMS` other
shards the walks over the shards are the same; so a runnable a cheap scan finds is the one a
strict scan finds, and the only queues a cheap scan overlooks are deques of workers outside
its walk (`cheap_scan_agrees`).
-/

namespace AffinityPool

variable {q : Shape} {R : Type}

/-! ## A scan with nobody else around -/

/-- One visit: skip an unregistered worker and, if the scan is cheap, an empty victim; else
steal.  A successful steal from `v` moves up to `moved v` runnables besides the one it
returns. -/
def Store.attempt (st : Store q R) (i : q.Worker) (b : Probe) (moved : Victim q → ℕ) :
    Victim q → Option (R × Store q R)
  | .injector s =>
    if b = .cheap ∧ (st.injectors s).isEmpty then none
    else st.stealBatch i (.injector s) (moved (.injector s) + 1)
  | .peer w =>
    if st.stealers w = false then none
    else if b = .cheap ∧ (st.deques w).isEmpty then none
    else st.stealBatch i (.peer w) (moved (.peer w) + 1)

/-- The random draw and the victims of the walk over the other injectors. -/
def Store.shardWalk (st : Store q R) (i : q.Worker) (b : Probe) : Store q R × List (Victim q) :=
  if 1 < q.mask + 1 then
    let rand := nextRand (st.rng i)
    (st.setRng i rand, (q.otherShards i b rand).map Victim.injector)
  else (st, [])

/-- The random draw and the victims of the walk over the other workers. -/
def Store.peerWalk (st : Store q R) (i : q.Worker) (b : Probe) : Store q R × List (Victim q) :=
  if 1 < q.numWorkers then
    let rand := nextRand (st.rng i)
    (st.setRng i rand, (q.peers i b rand).map Victim.peer)
  else (st, [])

/-- The fourth step of a scan: the other workers. -/
def Store.scanPeers (st : Store q R) (i : q.Worker) (b : Probe) (moved : Victim q → ℕ) :
    Store q R × Option R :=
  let walk := st.peerWalk i b
  match walk.2.findSome? (walk.1.attempt i b moved) with
  | some (r, st') => (st', some r)
  | none => (walk.1, none)

/-- The third step of a scan and what follows: the other injectors. -/
def Store.scanShards (st : Store q R) (i : q.Worker) (b : Probe) (moved : Victim q → ℕ) :
    Store q R × Option R :=
  let walk := st.shardWalk i b
  match walk.2.findSome? (walk.1.attempt i b moved) with
  | some (r, st') => (st', some r)
  | none => walk.1.scanPeers i b moved

/-- `Queue::scan` without concurrent activity: the own deque, the preferred injector, the other
injectors, the other workers. -/
def Store.scan (st : Store q R) (i : q.Worker) (b : Probe) (moved : Victim q → ℕ) :
    Store q R × Option R :=
  match st.deques i with
  | r :: rest => (st.setQueue (.peer i) rest, some r)
  | [] =>
    match st.attempt i b moved (.injector (q.myShard i)) with
    | some (r, st') => (st', some r)
    | none => st.scanShards i b moved

/-- The peers a scan that finds no injector filled probes. -/
def Store.probed (st : Store q R) (i : q.Worker) (b : Probe) : List (Victim q) :=
  ((st.shardWalk i b).1.peerWalk i b).2

/-! ## Cheap and strict visits -/

section Attempt

variable {st : Store q R} {i : q.Worker} {b : Probe} {moved : Victim q → ℕ} {v : Victim q}

/-- Nothing can be stolen from an empty queue. -/
lemma Store.stealBatch_of_nil {n : ℕ} (h : st.queue v = []) : st.stealBatch i v n = none := by
  rw [stealBatch, h, List.take_nil]

/-- A steal from a queue that is not empty succeeds. -/
lemma Store.stealBatch_ne_none {n : ℕ} (h : st.queue v ≠ []) :
    st.stealBatch i v (n + 1) ≠ none := by
  obtain ⟨r, rest, hq⟩ := List.exists_cons_of_ne_nil h
  rw [stealBatch, hq, List.take_succ_cons]
  exact Option.some_ne_none _

/-- The test for emptiness does not change what a visit gives. -/
lemma Store.attempt_eq (st : Store q R) (i : q.Worker) (b : Probe) (moved : Victim q → ℕ)
    (v : Victim q) : st.attempt i b moved v = st.attempt i .strict moved v := by
  cases b with
  | strict => rfl
  | cheap =>
    cases v with
    | injector s =>
      by_cases he : (st.injectors s).isEmpty
      · have hnil : st.queue (.injector s) = [] := List.isEmpty_iff.mp he
        simp [attempt, he, stealBatch_of_nil hnil]
      · simp [attempt, he]
    | peer w =>
      by_cases he : (st.deques w).isEmpty
      · have hnil : st.queue (.peer w) = [] := List.isEmpty_iff.mp he
        simp [attempt, he, stealBatch_of_nil hnil]
      · simp [attempt, he]

/-- A visit fails exactly at a victim without runnables. -/
lemma Store.attempt_eq_none_iff : st.attempt i b moved v = none ↔ st.Blank v := by
  rw [attempt_eq]
  cases v with
  | injector s =>
    have hsteal : st.attempt i .strict moved (.injector s) =
        st.stealBatch i (.injector s) (moved (.injector s) + 1) := by simp [attempt]
    rw [hsteal]
    constructor
    · intro h
      by_contra hblank
      exact stealBatch_ne_none (fun hnil => hblank (Or.inl hnil)) h
    · rintro (h | ⟨w, hw, -⟩)
      · exact stealBatch_of_nil h
      · cases hw
  | peer w =>
    cases hs : st.stealers w with
    | false =>
      simp only [attempt, hs, if_true, true_iff]
      exact Or.inr ⟨w, rfl, hs⟩
    | true =>
      have hsteal : st.attempt i .strict moved (.peer w) =
          st.stealBatch i (.peer w) (moved (.peer w) + 1) := by simp [attempt, hs]
      rw [hsteal]
      constructor
      · intro h
        by_contra hblank
        exact stealBatch_ne_none (fun hnil => hblank (Or.inl hnil)) h
      · rintro (h | ⟨u, hu, hfalse⟩)
        · exact stealBatch_of_nil h
        · cases hu
          rw [hs] at hfalse
          cases hfalse

/-- A walk of visits is the same cheap and strict. -/
lemma Store.findSome_attempt (st : Store q R) (i : q.Worker) (b : Probe) (moved : Victim q → ℕ)
    (vs : List (Victim q)) :
    vs.findSome? (st.attempt i b moved) = vs.findSome? (st.attempt i .strict moved) := by
  congr 1
  funext v
  exact attempt_eq st i b moved v

end Attempt

/-! ## Cheap and strict walks -/

section Walks

variable {i : q.Worker}

/-- With at most `CHEAP_SCAN_VICTIMS` other shards the walks over the shards are the same. -/
lemma Shape.otherShards_cheap (h : q.mask ≤ CHEAP_SCAN_VICTIMS) (i : q.Worker) (rand : UInt32) :
    q.otherShards i .cheap rand = q.otherShards i .strict rand := by
  have hlimit : probeLimit (q.mask + 1 - 1) .cheap = probeLimit (q.mask + 1 - 1) .strict :=
    Nat.min_eq_left h
  unfold otherShards
  dsimp only
  rw [hlimit]

/-- The cheap walk over the other workers is the beginning of the strict one. -/
lemma Shape.peers_cheap (i : q.Worker) (rand : UInt32) :
    q.peers i .cheap rand = (q.peers i .strict rand).take CHEAP_SCAN_VICTIMS := by
  apply List.ext_getElem
  · simp only [peers, List.length_ofFn, List.length_take, probeLimit, Nat.min_comm]
  · intro k h₁ h₂
    simp only [peers, List.getElem_ofFn, List.getElem_take]

/-- With at most `CHEAP_SCAN_VICTIMS` other workers the walks over the workers are the same. -/
lemma Shape.peers_cheap_eq (h : q.numWorkers ≤ CHEAP_SCAN_VICTIMS + 1) (i : q.Worker)
    (rand : UInt32) : q.peers i .cheap rand = q.peers i .strict rand := by
  rw [peers_cheap, List.take_of_length_le]
  simp only [peers, List.length_ofFn, probeLimit]
  omega

namespace Store

variable (st : Store q R)

lemma shardWalk_cheap (h : q.mask ≤ CHEAP_SCAN_VICTIMS) (i : q.Worker) :
    st.shardWalk i .cheap = st.shardWalk i .strict := by
  unfold shardWalk
  split
  · dsimp only
    rw [Shape.otherShards_cheap h]
  · rfl

lemma peerWalk_cheap (i : q.Worker) : st.peerWalk i .cheap =
    ((st.peerWalk i .strict).1, (st.peerWalk i .strict).2.take CHEAP_SCAN_VICTIMS) := by
  unfold peerWalk
  split
  · dsimp only
    rw [Shape.peers_cheap, List.map_take]
  · rfl

lemma peerWalk_cheap_eq (h : q.numWorkers ≤ CHEAP_SCAN_VICTIMS + 1) (i : q.Worker) :
    st.peerWalk i .cheap = st.peerWalk i .strict := by
  unfold peerWalk
  split
  · dsimp only
    rw [Shape.peers_cheap_eq h]
  · rfl

/-- The draws of the walks move no runnable. -/
lemma queue_shardWalk (i : q.Worker) (b : Probe) (v : Victim q) :
    (st.shardWalk i b).1.queue v = st.queue v := by
  unfold shardWalk
  split
  · exact st.queue_setRng i _ v
  · rfl

lemma queue_peerWalk (i : q.Worker) (b : Probe) (v : Victim q) :
    (st.peerWalk i b).1.queue v = st.queue v := by
  unfold peerWalk
  split
  · exact st.queue_setRng i _ v
  · rfl

lemma stealers_shardWalk (i : q.Worker) (b : Probe) :
    (st.shardWalk i b).1.stealers = st.stealers := by
  unfold shardWalk
  split <;> rfl

lemma stealers_peerWalk (i : q.Worker) (b : Probe) :
    (st.peerWalk i b).1.stealers = st.stealers := by
  unfold peerWalk
  split <;> rfl

lemma blank_shardWalk_iff (i : q.Worker) (b : Probe) (v : Victim q) :
    (st.shardWalk i b).1.Blank v ↔ st.Blank v := by
  unfold Blank
  rw [queue_shardWalk, stealers_shardWalk]

lemma blank_peerWalk_iff (i : q.Worker) (b : Probe) (v : Victim q) :
    (st.peerWalk i b).1.Blank v ↔ st.Blank v := by
  unfold Blank
  rw [queue_peerWalk, stealers_peerWalk]

/-- The strict walk over the other injectors leaves none out. -/
lemma mem_shardWalk (i : q.Worker) {s : q.Shard} (hs : s ≠ q.myShard i) :
    .injector s ∈ (st.shardWalk i .strict).2 := by
  unfold shardWalk
  split
  · exact List.mem_map_of_mem (Shape.mem_otherShards_strict i _ hs)
  · exact absurd (Fin.ext (by omega)) hs

end Store

end Walks

/-! ## The steps of a scan with nobody else around -/

/-- The report of the next steal attempt when nobody else is around. -/
def Store.report (st : Store q R) (moved : Victim q → ℕ) : Scan q → Steal
  | .own => .empty
  | .visit p => if (st.queue p.victim).isEmpty then .empty else .batch (moved p.victim + 1)

/-- The steps of a scan by worker `i`, alone, lead to the given storage and result. -/
inductive ScanAlone (i : q.Worker) (b : Probe) (moved : Victim q → ℕ) :
    Store q R → Scan q → Store q R → Option R → Prop
  | found {st st' : Store q R} {s : Scan q} {r : R}
    (h : scanMove st i b (st.report moved s) s = some (st', .found r)) :
    ScanAlone i b moved st s st' (some r)
  | empty {st st' : Store q R} {s : Scan q}
    (h : scanMove st i b (st.report moved s) s = some (st', .empty)) :
    ScanAlone i b moved st s st' none
  | more {st st' st'' : Store q R} {s s' : Scan q} {out : Option R}
    (h : scanMove st i b (st.report moved s) s = some (st', .more s'))
    (hrest : ScanAlone i b moved st' s' st'' out) : ScanAlone i b moved st s st'' out

/-- What a step of a scan leads to when the scan goes on alone. -/
def GoesOn (i : q.Worker) (b : Probe) (moved : Victim q → ℕ) (st : Store q R) :
    ScanResult q R → Store q R × Option R → Prop
  | .more s, last => ScanAlone i b moved st s last.1 last.2
  | .found r, last => last = (st, some r)
  | .empty, last => last = (st, none)

section Alone

variable {i : q.Worker} {b : Probe} {moved : Victim q → ℕ} {st st' : Store q R}
  {z : Store q R × Option R}

/-- One step, and then on. -/
lemma ScanAlone.of_step {s : Scan q} {res : ScanResult q R}
    (h : scanMove st i b (st.report moved s) s = some (st', res))
    (hrest : GoesOn i b moved st' res z) : ScanAlone i b moved st s z.1 z.2 := by
  cases res with
  | more s' => exact .more h hrest
  | found r =>
    obtain rfl : z = (st', some r) := hrest
    exact .found h
  | empty =>
    obtain rfl : z = (st', none) := hrest
    exact .empty h

/-- Drawing the present random state again changes nothing. -/
lemma Store.setRng_rng (st : Store q R) (i : q.Worker) : st.setRng i (st.rng i) = st := by
  unfold setRng
  rw [Function.update_eq_self]

lemma Store.setRng_setRng (st : Store q R) (i : q.Worker) (x y : UInt32) :
    (st.setRng i x).setRng i y = st.setRng i y := by
  unfold setRng
  rw [Function.update_idem]

lemma Store.rng_setRng (st : Store q R) (i : q.Worker) (x : UInt32) :
    (st.setRng i x).rng i = x := Function.update_self _ _ _

/-- Where a scan goes on does not depend on the last access to the victim it leaves. -/
lemma Store.advance_access (st : Store q R) (i : q.Worker) (b : Probe) (p : Pass q) (a : Access) :
    st.advance i b { p with access := a } = st.advance i b p := by
  unfold advance Pass.next
  cases p.rest with
  | cons v rest => rfl
  | nil => cases p.phase <;> rfl

/-- A steal attempt on a victim with a runnable takes it. -/
lemma ScanAlone.steal_hit {p : Pass q} {r : R} (ha : p.access = .steal)
    (h : st.stealBatch i p.victim (moved p.victim + 1) = some (r, st')) :
    ScanAlone i b moved st (.visit p) st' (some r) := by
  have hne : ¬ (st.queue p.victim).isEmpty = true := by
    intro he
    rw [Store.stealBatch_of_nil (List.isEmpty_iff.mp he)] at h
    cases h
  refine .found ?_
  simp only [Store.report, hne, scanMove, ha, h, Bool.false_eq_true, if_false, Option.map_some]

/-- A steal attempt on an empty victim goes on. -/
lemma ScanAlone.steal_miss {p : Pass q} (ha : p.access = .steal) (hq : st.queue p.victim = [])
    (h : GoesOn i b moved (st.advance i b p.miss).1 (st.advance i b p.miss).2 z) :
    ScanAlone i b moved st (.visit p) z.1 z.2 := by
  refine .of_step ?_ h
  simp [Store.report, hq, scanMove, ha]

/-- A visit that begins with the probe, or with the steal when the scan is strict, takes a
runnable if the victim has one. -/
lemma ScanAlone.access_hit {p : Pass q} {r : R} (ha : p.access = b.access)
    (h : st.stealBatch i p.victim (moved p.victim + 1) = some (r, st')) :
    ScanAlone i b moved st (.visit p) st' (some r) := by
  cases b with
  | strict => exact .steal_hit ha h
  | cheap =>
    have hprobe : p.access = .probe := ha
    have hne : ¬ (st.queue p.victim).isEmpty = true := by
      intro he
      rw [Store.stealBatch_of_nil (List.isEmpty_iff.mp he)] at h
      cases h
    have hsteal : ScanAlone i .cheap moved st (.visit { p with access := .steal }) st' (some r) :=
      .steal_hit rfl h
    refine .more ?_ hsteal
    simp only [scanMove, hprobe, hne, Bool.false_eq_true, if_false]

/-- Such a visit to an empty victim goes on. -/
lemma ScanAlone.access_miss {p : Pass q} (ha : p.access = b.access) (hq : st.queue p.victim = [])
    (h : GoesOn i b moved (st.advance i b p.miss).1 (st.advance i b p.miss).2 z) :
    ScanAlone i b moved st (.visit p) z.1 z.2 := by
  cases b with
  | strict => exact .steal_miss ha hq h
  | cheap =>
    have hprobe : p.access = .probe := ha
    refine .of_step ?_ h
    simp [scanMove, hprobe, hq]

/-- A visit to a victim with a runnable takes it. -/
lemma ScanAlone.visit_hit {p : Pass q} {r : R} (ha : p.access = b.firstAccess p.victim)
    (h : st.attempt i b moved p.victim = some (r, st')) :
    ScanAlone i b moved st (.visit p) st' (some r) := by
  rw [Store.attempt_eq] at h
  cases hv : p.victim with
  | injector s =>
    rw [hv] at ha h
    refine .access_hit ha ?_
    rw [hv]
    simpa [Store.attempt] using h
  | peer w =>
    rw [hv] at ha h
    have hslot : p.access = .slot := ha
    cases hs : st.stealers w with
    | false => simp [Store.attempt, hs] at h
    | true =>
      have hsteal : st.stealBatch i (.peer w) (moved (.peer w) + 1) = some (r, st') := by
        simpa [Store.attempt, hs] using h
      have haccess : ScanAlone i b moved st (.visit { p with access := b.access }) st' (some r) :=
        .access_hit rfl (by rw [← hv] at hsteal; exact hsteal)
      refine .more ?_ haccess
      simp [scanMove, hslot, hv, hs]

/-- A visit to a victim without one goes on. -/
lemma ScanAlone.visit_miss {p : Pass q} (ha : p.access = b.firstAccess p.victim)
    (hblank : st.Blank p.victim)
    (h : GoesOn i b moved (st.advance i b p.miss).1 (st.advance i b p.miss).2 z) :
    ScanAlone i b moved st (.visit p) z.1 z.2 := by
  cases hv : p.victim with
  | injector s =>
    rw [hv] at ha hblank
    refine .access_miss ha ?_ h
    rw [hv]
    rcases hblank with hq | ⟨w, hw, -⟩
    · exact hq
    · cases hw
  | peer w =>
    rw [hv] at ha hblank
    have hslot : p.access = .slot := ha
    cases hs : st.stealers w with
    | false =>
      refine .of_step ?_ h
      simp [scanMove, hslot, hv, hs]
    | true =>
      have hq : st.queue (.peer w) = [] := by
        rcases hblank with hq | ⟨u, hu, hfalse⟩
        · exact hq
        · cases hu
          rw [hs] at hfalse
          cases hfalse
      have haccess : ScanAlone i b moved st (.visit { p with access := b.access }) z.1
          z.2 := by
        refine .access_miss rfl (by rw [← hv] at hq; exact hq) ?_
        have hsame := st.advance_access i b p.miss b.access
        unfold Pass.miss at hsame h ⊢
        rw [hsame]
        exact h
      refine .more ?_ haccess
      simp [scanMove, hslot, hv, hs]

/-- A walk takes the first runnable it meets. -/
lemma ScanAlone.walk_hit {p : Pass q} {r : R} (ha : p.access = b.firstAccess p.victim)
    (h : p.ahead.findSome? (st.attempt i b moved) = some (r, st')) :
    ScanAlone i b moved st (.visit p) st' (some r) := by
  induction hrest : p.rest generalizing p with
  | nil =>
    rw [Pass.ahead, hrest, List.findSome?_cons, List.findSome?_nil] at h
    cases hv : st.attempt i b moved p.victim with
    | none =>
      rw [hv] at h
      cases h
    | some y =>
      rw [hv] at h
      cases h
      exact .visit_hit ha hv
  | cons v rest ih =>
    rw [Pass.ahead, hrest, List.findSome?_cons] at h
    cases hv : st.attempt i b moved p.victim with
    | some y =>
      rw [hv] at h
      cases h
      exact .visit_hit ha hv
    | none =>
      rw [hv] at h
      refine .visit_miss (z := (st', some r)) ha (Store.attempt_eq_none_iff.mp hv) ?_
      have hnext : st.advance i b p.miss = (st, .more (.visit
          { p.miss with victim := v, rest, access := b.firstAccess v })) := by
        have hrest' : p.miss.rest = v :: rest := hrest
        rw [Store.advance, Pass.next, hrest']
        exact congrArg (·, _) (st.setRng_rng i)
      rw [hnext]
      exact ih rfl h rfl

/-- A walk over victims without runnables goes on after the last one. -/
lemma ScanAlone.walk_miss {p : Pass q} (ha : p.access = b.firstAccess p.victim)
    (hc : p.contended = false) (hblank : p.ahead.findSome? (st.attempt i b moved) = none)
    (h : ∀ p' : Pass q, p'.phase = p.phase → p'.rest = [] → p'.contended = false →
      GoesOn i b moved (st.advance i b p').1 (st.advance i b p').2 z) :
    ScanAlone i b moved st (.visit p) z.1 z.2 := by
  rw [List.findSome?_eq_none_iff] at hblank
  have hv : st.Blank p.victim := Store.attempt_eq_none_iff.mp (hblank _ (List.mem_cons_self))
  induction hrest : p.rest generalizing p with
  | nil => exact .visit_miss ha hv (h p.miss rfl hrest hc)
  | cons v rest ih =>
    refine .visit_miss ha hv ?_
    have hnext : st.advance i b p.miss = (st, .more (.visit
        { p.miss with victim := v, rest, access := b.firstAccess v })) := by
      have hrest' : p.miss.rest = v :: rest := hrest
      rw [Store.advance, Pass.next, hrest']
      exact congrArg (·, _) (st.setRng_rng i)
    have hahead : ∀ u ∈ v :: rest, st.attempt i b moved u = none := by
      intro u hu
      apply hblank
      rw [Pass.ahead, hrest]
      exact List.mem_cons_of_mem _ hu
    rw [hnext]
    refine ih (p := { p.miss with victim := v, rest, access := b.firstAccess v }) rfl hc hahead ?_
      (Store.attempt_eq_none_iff.mp (hahead v List.mem_cons_self)) rfl
    exact fun p' hphase => h p' hphase

/-- The walk over the other workers, step by step. -/
lemma goesOn_enterPeers (st : Store q R) (i : q.Worker) (b : Probe) (moved : Victim q → ℕ)
    (clear : List (Victim q)) :
    GoesOn i b moved
      (st.setRng i (enterPeers i b false clear (st.rng i) : ScanResult q R × UInt32).2)
      (enterPeers i b false clear (st.rng i) : ScanResult q R × UInt32).1
      (st.scanPeers i b moved) := by
  unfold enterPeers Store.scanPeers Store.peerWalk
  by_cases hone : 1 < q.numWorkers
  · rw [if_pos hone, if_pos hone]
    dsimp only
    cases hpeers : (q.peers i b (nextRand (st.rng i))).map Victim.peer with
    | nil => rfl
    | cons v rest =>
      dsimp only
      cases hfind : (v :: rest).findSome?
          ((st.setRng i (nextRand (st.rng i))).attempt i b moved) with
      | some y => exact ScanAlone.walk_hit rfl hfind
      | none =>
        refine ScanAlone.walk_miss (z := (_, none)) rfl rfl hfind ?_
        intro p' hphase hrest hc
        have hnext : (st.setRng i (nextRand (st.rng i))).advance i b p' =
            (st.setRng i (nextRand (st.rng i)), .empty) := by
          have hphase' : p'.phase = .peers := hphase
          rw [Store.advance, Pass.next, hrest, hphase', hc]
          exact congrArg (·, _) (Store.setRng_rng _ i)
        rw [hnext]
        rfl
  · rw [if_neg hone, if_neg hone]
    exact congrArg (·, none) (st.setRng_rng i).symm

/-- The walk over the other injectors and what follows, step by step. -/
lemma goesOn_enterInjectors (st : Store q R) (i : q.Worker) (b : Probe) (moved : Victim q → ℕ)
    (clear : List (Victim q)) :
    GoesOn i b moved
      (st.setRng i (enterInjectors i b false clear (st.rng i) : ScanResult q R × UInt32).2)
      (enterInjectors i b false clear (st.rng i) : ScanResult q R × UInt32).1
      (st.scanShards i b moved) := by
  unfold enterInjectors Store.scanShards Store.shardWalk
  by_cases hmask : 1 < q.mask + 1
  · rw [if_pos hmask, if_pos hmask]
    dsimp only
    cases hshards : (q.otherShards i b (nextRand (st.rng i))).map Victim.injector with
    | nil =>
      have hpeers := goesOn_enterPeers (st.setRng i (nextRand (st.rng i))) i b moved clear
      rw [Store.setRng_setRng, Store.rng_setRng] at hpeers
      exact hpeers
    | cons v rest =>
      dsimp only
      cases hfind : (v :: rest).findSome?
          ((st.setRng i (nextRand (st.rng i))).attempt i b moved) with
      | some y => exact ScanAlone.walk_hit rfl hfind
      | none =>
        refine ScanAlone.walk_miss rfl rfl hfind ?_
        intro p' hphase hrest hc
        have hphase' : p'.phase = .injectors := hphase
        rw [Store.advance, Pass.next, hrest, hphase', hc]
        exact goesOn_enterPeers _ i b moved p'.clear
  · rw [if_neg hmask, if_neg hmask]
    exact goesOn_enterPeers st i b moved clear

/-- The steps of a scan with nobody else around lead to what `Store.scan` computes. -/
theorem scanAlone_scan (st : Store q R) (i : q.Worker) (b : Probe) (moved : Victim q → ℕ) :
    ScanAlone i b moved st .own (st.scan i b moved).1 (st.scan i b moved).2 := by
  unfold Store.scan
  cases hd : st.deques i with
  | cons r rest =>
    refine .found ?_
    simp only [scanMove, hd]
  | nil =>
    have hstart : scanMove st i b (st.report moved .own) .own =
        some (st, .more (.visit (Pass.start i b))) := by simp only [scanMove, hd]
    have haccess : (Pass.start i b).access = b.firstAccess (Pass.start i b).victim := rfl
    dsimp only
    cases ha : st.attempt i b moved (.injector (q.myShard i)) with
    | some y => exact .more hstart (.visit_hit haccess ha)
    | none =>
      refine .more hstart (.visit_miss haccess (Store.attempt_eq_none_iff.mp ha) ?_)
      exact goesOn_enterInjectors st i b moved _

/-- What a scan with nobody else around leads to is determined. -/
theorem ScanAlone.unique {s : Scan q} {st₁ st₂ : Store q R} {out₁ out₂ : Option R}
    (h₁ : ScanAlone i b moved st s st₁ out₁) (h₂ : ScanAlone i b moved st s st₂ out₂) :
    st₁ = st₂ ∧ out₁ = out₂ := by
  induction h₁ with
  | found h =>
    cases h₂ with
    | found h' =>
      rw [h] at h'
      cases h'
      exact ⟨rfl, rfl⟩
    | empty h' | more h' _ =>
      rw [h] at h'
      cases h'
  | empty h =>
    cases h₂ with
    | empty h' =>
      rw [h] at h'
      cases h'
      exact ⟨rfl, rfl⟩
    | found h' | more h' _ =>
      rw [h] at h'
      cases h'
  | more h _ ih =>
    cases h₂ with
    | found h' | empty h' =>
      rw [h] at h'
      cases h'
    | more h' hrest =>
      rw [h] at h'
      cases h'
      exact ih hrest

/-- The steps of a scan with nobody else around lead to what `Store.scan` computes and to nothing
else. -/
theorem scanAlone_iff {out : Option R} :
    ScanAlone i b moved st .own st' out ↔ st.scan i b moved = (st', out) := by
  constructor
  · intro h
    obtain ⟨hst, hout⟩ := (scanAlone_scan st i b moved).unique h
    exact Prod.ext hst hout
  · intro h
    have hscan := scanAlone_scan st i b moved
    rw [h] at hscan
    exact hscan

end Alone

/-! ## Agreement -/

section Agreement

variable {i : q.Worker} {b : Probe} {moved : Victim q → ℕ} {st st' : Store q R} {r : R}

/-- The walk over the other workers: what a cheap one finds a strict one finds. -/
lemma Store.scanPeers_eq_of_cheap (hs : st.scanPeers i .cheap moved = (st', some r)) :
    st.scanPeers i .strict moved = (st', some r) := by
  unfold scanPeers at hs ⊢
  rw [peerWalk_cheap] at hs
  dsimp only at hs ⊢
  rw [findSome_attempt] at hs
  cases hp : ((st.peerWalk i .strict).2.take CHEAP_SCAN_VICTIMS).findSome?
      ((st.peerWalk i .strict).1.attempt i .strict moved) with
  | none =>
    rw [hp] at hs
    cases hs
  | some y =>
    rw [hp] at hs
    rw [← List.take_append_drop CHEAP_SCAN_VICTIMS (st.peerWalk i .strict).2,
      List.findSome?_append, hp]
    exact hs

/-- From the other injectors on, what a cheap scan finds a strict one finds. -/
lemma Store.scanShards_eq_of_cheap (h : q.mask ≤ CHEAP_SCAN_VICTIMS)
    (hs : st.scanShards i .cheap moved = (st', some r)) :
    st.scanShards i .strict moved = (st', some r) := by
  unfold scanShards at hs ⊢
  rw [shardWalk_cheap st h] at hs
  dsimp only at hs ⊢
  rw [findSome_attempt] at hs
  cases hw : (st.shardWalk i .strict).2.findSome?
      ((st.shardWalk i .strict).1.attempt i .strict moved) with
  | none =>
    rw [hw] at hs
    exact scanPeers_eq_of_cheap hs
  | some y =>
    rw [hw] at hs
    exact hs

/-- A runnable that a cheap scan finds is the one a strict scan finds. -/
lemma Store.scan_eq_of_cheap (h : q.mask ≤ CHEAP_SCAN_VICTIMS)
    (hs : st.scan i .cheap moved = (st', some r)) : st.scan i .strict moved = (st', some r) := by
  unfold scan at hs ⊢
  cases hd : st.deques i with
  | cons x rest =>
    rw [hd] at hs
    exact hs
  | nil =>
    rw [hd] at hs
    dsimp only at hs ⊢
    rw [attempt_eq] at hs
    cases ha : st.attempt i .strict moved (.injector (q.myShard i)) with
    | some y =>
      rw [ha] at hs
      exact hs
    | none =>
      rw [ha] at hs
      exact scanShards_eq_of_cheap h hs

/-- A walk over the other workers that finds nothing. -/
lemma Store.scanPeers_none (hs : st.scanPeers i b moved = (st', none)) :
    (∀ v, st'.queue v = st.queue v) ∧ ∀ v ∈ (st.peerWalk i b).2, st.Blank v := by
  unfold scanPeers at hs
  dsimp only at hs
  cases hp : (st.peerWalk i b).2.findSome? ((st.peerWalk i b).1.attempt i b moved) with
  | some y =>
    rw [hp] at hs
    cases hs
  | none =>
    rw [hp] at hs
    obtain rfl : (st.peerWalk i b).1 = st' := congrArg Prod.fst hs
    rw [List.findSome?_eq_none_iff] at hp
    refine ⟨st.queue_peerWalk i b, fun v hv => ?_⟩
    exact (st.blank_peerWalk_iff i b v).mp (attempt_eq_none_iff.mp (hp v hv))

/-- A scan that finds nothing from the other injectors on. -/
lemma Store.scanShards_none (hs : st.scanShards i b moved = (st', none)) :
    (∀ v, st'.queue v = st.queue v) ∧ (∀ v ∈ (st.shardWalk i b).2, st.Blank v) ∧
      ∀ v ∈ st.probed i b, st.Blank v := by
  unfold scanShards at hs
  dsimp only at hs
  cases hw : (st.shardWalk i b).2.findSome? ((st.shardWalk i b).1.attempt i b moved) with
  | some y =>
    rw [hw] at hs
    cases hs
  | none =>
    rw [hw] at hs
    obtain ⟨hqueue, hpeers⟩ := scanPeers_none hs
    rw [List.findSome?_eq_none_iff] at hw
    refine ⟨fun v => ?_, fun v hv => ?_, fun v hv => ?_⟩
    · rw [hqueue, queue_shardWalk]
    · exact (st.blank_shardWalk_iff i b v).mp (attempt_eq_none_iff.mp (hw v hv))
    · exact (st.blank_shardWalk_iff i b v).mp (hpeers v hv)

/-- A scan that finds nothing has moved no runnable and has found its own deque, the preferred
injector and all victims of its walks without one. -/
lemma Store.scan_none (hs : st.scan i b moved = (st', none)) :
    (∀ v, st'.queue v = st.queue v) ∧ st.deques i = [] ∧ st.Blank (.injector (q.myShard i)) ∧
      (∀ v ∈ (st.shardWalk i b).2, st.Blank v) ∧ ∀ v ∈ st.probed i b, st.Blank v := by
  unfold scan at hs
  cases hd : st.deques i with
  | cons x rest =>
    rw [hd] at hs
    cases hs
  | nil =>
    rw [hd] at hs
    dsimp only at hs
    cases ha : st.attempt i b moved (.injector (q.myShard i)) with
    | some y =>
      rw [ha] at hs
      cases hs
    | none =>
      rw [ha] at hs
      obtain ⟨hqueue, hshards, hpeers⟩ := scanShards_none hs
      exact ⟨hqueue, rfl, attempt_eq_none_iff.mp ha, hshards, hpeers⟩

/-- A cheap scan that finds nothing leaves the queues as they are, and overlooks at most the
deques of workers it has not probed. -/
lemma Store.blank_of_cheap (h : q.mask ≤ CHEAP_SCAN_VICTIMS)
    (hs : st.scan i .cheap moved = (st', none)) :
    (∀ v, st'.queue v = st.queue v) ∧ ∀ v, ¬ st.Blank v →
      ∃ w, v = .peer w ∧ w ≠ i ∧ v ∉ st.probed i .cheap := by
  obtain ⟨hqueue, hown, hpref, hshards, hpeers⟩ := scan_none hs
  rw [shardWalk_cheap st h] at hshards
  refine ⟨hqueue, fun v hv => ?_⟩
  cases v with
  | injector s =>
    by_cases hs : s = q.myShard i
    · rw [hs] at hv
      exact absurd hpref hv
    · exact absurd (hshards _ (st.mem_shardWalk i hs)) hv
  | peer w =>
    refine ⟨w, rfl, ?_, fun hmem => hv (hpeers _ hmem)⟩
    rintro rfl
    exact hv (Or.inl hown)

/-- A cheap scan probes at most `CHEAP_SCAN_VICTIMS` workers. -/
lemma Store.length_probed (st : Store q R) (i : q.Worker) :
    (st.probed i .cheap).length = min (q.numWorkers - 1) CHEAP_SCAN_VICTIMS := by
  unfold probed peerWalk
  split
  · simp only [List.length_map, Shape.peers, List.length_ofFn, probeLimit]
  · simp only [List.length_nil]
    omega

/-- With few workers the two scans are the same. -/
lemma Store.scan_cheap_eq (h : q.mask ≤ CHEAP_SCAN_VICTIMS)
    (hw : q.numWorkers ≤ CHEAP_SCAN_VICTIMS + 1) (st : Store q R) (i : q.Worker)
    (moved : Victim q → ℕ) : st.scan i .cheap moved = st.scan i .strict moved := by
  unfold scan scanShards scanPeers
  simp only [attempt_eq (b := .cheap), shardWalk_cheap st h, findSome_attempt (b := .cheap),
    peerWalk_cheap_eq _ hw]

/-- **The cheap scan agrees with the strict one.**  On a queue with at most nine shards and
with nobody else around: a runnable a cheap scan returns is returned by a strict scan from the
same state, with the same resulting queues and random state; a cheap scan that returns `None`
leaves every queue as it is, and every queue with a runnable is then the deque of a worker
outside the `CHEAP_SCAN_VICTIMS` it has probed; and with at most nine workers the scans are the
same. -/
theorem cheap_scan_agrees (h : q.mask + 1 ≤ 9) (st : Store q R) (i : q.Worker)
    (moved : Victim q → ℕ) :
    (∀ st' r, st.scan i .cheap moved = (st', some r) → st.scan i .strict moved = (st', some r)) ∧
      (∀ st', st.scan i .cheap moved = (st', none) → (∀ v, st'.queue v = st.queue v) ∧
        (st.probed i .cheap).length = min (q.numWorkers - 1) CHEAP_SCAN_VICTIMS ∧
          ∀ v, ¬ st.Blank v → ∃ w, v = .peer w ∧ w ≠ i ∧ v ∉ st.probed i .cheap) ∧
      (q.numWorkers ≤ 9 → st.scan i .cheap moved = st.scan i .strict moved) := by
  have hmask : q.mask ≤ CHEAP_SCAN_VICTIMS := Nat.le_of_lt_succ h
  refine ⟨fun st' r hs => Store.scan_eq_of_cheap hmask hs, fun st' hs => ?_,
    fun hw => Store.scan_cheap_eq hmask hw st i moved⟩
  obtain ⟨hqueue, hblank⟩ := Store.blank_of_cheap hmask hs
  exact ⟨hqueue, st.length_probed i, hblank⟩

end Agreement

/-- The queue of a pool with twelve workers. -/
def dozen : Shape := .new 12 none (by decide) (by decide)

/-- Twelve registered workers; worker `w` has a runnable in its deque. -/
def dozen.store (w : dozen.Worker) : Store dozen ℕ :=
  ⟨fun _ => [], fun u => if u = w then [7] else [], fun _ => true, fun u => rngSeed u⟩

/-- A cheap scan of the first worker does not find the runnable of the tenth, a strict one
does. -/
theorem cheap_scan_overlooks :
    ((dozen.store ⟨9, by decide⟩).scan ⟨0, by decide⟩ .cheap fun _ => 0).2 = none ∧
      ((dozen.store ⟨9, by decide⟩).scan ⟨0, by decide⟩ .strict fun _ => 0).2 = some 7 ∧
        ∃ w, (.peer ⟨9, by decide⟩ : Victim dozen) = .peer w ∧ w ≠ ⟨0, by decide⟩ ∧
          .peer ⟨9, by decide⟩ ∉ (dozen.store ⟨9, by decide⟩).probed ⟨0, by decide⟩ .cheap := by
  have hnone : ((dozen.store ⟨9, by decide⟩).scan ⟨0, by decide⟩ .cheap fun _ => 0).2 = none := by
    decide
  have hagree := (cheap_scan_agrees (by decide) (dozen.store ⟨9, by decide⟩) ⟨0, by decide⟩
    fun _ => 0).2.1 _ (Prod.ext rfl hnone)
  refine ⟨hnone, by decide, hagree.2.2 _ ?_⟩
  rintro (h | ⟨w, -, h⟩)
  · cases h
  · cases h

end AffinityPool
