import AffinityPool.Queue.Victims
import Mathlib.Logic.Function.Basic

/-!
# The queues and one scan

`Store` is the storage of a queue: the injectors, the workers' deques, the registered
stealers and the workers' random streams.  `scanMove` takes one step of `Queue::scan`: one
pop of the own deque, one load of a stealer slot, one `is_empty`, or one steal attempt.  A
pass walks its victims through three phases, as the source does: the preferred injector,
the other injectors, the other workers; the random number of a walk is drawn when the walk
begins.

What `crossbeam` does is taken from its documentation.  A steal attempt on a victim either
removes a nonempty prefix of it, returns the first runnable and appends the others to the
thief's own deque, or reports `Empty` on an empty victim, or reports `Retry`.

`ScanMove` lists what one step can do; every later proof about scans goes by its cases.
-/

namespace AffinityPool

variable {q : Shape} {R : Type}

/-- A queue that a scan steals from. -/
inductive Victim (q : Shape)
  | injector (s : q.Shard)
  | peer (w : q.Worker)
  deriving DecidableEq

/-- The storage of a queue. -/
structure Store (q : Shape) (R : Type) where
  /-- The sharded injectors. -/
  injectors : q.Shard → List R
  /-- The deque of every worker. -/
  deques : q.Worker → List R
  /-- Whether a worker has installed its stealer. -/
  stealers : q.Worker → Bool
  /-- The random stream of every worker. -/
  rng : q.Worker → UInt32

namespace Store

/-- The contents of a victim. -/
def queue (st : Store q R) : Victim q → List R
  | .injector s => st.injectors s
  | .peer w => st.deques w

/-- Replace the contents of a victim. -/
def setQueue (st : Store q R) (v : Victim q) (xs : List R) : Store q R :=
  match v with
  | .injector s => { st with injectors := Function.update st.injectors s xs }
  | .peer w => { st with deques := Function.update st.deques w xs }

/-- Replace the random state of a worker. -/
def setRng (st : Store q R) (i : q.Worker) (x : UInt32) : Store q R :=
  { st with rng := Function.update st.rng i x }

/-- `steal_batch_and_pop` with a batch of `n`: the first runnable of the victim, and the
storage in which the rest of the batch has moved to the thief's deque. -/
def stealBatch (st : Store q R) (i : q.Worker) (v : Victim q) (n : ℕ) :
    Option (R × Store q R) :=
  match (st.queue v).take n with
  | [] => none
  | r :: batch =>
    let st' := st.setQueue v ((st.queue v).drop n)
    some (r, st'.setQueue (.peer i) (st'.queue (.peer i) ++ batch))

/-- A victim without runnables: an empty queue, or a worker that has not registered. -/
def Blank (st : Store q R) (v : Victim q) : Prop :=
  st.queue v = [] ∨ ∃ w, v = .peer w ∧ st.stealers w = false

@[simp] lemma queue_injector (st : Store q R) (s : q.Shard) :
    st.queue (.injector s) = st.injectors s := rfl

@[simp] lemma queue_peer (st : Store q R) (w : q.Worker) :
    st.queue (.peer w) = st.deques w := rfl

@[simp] lemma queue_setQueue_self (st : Store q R) (v : Victim q) (xs : List R) :
    (st.setQueue v xs).queue v = xs := by
  cases v <;> simp [setQueue]

lemma queue_setQueue_of_ne (st : Store q R) {v u : Victim q} (h : u ≠ v) (xs : List R) :
    (st.setQueue v xs).queue u = st.queue u := by
  cases v <;> cases u <;> simp_all [setQueue]

@[simp] lemma stealers_setQueue (st : Store q R) (v : Victim q) (xs : List R) :
    (st.setQueue v xs).stealers = st.stealers := by
  cases v <;> rfl

@[simp] lemma queue_setRng (st : Store q R) (i : q.Worker) (x : UInt32) (v : Victim q) :
    (st.setRng i x).queue v = st.queue v := by
  cases v <;> rfl

@[simp] lemma stealers_setRng (st : Store q R) (i : q.Worker) (x : UInt32) :
    (st.setRng i x).stealers = st.stealers := rfl

end Store

/-! ## A pass over the victims -/

/-- The step of `Queue::scan` a visited victim belongs to. -/
inductive Phase
  | preferred
  | injectors
  | peers
  deriving DecidableEq

/-- The next access to the visited victim. -/
inductive Access
  /-- Load the victim's stealer slot. -/
  | slot
  /-- Test `is_empty()`. -/
  | probe
  /-- Attempt the steal. -/
  | steal
  deriving DecidableEq

/-- A pass in the middle of its walk. -/
structure Pass (q : Shape) where
  phase : Phase
  /-- The victim being visited. -/
  victim : Victim q
  /-- The victims left in this phase. -/
  rest : List (Victim q)
  access : Access
  /-- Some victim of this pass answered `Retry`. -/
  contended : Bool
  /-- The victims in which this pass has found no runnable. -/
  clear : List (Victim q)
  deriving DecidableEq

/-- Where a scan stands: about to pop the own deque, or visiting a victim. -/
inductive Scan (q : Shape)
  | own
  | visit (p : Pass q)
  deriving DecidableEq

/-- What one step of a scan leads to. -/
inductive ScanResult (q : Shape) (R : Type)
  | more (s : Scan q)
  | found (r : R)
  | empty

/-- What a steal attempt reports. -/
inductive Steal
  | batch (n : ℕ)
  | empty
  | retry
  deriving DecidableEq

/-- The access that follows a loaded stealer slot, and the first one to an injector. -/
def Probe.access : Probe → Access
  | .cheap => .probe
  | .strict => .steal

/-- The first access to a victim. -/
def Probe.firstAccess (b : Probe) : Victim q → Access
  | .injector _ => b.access
  | .peer _ => .slot

/-- The first visit of a pass: the preferred injector. -/
def Pass.start (i : q.Worker) (b : Probe) : Pass q where
  phase := .preferred
  victim := .injector (q.myShard i)
  rest := []
  access := b.access
  contended := false
  clear := []

/-- The visited victim held no runnable. -/
def Pass.miss (p : Pass q) : Pass q := { p with clear := p.victim :: p.clear }

/-- The visited victim was contended. -/
def Pass.retry (p : Pass q) : Pass q := { p with contended := true }

/-- The end of a pass that found nothing: walk again if some victim was contended. -/
def finishPass (contended : Bool) : ScanResult q R :=
  if contended then .more .own else .empty

/-- Begin the walk over the other workers, if there are any. -/
def enterPeers (i : q.Worker) (b : Probe) (contended : Bool) (clear : List (Victim q))
    (rng : UInt32) : ScanResult q R × UInt32 :=
  if 1 < q.numWorkers then
    let rand := nextRand rng
    match (q.peers i b rand).map Victim.peer with
    | v :: rest =>
      (.more (.visit
        { phase := .peers, victim := v, rest, access := b.firstAccess v, contended, clear }), rand)
    | [] => (finishPass contended, rand)
  else (finishPass contended, rng)

/-- Begin the walk over the other injectors, if there are any. -/
def enterInjectors (i : q.Worker) (b : Probe) (contended : Bool) (clear : List (Victim q))
    (rng : UInt32) : ScanResult q R × UInt32 :=
  if 1 < q.mask + 1 then
    let rand := nextRand rng
    match (q.otherShards i b rand).map Victim.injector with
    | v :: rest =>
      (.more (.visit
        { phase := .injectors, victim := v, rest, access := b.firstAccess v, contended, clear }),
        rand)
    | [] => enterPeers i b contended clear rand
  else enterPeers i b contended clear rng

/-- Go on after the visited victim gave nothing. -/
def Pass.next (p : Pass q) (i : q.Worker) (b : Probe) (rng : UInt32) : ScanResult q R × UInt32 :=
  match p.rest with
  | v :: rest => (.more (.visit { p with victim := v, rest, access := b.firstAccess v }), rng)
  | [] =>
    match p.phase with
    | .preferred => enterInjectors i b p.contended p.clear rng
    | .injectors => enterPeers i b p.contended p.clear rng
    | .peers => (finishPass p.contended, rng)

/-- Leave the visited victim with the pass `p`. -/
def Store.advance (st : Store q R) (i : q.Worker) (b : Probe) (p : Pass q) :
    Store q R × ScanResult q R :=
  let next := p.next i b (st.rng i)
  (st.setRng i next.2, next.1)

/-- One step of `Queue::scan` by worker `i`, where a steal attempt reports `o`. -/
def scanMove (st : Store q R) (i : q.Worker) (b : Probe) (o : Steal) :
    Scan q → Option (Store q R × ScanResult q R)
  | .own =>
    match st.deques i with
    | r :: rest => some (st.setQueue (.peer i) rest, .found r)
    | [] => some (st, .more (.visit (Pass.start i b)))
  | .visit p =>
    match p.access, p.victim with
    | .slot, .peer w =>
      if st.stealers w then some (st, .more (.visit { p with access := b.access }))
      else some (st.advance i b p.miss)
    | .slot, .injector _ => none
    | .probe, v =>
      if (st.queue v).isEmpty then some (st.advance i b p.miss)
      else some (st, .more (.visit { p with access := .steal }))
    | .steal, v =>
      match o with
      | .batch n => (st.stealBatch i v n).map fun (r, st') => (st', .found r)
      | .empty => if (st.queue v).isEmpty then some (st.advance i b p.miss) else none
      | .retry => some (st.advance i b p.retry)

/-! ## What one step can do -/

/-- The steps of a scan, with what each of them read. -/
inductive ScanMove (i : q.Worker) (b : Probe) (o : Steal) (st : Store q R) :
    Scan q → Store q R → ScanResult q R → Prop
  /-- The own deque had a runnable. -/
  | pop {r : R} {rest : List R} (h : st.deques i = r :: rest) :
    ScanMove i b o st .own (st.setQueue (.peer i) rest) (.found r)
  /-- The own deque was empty: a pass begins. -/
  | start (h : st.deques i = []) : ScanMove i b o st .own st (.more (.visit (Pass.start i b)))
  /-- A slot was loaded, or a victim was seen not to be empty. -/
  | access (p : Pass q) (a : Access) :
    ScanMove i b o st (.visit p) st (.more (.visit { p with access := a }))
  /-- The victim held no runnable. -/
  | miss {p : Pass q} (h : st.Blank p.victim) :
    ScanMove i b o st (.visit p) (st.advance i b p.miss).1 (st.advance i b p.miss).2
  /-- The victim was contended. -/
  | retry (p : Pass q) :
    ScanMove i b o st (.visit p) (st.advance i b p.retry).1 (st.advance i b p.retry).2
  /-- A batch was stolen: its first runnable is returned, the others move. -/
  | batch {p : Pass q} {n : ℕ} {r : R} {moved : List R} (ho : o = .batch n)
    (ha : p.access = .steal) (h : (st.queue p.victim).take n = r :: moved) :
    ScanMove i b o st (.visit p)
      ((st.setQueue p.victim ((st.queue p.victim).drop n)).setQueue (.peer i)
        ((st.setQueue p.victim ((st.queue p.victim).drop n)).queue (.peer i) ++ moved))
      (.found r)

/-- Every step of a scan is one of the listed ones. -/
theorem ScanMove.of_scanMove {st st' : Store q R} {i : q.Worker} {b : Probe} {o : Steal}
    {s : Scan q} {res : ScanResult q R} (h : scanMove st i b o s = some (st', res)) :
    ScanMove i b o st s st' res := by
  cases s with
  | own =>
    cases hd : st.deques i with
    | nil =>
      simp only [scanMove, hd, Option.some.injEq, Prod.mk.injEq] at h
      obtain ⟨rfl, rfl⟩ := h
      exact .start hd
    | cons r rest =>
      simp only [scanMove, hd, Option.some.injEq, Prod.mk.injEq] at h
      obtain ⟨rfl, rfl⟩ := h
      exact .pop hd
  | visit p =>
    cases ha : p.access with
    | slot =>
      cases hv : p.victim with
      | injector s => simp [scanMove, ha, hv] at h
      | peer w =>
        cases hs : st.stealers w with
        | true =>
          simp only [scanMove, ha, hv, hs, if_true, Option.some.injEq, Prod.mk.injEq] at h
          obtain ⟨rfl, rfl⟩ := h
          have hmove : ScanMove i b o st (.visit p) st _ := .access p b.access
          rwa [hv] at hmove
        | false =>
          simp only [scanMove, ha, hv, hs, Bool.false_eq_true, if_false, Option.some.injEq] at h
          have hblank : st.Blank p.victim := Or.inr ⟨w, hv, hs⟩
          have hmove : ScanMove i b o st (.visit p) _ _ := .miss hblank
          rwa [h] at hmove
    | probe =>
      by_cases he : (st.queue p.victim).isEmpty
      · simp only [scanMove, ha, he, if_true, Option.some.injEq] at h
        have hblank : st.Blank p.victim := Or.inl (List.isEmpty_iff.mp he)
        have hmove : ScanMove i b o st (.visit p) _ _ := .miss hblank
        rwa [h] at hmove
      · simp only [scanMove, ha, he, Bool.false_eq_true, if_false, Option.some.injEq,
          Prod.mk.injEq] at h
        obtain ⟨rfl, rfl⟩ := h
        exact .access p _
    | steal =>
      cases o with
      | batch n =>
        cases ht : (st.queue p.victim).take n with
        | nil => simp [scanMove, ha, Store.stealBatch, ht] at h
        | cons r moved =>
          simp only [scanMove, ha, Store.stealBatch, ht, Option.map_some, Option.some.injEq,
            Prod.mk.injEq] at h
          obtain ⟨rfl, rfl⟩ := h
          exact .batch rfl ha ht
      | empty =>
        by_cases he : (st.queue p.victim).isEmpty
        · simp only [scanMove, ha, he, if_true, Option.some.injEq] at h
          have hblank : st.Blank p.victim := Or.inl (List.isEmpty_iff.mp he)
          have hmove : ScanMove i b .empty st (.visit p) _ _ := .miss hblank
          rwa [h] at hmove
        · simp [scanMove, ha, he] at h
      | retry =>
        simp only [scanMove, ha, Option.some.injEq] at h
        have hmove : ScanMove i b .retry st (.visit p) _ _ := .retry p
        rwa [h] at hmove

end AffinityPool
