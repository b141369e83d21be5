import AffinityPool.Pool.WorkerScope

/-!
# Handles are never dangling

`Queue::push` compares the address of the queue in the handle of the calling thread with its
own.  The two are equal just when the thread is inside a worker scope of that queue, although
addresses are used again, and the address of the deque is then that of the context the scope
was entered with (`Placed.selfSpawn_iff`).

A thread keeps its queue alive from its start to the drop of the queue handle, and its context
from `register_worker` to its drop.  The handle is there for a part of this time only, since
the scope is dropped before the context and the context before the queue handle; the sentry,
which may fill the slot of the thread again, is dropped last.
-/

namespace AffinityPool

namespace Handles

open Transition System Function Layout

/-! ## The invariant -/

variable {l l' : Layout} {p k : ℕ} {F : Type}

/-- What holds of thread `k` when it is as `w` says: its `CURRENT_WORKER` follows its worker
scope, it is known to its queue, and its slot leads to its own deque. -/
structure Fits (l : Layout) (k : ℕ) (w : Worker) : Prop where
  current : w.current = w.point.scope.map fun ctx => ⟨(l.pools w.pool).addr, ctx.addr⟩
  holders : w.point.holdsQueue = true → k ∈ (l.pools w.pool).holders
  built : w.point ≠ .gone → (l.pools w.pool).life ≠ .absent
  index : w.point ≠ .gone → w.index < (l.pools w.pool).spun
  single : w.point ≠ .gone → ∀ j, j ≠ k → (l.workers j).point ≠ .gone →
    (l.workers j).pool = w.pool → (l.workers j).index ≠ w.index
  slot : ∀ ctx, w.point.context = some ctx →
    (l.pools w.pool).stealers w.index = some ctx.buffer

/-- Objects are where their addresses say, and queues are there as long as they are held. -/
structure Placed (l : Layout) : Prop where
  queues : ∀ a p, l.queues a = some p ↔ (l.pools p).life.hasQueue = true ∧ (l.pools p).addr = a
  deques : ∀ a k, l.deques a = some k ↔
    ∃ ctx, (l.workers k).point.context = some ctx ∧ ctx.addr = a
  held : ∀ p, (l.pools p).holders ≠ [] → (l.pools p).life.hasQueue = true
  fits : ∀ k, Fits l k (l.workers k)

/-- A thread moves within the closure. -/
lemma Fits.move (h : Fits l k (l.workers k)) {w : Worker} (hpool : w.pool = (l.workers k).pool)
    (hindex : w.index = (l.workers k).index) (hcurrent : w.current = w.point.scope.map (l.handle k))
    (hqueue : w.point.holdsQueue = true → (l.workers k).point.holdsQueue = true)
    (hgone : w.point ≠ .gone → (l.workers k).point ≠ .gone)
    (hcontext : ∀ ctx, w.point.context = some ctx → (l.workers k).point.context = some ctx) :
    Fits l k w := by
  constructor
  · rw [hpool]
    exact hcurrent
  · intro hw
    rw [hpool]
    exact h.holders (hqueue hw)
  · intro hw
    rw [hpool]
    exact h.built (hgone hw)
  · intro hw
    rw [hpool, hindex]
    exact h.index (hgone hw)
  · intro hw
    rw [hpool, hindex]
    exact h.single (hgone hw)
  · intro ctx hctx
    rw [hpool, hindex]
    exact h.slot ctx (hcontext ctx hctx)

namespace Placed

/-- A thread that holds its queue keeps it there. -/
lemma hasQueue (h : Placed l) (hk : (l.workers k).point.holdsQueue = true) :
    (l.pools (l.workers k).pool).life.hasQueue = true :=
  h.held _ (List.ne_nil_of_mem ((h.fits k).holders hk))

/-- Two queues that are there have different addresses. -/
lemma addr_inj (h : Placed l) {p' : ℕ} (hp : (l.pools p).life.hasQueue = true)
    (hp' : (l.pools p').life.hasQueue = true) (ha : (l.pools p).addr = (l.pools p').addr) :
    p = p' := by
  have hat : l.queues (l.pools p).addr = some p := (h.queues _ _).mpr ⟨hp, rfl⟩
  have hat' : l.queues (l.pools p).addr = some p' := (h.queues _ _).mpr ⟨hp', ha.symm⟩
  exact Option.some_inj.mp (hat.symm.trans hat')

/-! ### Threads -/

/-- Thread `k` becomes `w`, and its deque may come or go. -/
lemma replaceAt (h : Placed l) {w : Worker} {d : ℕ → Option ℕ} (hw : Fits l k w)
    (hself : ∀ a, d a = some k ↔ ∃ ctx, w.point.context = some ctx ∧ ctx.addr = a)
    (hother : ∀ a j, j ≠ k → (d a = some j ↔ l.deques a = some j)) :
    Placed { l.setWorker k w with deques := d } := by
  have hat : (l.setWorker k w).workers k = w := update_self _ _ _
  have hat' : ∀ j, j ≠ k → (l.setWorker k w).workers j = l.workers j :=
    fun j hj => update_of_ne hj _ _
  constructor
  · exact h.queues
  · intro a j
    change d a = some j ↔
      ∃ ctx, ((l.setWorker k w).workers j).point.context = some ctx ∧ ctx.addr = a
    by_cases hj : j = k
    · rw [hj, hat]
      exact hself a
    · rw [hat' j hj, hother a j hj]
      exact h.deques a j
  · exact h.held
  · intro j
    change Fits _ j ((l.setWorker k w).workers j)
    by_cases hj : j = k
    · rw [hj, hat]
      refine ⟨hw.current, hw.holders, hw.built, hw.index, ?_, hw.slot⟩
      intro hlive i hi hlive' hpool
      change ((l.setWorker k w).workers i).point ≠ .gone at hlive'
      change ((l.setWorker k w).workers i).pool = _ at hpool
      change ((l.setWorker k w).workers i).index ≠ _
      rw [hat' i hi] at hlive' hpool ⊢
      exact hw.single hlive i hi hlive' hpool
    · rw [hat' j hj]
      have hold := h.fits j
      refine ⟨hold.current, hold.holders, hold.built, hold.index, ?_, hold.slot⟩
      intro hlive i hi hlive' hpool
      change ((l.setWorker k w).workers i).point ≠ .gone at hlive'
      change ((l.setWorker k w).workers i).pool = _ at hpool
      change ((l.setWorker k w).workers i).index ≠ _
      by_cases hik : i = k
      · rw [hik, hat] at hlive' hpool ⊢
        exact (hw.single hlive' j hj hlive hpool.symm).symm
      · rw [hat' i hik] at hlive' hpool ⊢
        exact hold.single hlive i hi hlive' hpool

/-- Thread `k` becomes `w`, with its context where it was. -/
lemma replace (h : Placed l) {w : Worker} (hw : Fits l k w)
    (hcontext : w.point.context = (l.workers k).point.context) : Placed (l.setWorker k w) := by
  refine h.replaceAt (d := l.deques) hw ?_ fun _ _ _ => Iff.rfl
  intro a
  rw [hcontext]
  exact h.deques a k

/-- A thread stays inside its worker scope. -/
lemma inScope (h : Placed l) {ctx : WorkerContext} {pt : Point} (b : Bool)
    (hk : (l.workers k).point.scope = some ctx) (hcontext : pt.context = some ctx)
    (hscope : pt.scope = some ctx) :
    Placed (l.setWorker k { l.workers k with point := pt, sentry := b }) := by
  have hold := Point.context_of_scope hk
  refine h.replace ?_ (hcontext.trans hold.symm)
  refine (h.fits k).move rfl rfl ?_ ?_ ?_ ?_
  · change (l.workers k).current = pt.scope.map (l.handle k)
    rw [hscope, ← hk]
    exact (h.fits k).current
  · exact fun _ => Point.holdsQueue_of_context hold
  · exact fun _ => Point.ne_gone (Point.holdsQueue_of_context hold)
  · intro ctx' hctx'
    exact hold.trans (hcontext.symm.trans hctx')

/-- A thread enters its worker scope. -/
lemma enterWorkerScope (h : Placed l) {ctx : WorkerContext}
    (hk : (l.workers k).point = .registered ctx) : Placed (l.enterWorkerScope k ctx) := by
  refine h.replace ?_ ?_
  · refine (h.fits k).move rfl rfl rfl ?_ ?_ ?_
    · rw [hk]
      exact fun _ => rfl
    · rw [hk]
      exact fun _ => nofun
    · rw [hk]
      exact fun _ => id
  · rw [hk]
    rfl

/-- A thread leaves its worker scope. -/
lemma dropScope (h : Placed l) {ctx : WorkerContext}
    (hk : (l.workers k).point = .leaving ctx) : Placed (l.dropScope k ctx) := by
  refine h.replace ?_ ?_
  · refine (h.fits k).move rfl rfl rfl ?_ ?_ ?_
    · rw [hk]
      exact fun _ => rfl
    · rw [hk]
      exact fun _ => nofun
    · rw [hk]
      exact fun _ => id
  · rw [hk]
    rfl

/-- The context of a thread goes out of scope. -/
lemma dropContext (h : Placed l) {ctx : WorkerContext}
    (hk : (l.workers k).point = .unscoped ctx) : Placed (l.dropContext k ctx) := by
  have hat : l.deques ctx.addr = some k := (h.deques _ _).mpr ⟨ctx, by rw [hk]; rfl, rfl⟩
  have hcurrent := (h.fits k).current
  rw [hk] at hcurrent
  refine h.replaceAt (w := { l.workers k with point := .bare }) ?_ ?_ ?_
  · refine (h.fits k).move rfl rfl hcurrent ?_ ?_ nofun
    · rw [hk]
      exact fun _ => rfl
    · rw [hk]
      exact fun _ => nofun
  · intro a
    constructor
    · intro ha
      rcases update_cases ha with ⟨-, hnone⟩ | ⟨hne, hold⟩
      · cases hnone
      · obtain ⟨ctx', hctx', rfl⟩ := (h.deques a k).mp hold
        rw [hk] at hctx'
        cases hctx'
        exact absurd rfl hne
    · rintro ⟨ctx', hctx', -⟩
      cases hctx'
  · intro a j hj
    by_cases hne : a = ctx.addr
    · rw [hne, update_self, hat]
      exact ⟨nofun, fun heq => absurd (Option.some_inj.mp heq).symm hj⟩
    · rw [update_of_ne hne]

/-- A thread without a context goes on to a point without one. -/
lemma setPoint (h : Placed l) {pt : Point} (hnone : pt.context = none)
    (hk : (l.workers k).point.context = none)
    (hqueue : pt.holdsQueue = true → (l.workers k).point.holdsQueue = true)
    (hgone : pt ≠ .gone → (l.workers k).point ≠ .gone) : Placed (l.setPoint k pt) := by
  have hscope : ∀ {pt' : Point}, pt'.context = none → pt'.scope = none := by
    intro pt' hpt'
    cases hs : pt'.scope with
    | none => rfl
    | some ctx =>
      rw [Point.context_of_scope hs] at hpt'
      cases hpt'
  refine h.replace ((h.fits k).move rfl rfl ?_ hqueue hgone ?_) (hnone.trans hk.symm)
  · change (l.workers k).current = pt.scope.map (l.handle k)
    rw [(h.fits k).current, hscope hk, hscope hnone]
    rfl
  · intro ctx hctx
    rw [hnone] at hctx
    cases hctx

/-- A thread ends. -/
lemma ended (h : Placed l) (hk : (l.workers k).point = .watched) :
    Placed (l.setPoint k .gone) := by
  refine h.setPoint rfl ?_ nofun fun hne => absurd rfl hne
  rw [hk]
  rfl

/-! ### Pools -/

/-- A pool changes, and its queue may come or go. -/
lemma setPoolAt (h : Placed l) {P : Pool} {u : ℕ → Option ℕ}
    (hself : ∀ a, u a = some p ↔ P.life.hasQueue = true ∧ P.addr = a)
    (hother : ∀ a q, q ≠ p → (u a = some q ↔ l.queues a = some q))
    (hlive : ∀ k, (l.workers k).point ≠ .gone → (l.workers k).pool = p →
      P.addr = (l.pools p).addr ∧ P.life ≠ .absent ∧ (l.pools p).spun ≤ P.spun)
    (hqueue : ∀ k, (l.workers k).point.holdsQueue = true → (l.workers k).pool = p →
      k ∈ P.holders)
    (hslot : ∀ k ctx, (l.workers k).point.context = some ctx → (l.workers k).pool = p →
      P.stealers (l.workers k).index = (l.pools p).stealers (l.workers k).index)
    (hheld : P.holders ≠ [] → P.life.hasQueue = true) :
    Placed { l.setPool p P with queues := u } := by
  have hat : (l.setPool p P).pools p = P := update_self _ _ _
  have hat' : ∀ q, q ≠ p → (l.setPool p P).pools q = l.pools q :=
    fun q hq => update_of_ne hq _ _
  constructor
  · intro a q
    change u a = some q ↔ ((l.setPool p P).pools q).life.hasQueue = true ∧
      ((l.setPool p P).pools q).addr = a
    by_cases hq : q = p
    · rw [hq, hat]
      exact hself a
    · rw [hat' q hq, hother a q hq]
      exact h.queues a q
  · exact h.deques
  · intro q hne
    change ((l.setPool p P).pools q).holders ≠ [] at hne
    change ((l.setPool p P).pools q).life.hasQueue = true
    by_cases hq : q = p
    · rw [hq, hat] at hne
      rw [hq, hat]
      exact hheld hne
    · rw [hat' q hq] at hne
      rw [hat' q hq]
      exact h.held q hne
  · intro j
    change Fits _ j (l.workers j)
    have hold := h.fits j
    by_cases hq : (l.workers j).pool = p
    · have hpool : { l.setPool p P with queues := u }.pools (l.workers j).pool = P := by
        rw [hq]
        exact hat
      refine ⟨?_, ?_, ?_, ?_, hold.single, ?_⟩
      · rw [hpool, hold.current, hq]
        by_cases hj : (l.workers j).point = .gone
        · rw [hj]
          rfl
        · rw [(hlive j hj hq).1]
      · rw [hpool]
        exact fun hj => hqueue j hj hq
      · rw [hpool]
        exact fun hj => (hlive j hj hq).2.1
      · rw [hpool]
        intro hj
        have hlt := hold.index hj
        rw [hq] at hlt
        exact Nat.lt_of_lt_of_le hlt (hlive j hj hq).2.2
      · rw [hpool]
        intro ctx hctx
        have hown := hold.slot ctx hctx
        rw [hq] at hown
        exact (hslot j ctx hctx hq).trans hown
    · have hpool : { l.setPool p P with queues := u }.pools (l.workers j).pool =
          l.pools (l.workers j).pool := hat' _ hq
      refine ⟨?_, ?_, ?_, ?_, hold.single, ?_⟩
      · rw [hpool]
        exact hold.current
      · rw [hpool]
        exact hold.holders
      · rw [hpool]
        exact hold.built
      · rw [hpool]
        exact hold.index
      · rw [hpool]
        exact hold.slot

/-- A pool that has been built changes, with its queue where it was. -/
lemma setPool (h : Placed l) {P : Pool} (haddr : P.addr = (l.pools p).addr)
    (hlife : P.life.hasQueue = (l.pools p).life.hasQueue) (hbuilt : P.life ≠ .absent)
    (hspun : (l.pools p).spun ≤ P.spun)
    (hqueue : ∀ k, (l.workers k).point.holdsQueue = true → (l.workers k).pool = p →
      k ∈ P.holders)
    (hslot : ∀ k ctx, (l.workers k).point.context = some ctx → (l.workers k).pool = p →
      P.stealers (l.workers k).index = (l.pools p).stealers (l.workers k).index)
    (hheld : P.holders ≠ [] → P.life.hasQueue = true) : Placed (l.setPool p P) := by
  refine h.setPoolAt (u := l.queues) ?_ ?_ ?_ hqueue hslot hheld
  · intro a
    rw [haddr, hlife]
    exact h.queues a p
  · exact fun _ _ _ => Iff.rfl
  · exact fun _ _ _ => ⟨haddr, hbuilt, hspun⟩

/-- A new pool, at an address where no queue is. -/
lemma build (h : Placed l) {addr : ℕ} (n : ℕ) (hp : (l.pools p).life = .absent)
    (ha : l.queues addr = none) : Placed (l.build p addr n) := by
  have hnone : ∀ k, (l.workers k).point ≠ .gone → (l.workers k).pool ≠ p := by
    rintro k hk rfl
    exact (h.fits k).built hk hp
  refine h.setPoolAt ?_ ?_ ?_ ?_ ?_ ?_
  · intro a
    constructor
    · intro hqueue
      rcases update_cases hqueue with ⟨heq, -⟩ | ⟨-, hold⟩
      · exact ⟨rfl, heq.symm⟩
      · have hlife := ((h.queues a p).mp hold).1
        rw [hp] at hlife
        cases hlife
    · rintro ⟨-, rfl⟩
      exact update_self _ _ _
  · intro a q hq
    by_cases hne : a = addr
    · rw [hne, update_self, ha]
      exact ⟨fun heq => absurd (Option.some_inj.mp heq).symm hq, nofun⟩
    · rw [update_of_ne hne]
  · exact fun k hk hkp => absurd hkp (hnone k hk)
  · exact fun k hk hkp => absurd hkp (hnone k (Point.ne_gone hk))
  · intro k ctx hk hkp
    exact absurd hkp (hnone k (Point.ne_gone (Point.holdsQueue_of_context hk)))
  · exact fun hne => absurd rfl hne

/-- A queue is destroyed when no thread holds it any more. -/
lemma destroy (h : Placed l) (hp : (l.pools p).life = .released)
    (hholders : (l.pools p).holders = []) : Placed (l.destroy p) := by
  have hnone : ∀ k, (l.workers k).point.holdsQueue = true → (l.workers k).pool ≠ p := by
    rintro k hk rfl
    have hmem := (h.fits k).holders hk
    rw [hholders] at hmem
    cases hmem
  refine h.setPoolAt ?_ ?_ ?_ ?_ ?_ ?_
  · intro a
    constructor
    · intro hqueue
      rcases update_cases hqueue with ⟨-, hnone⟩ | ⟨hne, hold⟩
      · cases hnone
      · exact absurd ((h.queues a p).mp hold).2.symm hne
    · rintro ⟨hlife, -⟩
      cases hlife
  · intro a q hq
    by_cases hne : a = (l.pools p).addr
    · have hold : l.queues a = some p := (h.queues a p).mpr ⟨by rw [hp]; rfl, hne.symm⟩
      rw [hold, hne, update_self]
      exact ⟨nofun, fun heq => absurd (Option.some_inj.mp heq).symm hq⟩
    · rw [update_of_ne hne]
  · exact fun _ _ _ => ⟨rfl, nofun, Nat.le_refl _⟩
  · exact fun k hk hkp => absurd hkp (hnone k hk)
  · exact fun k ctx hk hkp => absurd hkp (hnone k (Point.holdsQueue_of_context hk))
  · exact fun hne => absurd hholders hne

/-- The clones of the `Arc<Queue>` that threads hold change. -/
lemma setHolders (h : Placed l) {ks : List ℕ} (hp : (l.pools p).life.hasQueue = true)
    (hks : ∀ k, (l.workers k).point.holdsQueue = true → (l.workers k).pool = p → k ∈ ks) :
    Placed (l.setPool p { l.pools p with holders := ks }) := by
  refine h.setPool rfl rfl ?_ (Nat.le_refl _) hks (fun _ _ _ _ => rfl) (fun _ => hp)
  intro hlife
  change (l.pools p).life = .absent at hlife
  rw [hlife] at hp
  cases hp

/-! ### Threads and their pools -/

/-- A thread starts with an index of its pool that no other thread has. -/
lemma spinUp (h : Placed l) {index : ℕ} (hp : (l.pools p).life = .owned)
    (hk : (l.workers k).point = .gone) (hindex : index < (l.pools p).spun)
    (hfree : ∀ j, (l.workers j).point ≠ .gone → (l.workers j).pool = p →
      (l.workers j).index ≠ index) : Placed (l.spinUp p index k) := by
  have hmore : Placed (l.setPool p { l.pools p with holders := k :: (l.pools p).holders }) := by
    apply h.setHolders
    · rw [hp]
      rfl
    · rintro j hj rfl
      exact List.mem_cons_of_mem _ ((h.fits j).holders hj)
  have hat : (l.setPool p { l.pools p with holders := k :: (l.pools p).holders }).pools p =
      { l.pools p with holders := k :: (l.pools p).holders } := update_self _ _ _
  refine hmore.replace (w := ⟨p, index, .booting, true, none⟩) ⟨rfl, ?_, ?_, ?_, ?_, nofun⟩ ?_
  · intro _
    rw [hat]
    exact List.mem_cons_self
  · intro _
    rw [hat]
    change (l.pools p).life ≠ .absent
    rw [hp]
    exact nofun
  · intro _
    rw [hat]
    exact hindex
  · exact fun _ j _ => hfree j
  · change _ = (l.workers k).point.context
    rw [hk]
    rfl

/-- A thread registers itself in the slot with its index. -/
lemma registerWorker (h : Placed l) {addr : ℕ} (b : ℕ) (hk : (l.workers k).point = .booting)
    (ha : l.deques addr = none) : Placed (l.registerWorker k addr b) := by
  have hlive : (l.workers k).point ≠ .gone := by
    rw [hk]
    exact nofun
  have hold := h.fits k
  -- the slot is filled first: no other thread has it
  have hslot : Placed (l.setPool (l.workers k).pool { l.pools (l.workers k).pool with
      stealers := update (l.pools (l.workers k).pool).stealers (l.workers k).index (some b) }) := by
    refine h.setPool rfl rfl (hold.built hlive) (Nat.le_refl _) ?_ ?_ (h.held _)
    · intro j hj hq
      change j ∈ (l.pools (l.workers k).pool).holders
      rw [← hq]
      exact (h.fits j).holders hj
    · intro j ctx hj hq
      refine update_of_ne ?_ _ _
      apply hold.single hlive j _ (Point.ne_gone (Point.holdsQueue_of_context hj)) hq
      rintro rfl
      rw [hk] at hj
      cases hj
  have hat : (l.setPool (l.workers k).pool { l.pools (l.workers k).pool with
      stealers := update (l.pools (l.workers k).pool).stealers (l.workers k).index
        (some b) }).pools (l.workers k).pool = { l.pools (l.workers k).pool with
      stealers := update (l.pools (l.workers k).pool).stealers (l.workers k).index (some b) } :=
    update_self _ _ _
  have hmoved := hslot.replaceAt (k := k) (d := update l.deques addr (some k))
    (w := { l.workers k with point := .registered ⟨addr, b⟩ }) ?_ ?_ ?_
  · exact ⟨hmoved.queues, hmoved.deques, hmoved.held, fun j =>
      ⟨(hmoved.fits j).current, (hmoved.fits j).holders, (hmoved.fits j).built,
        (hmoved.fits j).index, (hmoved.fits j).single, (hmoved.fits j).slot⟩⟩
  · refine ⟨?_, ?_, ?_, ?_, fun _ => hold.single hlive, ?_⟩
    · have hcurrent := hold.current
      rw [hk] at hcurrent
      exact hcurrent
    · intro _
      rw [hat]
      exact hold.holders (by rw [hk]; rfl)
    · intro _
      rw [hat]
      exact hold.built hlive
    · intro _
      rw [hat]
      exact hold.index hlive
    · intro ctx hctx
      cases hctx
      rw [hat]
      exact update_self _ _ _
  · intro a
    constructor
    · intro hd
      rcases update_cases hd with ⟨heq, -⟩ | ⟨-, hold⟩
      · exact ⟨⟨addr, b⟩, rfl, heq.symm⟩
      · obtain ⟨ctx, hctx, -⟩ := (h.deques a k).mp hold
        rw [hk] at hctx
        cases hctx
    · rintro ⟨ctx, hctx, rfl⟩
      cases hctx
      exact update_self _ _ _
  · intro a j hj
    change update l.deques addr (some k) a = some j ↔ l.deques a = some j
    by_cases hne : a = addr
    · rw [hne, update_self, ha]
      exact ⟨fun heq => absurd (Option.some_inj.mp heq).symm hj, nofun⟩
    · rw [update_of_ne hne]

/-- The queue handle of a thread is dropped. -/
lemma dropQueue (h : Placed l) (hk : (l.workers k).point = .bare) : Placed (l.dropQueue k) := by
  have hmoved : Placed (l.setPoint k .watched) := by
    refine h.setPoint rfl ?_ nofun ?_
    · rw [hk]
      rfl
    · rw [hk]
      exact fun _ => nofun
  apply hmoved.setHolders
  · exact h.hasQueue (by rw [hk]; rfl)
  · intro j hqueue hj
    have hjk : j ≠ k := by
      rintro rfl
      rw [setPoint_self] at hqueue
      cases hqueue
    have hmem := (hmoved.fits j).holders hqueue
    rw [hj] at hmem
    exact (List.mem_erase_of_ne hjk).mpr hmem

/-- The sentry of a thread is dropped, and a replacement takes its index. -/
lemma respawn (h : Placed l) {j : ℕ} (hk : (l.workers k).point = .watched)
    (hlife : (l.pools (l.workers k).pool).life = .owned) (hj : (l.workers j).point = .gone) :
    Placed ((l.setPoint k .gone).spinUp (l.workers k).pool (l.workers k).index j) := by
  have hother : ∀ i, i ≠ k → (l.setPoint k .gone).workers i = l.workers i :=
    fun i hi => update_of_ne hi _ _
  have hjk : j ≠ k := by
    rintro rfl
    rw [hk] at hj
    cases hj
  have hlive : (l.workers k).point ≠ .gone := by
    rw [hk]
    exact nofun
  refine (h.ended hk).spinUp hlife ?_ ((h.fits k).index hlive) ?_
  · rw [hother j hjk]
    exact hj
  · intro i hi hpool hidx
    have hik : i ≠ k := by
      rintro rfl
      exact hi (setPoint_self _ _ _)
    rw [hother i hik] at hi hpool hidx
    exact (h.fits k).single hlive i hik hi hpool hidx

/-- No pool, no thread. -/
lemma start : Placed Layout.start where
  queues _ _ := ⟨nofun, fun h => by cases h.1⟩
  deques _ _ := ⟨nofun, fun ⟨_, h, _⟩ => by cases h⟩
  held _ h := absurd rfl h
  fits _ := ⟨rfl, nofun, fun h => absurd rfl h, fun h => absurd rfl h, fun h => absurd rfl h,
    nofun⟩

/-- The build of a pool starts its next worker. -/
lemma spinNext (h : Placed l) (hp : (l.pools p).life = .owned)
    (hk : (l.workers k).point = .gone) :
    Placed ((l.setPool p { l.pools p with spun := (l.pools p).spun + 1 }).spinUp p
      (l.pools p).spun k) := by
  have hmore : Placed (l.setPool p { l.pools p with spun := (l.pools p).spun + 1 }) := by
    refine h.setPool rfl rfl ?_ (Nat.le_succ _) ?_ (fun _ _ _ _ => rfl) (h.held p)
    · change (l.pools p).life ≠ .absent
      rw [hp]
      exact nofun
    · rintro j hj rfl
      exact (h.fits j).holders hj
  have hat : (l.setPool p { l.pools p with spun := (l.pools p).spun + 1 }).pools p =
      { l.pools p with spun := (l.pools p).spun + 1 } := update_self _ _ _
  apply hmore.spinUp
  · rw [hat]
    exact hp
  · exact hk
  · rw [hat]
    exact Nat.lt_succ_self _
  · -- the indexes in use are below the number of calls so far
    intro j hj hpool
    change (l.workers j).pool = p at hpool
    have hlt := (h.fits j).index hj
    rw [hpool] at hlt
    exact Nat.ne_of_lt hlt

/-- What is left of a pool changes, with its queue where it was. -/
lemma setLife (h : Placed l) (hp : (l.pools p).life = .owned) {life : Life} (b : Bool)
    (hlife : life.hasQueue = true) :
    Placed (l.setPool p { l.pools p with life := life, shutdown := b }) := by
  refine h.setPool rfl ?_ ?_ (Nat.le_refl _) ?_ (fun _ _ _ _ => rfl) (fun _ => hlife)
  · rw [hp]
    exact hlife
  · rintro rfl
    cases hlife
  · rintro j hj rfl
    exact (h.fits j).holders hj

/-- Every step keeps the invariant. -/
theorem step {e : Event} (h : Placed l) (hm : Move l e l') : Placed l' := by
  cases hm with
  | build hp ha => exact h.build _ hp ha
  | spinUp hp hspun hk => exact h.spinNext hp hk
  | @shutdown p hp =>
    have hlife : Placed (l.setPool p { l.pools p with life := .owned, shutdown := true }) :=
      h.setLife hp true rfl
    rwa [← hp] at hlife
  | release hp => exact h.setLife hp _ rfl
  | destroy hp hholders => exact h.destroy hp hholders
  | register hk ha hb => exact h.registerWorker _ hk ha
  | enter hk => exact h.enterWorkerScope hk
  | load hk => exact h.inScope _ (by rw [hk]; rfl) rfl rfl
  | finish hk => exact h.inScope _ (by rw [hk]; rfl) rfl rfl
  | exit hk hshutdown => exact h.inScope false (by rw [hk]; rfl) rfl rfl
  | unwind hk => exact h.inScope _ hk rfl rfl
  | dropScope hk => exact h.dropScope hk
  | dropContext hk => exact h.dropContext hk
  | dropQueue hk => exact h.dropQueue hk
  | respawn hk hsentry hp hj => exact h.respawn hk hp hj
  | ended hk => exact h.ended hk

end Placed

/-! ## The fast path -/

/-- **A handle leads to the context of the calling thread.**  The self-spawn path is taken just
inside a worker scope of the queue, and writes the deque of the context the scope was entered
with. -/
theorem Placed.selfSpawn_iff (h : Placed l) (hp : (l.pools p).life.hasQueue = true)
    {t : ℕ ⊕ F} {a : ℕ} : l.selfSpawn t p = some a ↔ ∃ ctx, l.Inside t p ctx ∧ ctx.addr = a := by
  unfold Layout.selfSpawn
  cases t with
  | inr f =>
    constructor
    · intro hnone
      cases hnone
    · rintro ⟨ctx, ⟨k, hk, -⟩, -⟩
      cases hk
  | inl k =>
    simp only [Layout.currentWorker, (h.fits k).current]
    constructor
    · intro hself
      cases hscope : (l.workers k).point.scope with
      | none =>
        rw [hscope] at hself
        cases hself
      | some ctx =>
        rw [hscope] at hself
        obtain ⟨haddr, hself⟩ := Option.ite_none_right_eq_some.mp hself
        have hqueue := Point.holdsQueue_of_context (Point.context_of_scope hscope)
        have hpool := h.addr_inj (h.hasQueue hqueue) hp haddr
        exact ⟨ctx, ⟨k, rfl, hpool, hscope⟩, Option.some_inj.mp hself⟩
    · rintro ⟨ctx, ⟨j, hj, rfl, hscope⟩, rfl⟩
      cases hj
      rw [hscope]
      exact if_pos rfl

/-- The deque of a context is where its address says. -/
lemma Placed.dequeAt_eq (h : Placed l) {ctx : WorkerContext}
    (hk : (l.workers k).point.context = some ctx) : l.dequeAt ctx.addr = some ctx := by
  unfold Layout.dequeAt
  rw [(h.deques ctx.addr k).mpr ⟨ctx, hk, rfl⟩]
  exact hk

end Handles

end AffinityPool
