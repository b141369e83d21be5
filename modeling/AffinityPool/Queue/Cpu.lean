import AffinityPool.Queue.Shape

/-!
# Producer routing

`cpu.rs`: a producer picks its injector shard from a hash of its thread ID that is cached in
a thread-local, together with the number of consecutive pushes to the preferred shard.
After `SPILL_THRESHOLD` of them the pushes rotate to the neighbouring shards.
-/

namespace AffinityPool

/-- Consecutive pushes to the same preferred shard before producer-side spill. -/
def SPILL_THRESHOLD : ℕ := 8

/-- `u32::MAX`. -/
def u32Max : ℕ := 2 ^ 32 - 1

/-- The thread-local routing state of a producer. -/
structure ProducerRoute where
  /-- The cached hash of the thread ID. -/
  shardHint : ℕ
  /-- The preferred shard of the latest push. -/
  lastPreferred : ℕ
  /-- The number of consecutive pushes that preferred it. -/
  consecutive : ℕ
  deriving DecidableEq

/-- `u32::saturating_add`. -/
def saturatingAdd (x y : ℕ) : ℕ := min (x + y) u32Max

/-- The routing state of a thread, hashing the thread ID on first use. -/
def ProducerRoute.get (hash : ℕ) : Option ProducerRoute → ProducerRoute
  | some r => r
  | none => { shardHint := hash, lastPreferred := usizeBound - 1, consecutive := 0 }

/-- The value `route_shard` returns: the preferred shard up to the threshold, then the
shards after it in turn. -/
def spillShard (mask preferred newCount : ℕ) : ℕ :=
  if newCount ≤ SPILL_THRESHOLD then preferred
  else (preferred + (newCount - SPILL_THRESHOLD)) &&& mask

/-- `route_shard`: the new value of the thread-local and the shard to push to. -/
def routeShard (mask hash : ℕ) (cell : Option ProducerRoute) : ProducerRoute × ℕ :=
  let route := ProducerRoute.get hash cell
  let preferred := route.shardHint &&& mask
  let newCount :=
    if route.lastPreferred = preferred then saturatingAdd route.consecutive 1 else 1
  let route' := { route with lastPreferred := preferred, consecutive := newCount }
  (route', spillShard mask preferred newCount)

/-- The shard returned for a preferred shard in range is in range. -/
lemma spillShard_le {mask preferred : ℕ} (h : preferred ≤ mask) (newCount : ℕ) :
    spillShard mask preferred newCount ≤ mask := by
  unfold spillShard
  split
  · exact h
  · exact Nat.and_le_right

/-- The routed shard is in range. -/
lemma routeShard_le (mask hash : ℕ) (cell : Option ProducerRoute) :
    (routeShard mask hash cell).2 ≤ mask :=
  spillShard_le Nat.and_le_right _

/-- The injector a foreign push of `Queue::push` targets: shard `0` of a single-shard queue,
the routed shard otherwise. -/
def Shape.target (q : Shape) (hash : ℕ) (cell : Option ProducerRoute) : q.Shard :=
  if q.mask = 0 then 0
  else ⟨(routeShard q.mask hash cell).2, Nat.lt_succ_of_le (routeShard_le _ _ _)⟩

end AffinityPool
