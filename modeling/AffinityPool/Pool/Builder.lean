import AffinityPool.Pool.Lifecycle

/-!
# `Builder`

A builder is made by any sequence of calls of its setters.  What it builds depends on the last
argument each setter was given, in whatever order the setters were called
(`Builder.after_eq`).  `build` then fixes the shape of the queue and starts the workers one after
the other; some of the attempts to create a thread may fail.

Whatever was asked for, the pool has between one worker and `MAX_THREADS`, and at most as many
shards.  `build` returns exactly when some attempt succeeds for every index; then one thread
runs for each of them (`build_spec`).
-/

namespace AffinityPool

variable {H : Type}

/-- `Builder`. -/
structure Builder where
  numThreads : Option ℕ
  threadName : Option String
  threadStackSize : Option ℕ
  threadPerCore : Bool
  shards : Option ℕ
  deriving DecidableEq

/-- The part of a `Threadpool` that its builder decides. -/
structure Threadpool (H : Type) where
  data : Data H
  numThreads : ℕ
  queue : Shape

/-- A call of a setter. -/
inductive Setter
  | workerThreads (n : ℕ)
  | threadName (s : String)
  | threadStackSize (n : ℕ)
  | threadPerCore (enabled : Bool)
  | shards (n : ℕ)
  deriving DecidableEq

namespace Setter

/-- The builder after the call. -/
def apply (b : Builder) : Setter → Builder
  | workerThreads n => { b with numThreads := some n }
  | threadName s => { b with threadName := some s }
  | threadStackSize n => { b with threadStackSize := some n }
  | threadPerCore enabled => { b with threadPerCore := enabled }
  | shards n => { b with shards := some n }

/-- The argument of a call of `worker_threads`; the other setters have their own selectors. -/
def workersArg : Setter → Option ℕ
  | workerThreads n => some n
  | _ => none

def nameArg : Setter → Option String
  | threadName s => some s
  | _ => none

def stackSizeArg : Setter → Option ℕ
  | threadStackSize n => some n
  | _ => none

def perCoreArg : Setter → Option Bool
  | threadPerCore enabled => some enabled
  | _ => none

def shardsArg : Setter → Option ℕ
  | shards n => some n
  | _ => none

end Setter

/-- The argument of the last call that the selector picks. -/
def latest {V : Type} (select : Setter → Option V) (calls : List Setter) : Option V :=
  calls.reverse.findSome? select

/-- One more call. -/
lemma latest_concat {V : Type} (select : Setter → Option V) (calls : List Setter) (c : Setter) :
    latest select (calls ++ [c]) = (select c).or (latest select calls) := by
  simp only [latest, List.reverse_append, List.reverse_singleton, List.singleton_append,
    List.findSome?_cons]
  cases select c <;> rfl

namespace Builder

/-- `Builder::new`. -/
def new : Builder where
  numThreads := none
  threadName := none
  threadStackSize := none
  threadPerCore := false
  shards := none

/-- The builder after a sequence of calls. -/
def after (calls : List Setter) : Builder := calls.foldl Setter.apply new

/-- **The order of the setters does not matter.**  A builder holds the last argument of every
setter. -/
theorem after_eq (calls : List Setter) :
    after calls =
      { numThreads := latest Setter.workersArg calls
        threadName := latest Setter.nameArg calls
        threadStackSize := latest Setter.stackSizeArg calls
        threadPerCore := (latest Setter.perCoreArg calls).getD false
        shards := latest Setter.shardsArg calls } := by
  induction calls using List.reverseRec with
  | nil => rfl
  | append_singleton calls c ih =>
    have hstep : after (calls ++ [c]) = c.apply (after calls) := by
      simp only [after, List.foldl_append, List.foldl_cons, List.foldl_nil]
    rw [hstep, ih]
    simp only [latest_concat]
    cases c <;> rfl

/-- The number of workers `build` decides on, on a machine with the given number of CPUs. -/
def threads (b : Builder) (cpus : ℕ) : ℕ :=
  match b.numThreads with
  | some n => clamp n 1 MAX_THREADS
  | none => if b.threadPerCore then clamp cpus 1 MAX_THREADS else 2

/-- The number of workers is in range. -/
lemma threads_range (b : Builder) (cpus : ℕ) :
    0 < b.threads cpus ∧ b.threads cpus ≤ MAX_THREADS := by
  unfold threads
  split
  · exact Lifecycle.clamp_workers _
  · split
    · exact Lifecycle.clamp_workers _
    · decide

/-- The loop of `build` over the indices of the workers, with the outcomes of the creation
attempts for each of them. -/
def startThreads (outcomes : ℕ → List (SpawnResult H)) :
    List ℕ → Data H → Option (Data H × List (Attempt H))
  | [], data => some (data, [])
  | index :: rest, data =>
    (spinUp (outcomes index) data index).bind fun (data', attempts) =>
      (startThreads outcomes rest data').map fun (data'', more) => (data'', attempts ++ more)

/-- `Builder::build`. -/
def build (b : Builder) (cpus : ℕ) (outcomes : ℕ → List (SpawnResult H)) :
    Option (Threadpool H × List (Attempt H)) :=
  let threads := b.threads cpus
  let data : Data H :=
    { name := b.threadName, stackSize := b.threadStackSize, threadCount := 0, threadHandles := [] }
  let queue := Shape.new threads b.shards (b.threads_range cpus).1 (b.threads_range cpus).2
  (startThreads outcomes (List.range threads) data).map fun (data', attempts) =>
    ({ data := data', numThreads := threads, queue := queue }, attempts)

end Builder

/-- `Threadpool::new`. -/
def Threadpool.new (workers : ℕ) (outcomes : ℕ → List (SpawnResult H)) :
    Option (Threadpool H × List (Attempt H)) :=
  let threads := clamp workers 1 MAX_THREADS
  let data : Data H := { name := none, stackSize := none, threadCount := 0, threadHandles := [] }
  let queue := Shape.new threads none (Lifecycle.clamp_workers workers).1
    (Lifecycle.clamp_workers workers).2
  (Builder.startThreads outcomes (List.range threads) data).map fun (data', attempts) =>
    ({ data := data', numThreads := threads, queue := queue }, attempts)

/-- `Threadpool::default`. -/
def Threadpool.default (cpus : ℕ) (outcomes : ℕ → List (SpawnResult H)) :
    Option (Threadpool H × List (Attempt H)) := Threadpool.new cpus outcomes

/-! ## What the loop leaves -/

/-- The attempts that have started a thread for the index. -/
def starts (index : ℕ) (attempts : List (Attempt H)) : ℕ :=
  attempts.countP fun a => a.index = index ∧ a.failed = false

/-- What starting threads for the given indices makes of the data. -/
structure Started (indices : List ℕ) (data data' : Data H) (attempts : List (Attempt H)) :
    Prop where
  builder : data'.builder = data.builder
  counted : data'.threadCount = (data.threadCount + attempts.length) % usizeBound
  stored : data'.threadHandles.length = data.threadHandles.length + indices.length
  options : ∀ a ∈ attempts, a.builder = data.builder
  once : ∀ index, starts index attempts = indices.count index

/-- A call of `spin_up` starts one thread. -/
lemma started_of_spinUp {outcomes : List (SpawnResult H)} {data data' : Data H} {index : ℕ}
    {attempts : List (Attempt H)} (h : spinUp outcomes data index = some (data', attempts)) :
    Started [index] data data' attempts := by
  induction outcomes generalizing data data' attempts with
  | nil => cases h
  | cons o rest ih =>
    cases o with
    | started x =>
      cases h
      refine ⟨rfl, rfl, ?_, ?_, fun i => ?_⟩
      · simp only [Data.store, Data.count, List.length_append, List.length_singleton]
      · intro a ha
        rw [List.mem_singleton.mp ha]
      · by_cases hi : index = i <;> simp [starts, hi]
    | failed =>
      rw [spinUp_failed_cons, Option.map_eq_some_iff] at h
      obtain ⟨⟨data₁, attempts₁⟩, hrun, heq⟩ := h
      cases heq
      have hrest := ih hrun
      refine ⟨hrest.builder, ?_, hrest.stored, ?_, fun i => ?_⟩
      · rw [hrest.counted, List.length_cons]
        simp only [Data.count, fetchAdd]
        rw [Nat.mod_add_mod]
        congr 1
        omega
      · intro a ha
        rcases List.mem_cons.mp ha with rfl | ha
        · rfl
        · exact hrest.options a ha
      · rw [← hrest.once i]
        simp [starts]

/-- **Run lemma.**  The loop starts one thread for every index. -/
theorem started_of_startThreads {outcomes : ℕ → List (SpawnResult H)} {indices : List ℕ}
    {data data' : Data H} {attempts : List (Attempt H)}
    (hcount : data.threadCount < usizeBound)
    (h : Builder.startThreads outcomes indices data = some (data', attempts)) :
    Started indices data data' attempts := by
  induction indices generalizing data data' attempts with
  | nil =>
    cases h
    refine ⟨rfl, (Nat.mod_eq_of_lt hcount).symm, rfl, fun a ha => ?_, fun i => rfl⟩
    cases ha
  | cons index rest ih =>
    simp only [Builder.startThreads, Option.bind_eq_some_iff, Option.map_eq_some_iff] at h
    obtain ⟨⟨data₁, attempts₁⟩, hfirst, ⟨data₂, attempts₂⟩, hrest, heq⟩ := h
    cases heq
    have hone := started_of_spinUp hfirst
    have hmore := ih (by rw [hone.counted]; exact Nat.mod_lt _ (by decide)) hrest
    refine ⟨hmore.builder.trans hone.builder, ?_, ?_, ?_, fun i => ?_⟩
    · rw [hmore.counted, hone.counted, Nat.mod_add_mod, List.length_append, Nat.add_assoc]
    · rw [hmore.stored, hone.stored]
      simp only [List.length_cons, List.length_nil]
      omega
    · intro a ha
      rcases List.mem_append.mp ha with ha | ha
      · exact hone.options a ha
      · exact (hmore.options a ha).trans hone.builder
    · have hi := hone.once i
      have hi' := hmore.once i
      simp only [starts, List.countP_append] at hi hi' ⊢
      rw [hi, hi', List.count_cons, List.count_cons, List.count_nil]
      omega

/-! ## When the loop gets through -/

/-- The loop gets through exactly when some attempt succeeds for every index. -/
theorem startThreads_isSome_iff (outcomes : ℕ → List (SpawnResult H)) (indices : List ℕ)
    (data : Data H) :
    (Builder.startThreads outcomes indices data).isSome ↔
      ∀ index ∈ indices, ∃ h, .started h ∈ outcomes index := by
  induction indices generalizing data with
  | nil => exact iff_of_true rfl fun index hindex => absurd hindex List.not_mem_nil
  | cons index rest ih =>
    rw [List.forall_mem_cons, ← spinUp_isSome_iff (outcomes index) data index]
    unfold Builder.startThreads
    cases hfirst : spinUp (outcomes index) data index with
    | none => simp
    | some r =>
      obtain ⟨data', attempts⟩ := r
      rw [Option.bind_some, Option.isSome_map, ih data']
      simp

/-! ## What is built -/

/-- What `build` returns after a sequence of setter calls, and the attempts it has made. -/
structure Built (calls : List Setter) (cpus : ℕ) (pool : Threadpool H)
    (attempts : List (Attempt H)) : Prop where
  workers : pool.numThreads =
    match latest Setter.workersArg calls with
    | some n => clamp n 1 MAX_THREADS
    | none =>
      if (latest Setter.perCoreArg calls).getD false then clamp cpus 1 MAX_THREADS else 2
  range : 0 < pool.numThreads ∧ pool.numThreads ≤ MAX_THREADS
  /-- The queue has one steal slot for every worker. -/
  queue : pool.queue.numWorkers = pool.numThreads
  shards : pool.queue.mask + 1 = numShards pool.numThreads (latest Setter.shardsArg calls)
  shards_lt : pool.queue.mask + 1 < 2 * pool.numThreads
  shards_le : pool.queue.mask + 1 ≤ MAX_THREADS
  /-- Every attempt uses the last name and the last stack size. -/
  options : ∀ a ∈ attempts,
    a.builder =
      { name := latest Setter.nameArg calls, stackSize := latest Setter.stackSizeArg calls }
  once : ∀ index, starts index attempts = if index < pool.numThreads then 1 else 0
  stored : pool.data.threadHandles.length = pool.numThreads
  /-- Failed attempts stay counted. -/
  counted : pool.data.threadCount = attempts.length % usizeBound

/-- The number of workers `build` decides on, after a sequence of setter calls. -/
lemma Builder.threads_after (calls : List Setter) (cpus : ℕ) :
    (Builder.after calls).threads cpus =
      match latest Setter.workersArg calls with
      | some n => clamp n 1 MAX_THREADS
      | none =>
        if (latest Setter.perCoreArg calls).getD false then clamp cpus 1 MAX_THREADS else 2 := by
  rw [Builder.after_eq]
  rfl

/-- Whatever `build` returns is as it should be. -/
lemma built_of_build {calls : List Setter} {cpus : ℕ} {outcomes : ℕ → List (SpawnResult H)}
    {pool : Threadpool H} {attempts : List (Attempt H)}
    (h : (Builder.after calls).build cpus outcomes = some (pool, attempts)) :
    Built calls cpus pool attempts := by
  have hrange := (Builder.after calls).threads_range cpus
  simp only [Builder.build, Option.map_eq_some_iff] at h
  obtain ⟨⟨data, made⟩, hrun, heq⟩ := h
  cases heq
  have hstarted := started_of_startThreads (show (0 : ℕ) < usizeBound by decide) hrun
  have hshards : (Builder.after calls).shards = latest Setter.shardsArg calls := by
    rw [Builder.after_eq]
  have hmask : ∀ n : ℕ, 0 < numShards n (Builder.after calls).shards := by
    intro n
    obtain ⟨b, hb⟩ := numShards_pow n (Builder.after calls).shards
    rw [hb]
    exact Nat.two_pow_pos b
  have hcount : ∀ n : ℕ, numShards n (Builder.after calls).shards - 1 + 1 =
      numShards n (latest Setter.shardsArg calls) := by
    intro n
    rw [Nat.sub_add_cancel (hmask n), hshards]
  refine
    { workers := Builder.threads_after calls cpus
      range := hrange
      queue := rfl
      shards := hcount _
      shards_lt := ?_
      shards_le := ?_
      options := ?_
      once := ?_
      stored := ?_
      counted := ?_ }
  · exact (hcount _).trans_lt (numShards_lt hrange.1 _)
  · exact (hcount _).trans_le (numShards_le hrange.1 hrange.2 _)
  · intro a ha
    rw [hstarted.options a ha, Builder.after_eq]
    rfl
  · intro index
    rw [hstarted.once index, List.count_range]
  · rw [hstarted.stored, List.length_range]
    exact Nat.zero_add _
  · rw [hstarted.counted]
    exact congrArg (· % usizeBound) (Nat.zero_add _)

/-- **What `build` makes of any sequence of setter calls.**  It returns exactly when some attempt
succeeds for every worker, and then it has started one thread for each of them. -/
theorem build_spec (calls : List Setter) (cpus : ℕ) (outcomes : ℕ → List (SpawnResult H)) :
    (((Builder.after calls).build cpus outcomes).isSome ↔
      ∀ index < (Builder.after calls).threads cpus, ∃ h, .started h ∈ outcomes index) ∧
    ∀ pool attempts, (Builder.after calls).build cpus outcomes = some (pool, attempts) →
      Built calls cpus pool attempts := by
  refine ⟨?_, fun pool attempts h => built_of_build h⟩
  simp only [Builder.build, Option.isSome_map]
  rw [startThreads_isSome_iff]
  simp only [List.mem_range]

/-- `Threadpool::new` is the builder with the number of workers. -/
theorem Threadpool.new_eq_build (workers cpus : ℕ) (outcomes : ℕ → List (SpawnResult H)) :
    Threadpool.new workers outcomes =
      (Builder.after [.workerThreads workers]).build cpus outcomes := rfl

/-- `Threadpool::default` is the builder with a worker for every core. -/
theorem Threadpool.default_eq_build (cpus : ℕ) (outcomes : ℕ → List (SpawnResult H)) :
    Threadpool.default cpus outcomes =
      (Builder.after [.threadPerCore true]).build cpus outcomes := rfl

end AffinityPool
