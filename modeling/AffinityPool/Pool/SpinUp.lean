import AffinityPool.Queue.Machine
import Mathlib.Data.List.Range

/-!
# `Threadpool::spin_up`

`spin_up` counts the new thread, asks the operating system for it and stores its handle.
The closure of the thread owns a `Sentry`, so when the thread cannot be created, the closure
is dropped inside the failing call and its sentry, still active, calls `spin_up` again.

A run of `spin_up` reads the outcomes of the creation attempts it makes from a list, and is
undefined on a list that ends before it returns.  It returns exactly when some attempt
succeeds (`spinUp_returns_iff`); but every failed attempt leaves a thread counted that does
not exist, so a call survives only a success of its first attempt (`survives_iff`).
-/

namespace AffinityPool

variable {H : Type}

/-- The part of `Data` that `spin_up` uses; `H` is the type of the join handles. -/
structure Data (H : Type) where
  name : Option String
  stackSize : Option ℕ
  threadCount : ℕ
  threadHandles : List H

/-- The options of a `std::thread::Builder`. -/
structure ThreadBuilder where
  name : Option String
  stackSize : Option ℕ

/-- What `std::thread::Builder::spawn` reports. -/
inductive SpawnResult (H : Type)
  | started (h : H)
  /-- No thread was created, and the closure has been dropped. -/
  | failed

/-- A creation attempt of `spin_up`, with the shared data before it and after it. -/
structure Attempt (H : Type) where
  index : ℕ
  builder : ThreadBuilder
  failed : Bool
  before : Data H
  after : Data H

/-- `Sentry`; its weak reference can be upgraded as long as some call of `spin_up` is under way,
since that call owns the data. -/
structure Sentry where
  active : Bool
  index : ℕ

/-- `Sentry::new`. -/
def Sentry.new (index : ℕ) : Sentry where
  active := true
  index := index

/-- `Sentry::drop` on live data, given `spin_up`. -/
def Sentry.drop (spinUp : Data H → ℕ → Option (Data H × List (Attempt H))) (s : Sentry)
    (data : Data H) : Option (Data H × List (Attempt H)) :=
  if s.active then spinUp data s.index else some (data, [])

/-- The builder of a new worker thread. -/
def Data.builder (data : Data H) : ThreadBuilder where
  name := data.name
  stackSize := data.stackSize

/-- `thread_count.fetch_add(1)`. -/
def Data.count (data : Data H) : Data H := { data with threadCount := fetchAdd data.threadCount }

/-- `thread_handles.lock().push(handle)`. -/
def Data.store (data : Data H) (h : H) : Data H :=
  { data with threadHandles := data.threadHandles ++ [h] }

/-- `Threadpool::spin_up` with the outcomes of its attempts: the shared data when it returns, and
the attempts it has made. -/
def spinUp : List (SpawnResult H) → Data H → ℕ → Option (Data H × List (Attempt H))
  | [], _, _ => none
  | .started h :: _, data, index =>
    let stored := data.count.store h
    some (stored, [⟨index, data.builder, false, data, stored⟩])
  | .failed :: rest, data, index =>
    -- the sentry is dropped with the closure, before the attempt reports its failure
    ((Sentry.new index).drop (spinUp rest) data.count).map fun (data', attempts) =>
      (data', ⟨index, data.builder, true, data, data.count⟩ :: attempts)

/-- `spin_up` for the indices of a new pool, one after the other, when every thread starts. -/
def spinUpAll (data : Data H) : List (ℕ × H) → Option (Data H)
  | [] => some data
  | (index, h) :: rest => (spinUp [.started h] data index).bind fun r => spinUpAll r.1 rest

/-! ## Runs of `spin_up` -/

/-- The first `n` outcomes of a sequence. -/
def firstResults (o : ℕ → SpawnResult H) (n : ℕ) : List (SpawnResult H) := (List.range n).map o

lemma firstResults_succ (o : ℕ → SpawnResult H) (n : ℕ) :
    firstResults o (n + 1) = o 0 :: firstResults (fun k => o (k + 1)) n := by
  unfold firstResults
  rw [List.range_succ_eq_map, List.map_cons, List.map_map]
  rfl

/-- A failed attempt makes another one on the data it has counted itself in. -/
lemma spinUp_failed_cons (rest : List (SpawnResult H)) (data : Data H) (index : ℕ) :
    spinUp (.failed :: rest) data index =
      (spinUp rest data.count index).map fun (data', attempts) =>
        (data', ⟨index, data.builder, true, data, data.count⟩ :: attempts) := rfl

/-- A call of `spin_up` returns exactly when some attempt succeeds. -/
lemma spinUp_isSome_iff (outcomes : List (SpawnResult H)) (data : Data H) (index : ℕ) :
    (spinUp outcomes data index).isSome ↔ ∃ h, .started h ∈ outcomes := by
  induction outcomes generalizing data with
  | nil => simp [spinUp]
  | cons o rest ih =>
    cases o with
    | started h => exact iff_of_true rfl ⟨h, List.mem_cons_self⟩
    | failed =>
      rw [spinUp_failed_cons, Option.isSome_map, ih]
      simp only [List.mem_cons, reduceCtorEq, false_or]

/-- The same for a sequence of outcomes without end. -/
theorem spinUp_returns_iff (o : ℕ → SpawnResult H) (data : Data H) (index : ℕ) :
    (∃ n, (spinUp (firstResults o n) data index).isSome) ↔ ∃ k h, o k = .started h := by
  simp only [spinUp_isSome_iff, firstResults, List.mem_map, List.mem_range]
  constructor
  · rintro ⟨n, h, k, -, hk⟩
    exact ⟨k, h, hk⟩
  · rintro ⟨k, h, hk⟩
    exact ⟨k + 1, h, k, k.lt_succ_self, hk⟩

/-! ## Thread-creation failure -/

/-- The attempt leaves the count and the handles as they were before it. -/
def Attempt.Restores (a : Attempt H) : Prop :=
  a.after.threadCount = a.before.threadCount ∧ a.after.threadHandles = a.before.threadHandles

/-- `spin_up` returns after finitely many attempts, and those that fail leave no trace. -/
def Survives (o : ℕ → SpawnResult H) (data : Data H) (index : ℕ) : Prop :=
  ∃ n data' attempts, spinUp (firstResults o n) data index = some (data', attempts) ∧
    ∀ a ∈ attempts, a.failed = true → a.Restores

/-- Counting a thread changes the counter. -/
lemma fetchAdd_ne (n : ℕ) : fetchAdd n ≠ n := by
  unfold fetchAdd usizeBound
  omega

/-- A failed attempt is never without a trace. -/
lemma Attempt.not_restores {a : Attempt H} (h : a.after = a.before.count) : ¬ a.Restores := by
  rintro ⟨hcount, -⟩
  rw [h] at hcount
  exact fetchAdd_ne _ hcount

/-- **Thread-creation failure.**  A call of `spin_up` survives the outcomes of its attempts
exactly when the first one is a success. -/
theorem survives_iff (o : ℕ → SpawnResult H) (data : Data H) (index : ℕ) :
    Survives o data index ↔ ∃ h, o 0 = .started h := by
  constructor
  · rintro ⟨n, data', attempts, hrun, hrestores⟩
    cases n with
    | zero => cases hrun
    | succ n =>
      rw [firstResults_succ] at hrun
      cases ho : o 0 with
      | started h => exact ⟨h, rfl⟩
      | failed =>
        rw [ho, spinUp_failed_cons, Option.map_eq_some_iff] at hrun
        obtain ⟨r, -, heq⟩ := hrun
        cases heq
        exact absurd (hrestores _ List.mem_cons_self rfl) (Attempt.not_restores rfl)
  · rintro ⟨h, ho⟩
    refine ⟨1, data.count.store h, [⟨index, data.builder, false, data, data.count.store h⟩],
      ?_, ?_⟩
    · rw [firstResults_succ, ho]
      rfl
    · intro a ha hfailed
      rw [List.mem_singleton.mp ha] at hfailed
      cases hfailed

/-- When no thread can be created, `spin_up` never returns; when only the first attempt fails, it
returns with two threads counted and one handle. -/
theorem not_survives_failed :
    ¬ Survives (fun _ => .failed) (⟨none, none, 0, []⟩ : Data ℕ) 0 ∧
      (∀ n, spinUp (firstResults (fun _ => .failed) n) (⟨none, none, 0, []⟩ : Data ℕ) 0 = none) ∧
      ¬ Survives (fun k => if k = 0 then .failed else .started k) ⟨none, none, 0, []⟩ 0 := by
  refine ⟨?_, ?_, ?_⟩
  · intro h
    obtain ⟨h, hh⟩ := (survives_iff _ _ _).mp h
    cases hh
  · intro n
    by_contra hne
    obtain ⟨k, h, hk⟩ := (spinUp_returns_iff _ _ _).mp ⟨n, Option.isSome_iff_ne_none.mpr hne⟩
    cases hk
  · intro h
    obtain ⟨h, hh⟩ := (survives_iff _ _ _).mp h
    cases hh

end AffinityPool
