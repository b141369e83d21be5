import AffinityPool.Foundation.Xorshift
import AffinityPool.Queue.Machine

/-!
# The random streams of the workers

Every worker walks its victims from a start that it draws from a stream of its own, so that
idle workers do not convoy on one victim.  The stream is an xorshift generator seeded with
the index of the worker: the seed is odd, so the stream never falls into zero, and the seeds of
all workers a pool can have are different.  As the generator permutes its states, two
workers that have drawn equally often are never in the same state (`streams_apart`).
-/

namespace AffinityPool

open Transition System

variable {q : Shape} {P R : Type}

/-- `next_rand` is an xorshift generator. -/
lemma nextRand_toBitVec (x : UInt32) :
    (nextRand x).toBitVec = Xorshift.next 13 17 5 x.toBitVec := rfl

/-- The state of the stream of worker `idx` after `k` draws. -/
def stream (idx k : ℕ) : UInt32 := nextRand^[k] (rngSeed idx)

lemma stream_toBitVec (idx k : ℕ) :
    (stream idx k).toBitVec = (Xorshift.next 13 17 5)^[k] (rngSeed idx).toBitVec := by
  induction k with
  | zero => rfl
  | succ k ih =>
    rw [Function.iterate_succ_apply', ← ih, ← nextRand_toBitVec, stream,
      Function.iterate_succ_apply', stream]

/-- The seed is the product with the low bit forced. -/
lemma rngSeed_toNat (idx : ℕ) : (rngSeed idx).toNat = idx * 0x9E3779B9 % 2 ^ 32 ||| 1 := by
  simp [rngSeed]

/-- Seeds are not zero. -/
lemma rngSeed_ne_zero (idx : ℕ) : rngSeed idx ≠ 0 := by
  intro h
  have hnat := congrArg UInt32.toNat h
  rw [rngSeed_toNat] at hnat
  have hone : 1 ≤ idx * 0x9E3779B9 % 2 ^ 32 ||| 1 := Nat.right_le_or
  rw [hnat] at hone
  exact absurd hone (by decide)

/-- The multiplier can be undone. -/
lemma mul_seed_cancel {i : ℕ} (hi : i < 2 ^ 32) :
    i * 0x9E3779B9 % 2 ^ 32 * 340573321 % 2 ^ 32 = i := by
  rw [Nat.mod_mul_mod]
  omega

/-- Small numbers whose products agree but for the low bit are the same: one more would put them
as far apart as the inverse of the multiplier. -/
lemma eq_of_halves {i j x y : ℕ} (hi : i < MAX_THREADS) (hj : j < MAX_THREADS)
    (hx : x * 340573321 % 2 ^ 32 = i) (hy : y * 340573321 % 2 ^ 32 = j) (h : x / 2 = y / 2) :
    i = j := by
  have hmax : MAX_THREADS = 512 := rfl
  rcases (show x = y ∨ x = y + 1 ∨ y = x + 1 by omega) with rfl | rfl | rfl <;> omega

/-- Different workers have different seeds. -/
lemma rngSeed_inj {i j : ℕ} (hi : i < MAX_THREADS) (hj : j < MAX_THREADS)
    (h : rngSeed i = rngSeed j) : i = j := by
  have hmax : MAX_THREADS = 512 := rfl
  refine eq_of_halves hi hj (mul_seed_cancel (by omega)) (mul_seed_cancel (by omega)) ?_
  have hnat := congrArg (fun x => x.toNat / 2) h
  simpa only [rngSeed_toNat, Nat.or_div_two, Nat.reduceDiv, Nat.or_zero] using hnat

/-- A stream never falls into zero. -/
lemma stream_ne_zero (idx k : ℕ) : stream idx k ≠ 0 := by
  intro h
  have hzero := congrArg UInt32.toBitVec h
  rw [stream_toBitVec] at hzero
  refine Xorshift.iterate_next_ne_zero (by decide) (by decide) (by decide) ?_ k hzero
  intro hseed
  exact rngSeed_ne_zero idx (UInt32.toBitVec_inj.mp hseed)

/-- The streams of two workers are in different states after equally many draws. -/
lemma stream_ne {i j : ℕ} (hi : i < MAX_THREADS) (hj : j < MAX_THREADS) (hne : i ≠ j) (k : ℕ) :
    stream i k ≠ stream j k := by
  intro h
  have hbits := congrArg UInt32.toBitVec h
  rw [stream_toBitVec, stream_toBitVec] at hbits
  refine Xorshift.iterate_next_ne (by decide) (by decide) (by decide) ?_ k hbits
  intro hseed
  exact hne (rngSeed_inj hi hj (UInt32.toBitVec_inj.mp hseed))

/-! ## The draws of a scan -/

section Scans

variable {i : q.Worker} {b : Probe} {o : Steal} {st st' : Store q R} {sc : Scan q}
  {res : ScanResult q R}

/-- The walk over the other workers draws once or not at all. -/
lemma enterPeers_rng (i : q.Worker) (b : Probe) (contended : Bool) (clear : List (Victim q))
    (x : UInt32) : ∃ k, (enterPeers (R := R) i b contended clear x).2 = nextRand^[k] x := by
  unfold enterPeers
  split
  · dsimp only
    split <;> exact ⟨1, rfl⟩
  · exact ⟨0, rfl⟩

/-- The end of a walk draws for the walks that follow. -/
lemma Pass.next_rng (p : Pass q) (i : q.Worker) (b : Probe) (x : UInt32) :
    ∃ k, (p.next (R := R) i b x).2 = nextRand^[k] x := by
  unfold Pass.next
  split
  · exact ⟨0, rfl⟩
  · split
    · unfold enterInjectors
      split
      · dsimp only
        split
        · exact ⟨1, rfl⟩
        · obtain ⟨k, hk⟩ := enterPeers_rng (R := R) i b p.contended p.clear (nextRand x)
          exact ⟨k + 1, hk⟩
      · exact enterPeers_rng i b p.contended p.clear x
    · exact enterPeers_rng i b p.contended p.clear x
    · exact ⟨0, rfl⟩

lemma Store.rng_setQueue (st : Store q R) (v : Victim q) (xs : List R) :
    (st.setQueue v xs).rng = st.rng := by
  cases v <;> rfl

/-- A step of a scan draws from the stream of its worker. -/
lemma ScanMove.rng_eq (h : ScanMove i b o st sc st' res) :
    ∃ k, st'.rng = Function.update st.rng i (nextRand^[k] (st.rng i)) := by
  have hsame : ∃ k, st.rng = Function.update st.rng i (nextRand^[k] (st.rng i)) :=
    ⟨0, (Function.update_eq_self i st.rng).symm⟩
  cases h with
  | start h | access p a => exact hsame
  | pop h => simpa only [Store.rng_setQueue] using hsame
  | batch ho ha h => simpa only [Store.rng_setQueue] using hsame
  | miss h =>
    obtain ⟨k, hk⟩ := Pass.next_rng (R := R) _ i b (st.rng i)
    exact ⟨k, congrArg (Function.update st.rng i) hk⟩
  | retry p =>
    obtain ⟨k, hk⟩ := Pass.next_rng (R := R) p.retry i b (st.rng i)
    exact ⟨k, congrArg (Function.update st.rng i) hk⟩

end Scans

/-! ## Runs -/

section Runs

variable [DecidableEq P] {t : Thread q P} {c : Choice q P R} {m m' : Mem q P R} {pc pc' : Pc q R}
  {s : State q P R}

/-- A worker seeds its stream when it starts, and any other step draws from the streams, if at
all. -/
lemma Move.rng_cases (hm : Move t c m pc m' pc') :
    (pc = .boot ∧ ∃ w, t = .inl w ∧ m'.store.rng = Function.update m.store.rng w (rngSeed w)) ∨
      (pc ≠ .boot ∧ ∀ w, ∃ k, m'.store.rng w = nextRand^[k] (m.store.rng w)) := by
  cases hm
  case boot w ht => exact Or.inl ⟨rfl, w, ht, rfl⟩
  case cheapMore w o round sc sc' st ht ho h | cheapFound w o round sc st r ht ho h |
      cheapNext w o round sc st ht ho hr h | cheapLast w o round sc st ht ho hr h |
      sweepMore w o sc sc' st ht ho h | sweepFound w o sc st r ht ho h |
      sweepEmpty w o sc st ht ho h =>
    refine Or.inr ⟨by simp, fun v => ?_⟩
    obtain ⟨k, hk⟩ := h.rng_eq
    dsimp only
    rw [hk]
    by_cases hv : v = w
    · subst hv
      exact ⟨k, Function.update_self _ _ _⟩
    · exact ⟨0, Function.update_of_ne hv _ _⟩
  case spawn k x hash cell hc hx hown hfor =>
    refine Or.inr ⟨by simp, fun w => ⟨0, ?_⟩⟩
    exact congrFun (Store.rng_setQueue _ _ _) w
  all_goals exact Or.inr ⟨by simp, fun w => ⟨0, rfl⟩⟩

/-- The random state of every worker that has started is a state of its stream. -/
def OnStream (s : State q P R) : Prop :=
  ∀ w, s.pc (.inl w) ≠ .boot → ∃ k, s.mem.store.rng w = stream w k

/-- **Step lemma.** -/
theorem OnStream.step (h : OnStream s) (hm : Move t c s.mem (s.pc t) m' pc') :
    OnStream ⟨m', Function.update s.pc t pc'⟩ := by
  intro w hw
  dsimp only at hw ⊢
  have hother : .inl w ≠ t → s.pc (.inl w) ≠ .boot := by
    intro hne hpc
    rw [Function.update_of_ne hne] at hw
    exact hw hpc
  rcases hm.rng_cases with ⟨-, v, rfl, hrng⟩ | ⟨hpc, hrng⟩
  · rw [hrng]
    by_cases hv : w = v
    · subst hv
      exact ⟨0, Function.update_self _ _ _⟩
    · rw [Function.update_of_ne hv]
      exact h w (hother (by simpa using hv))
  · have hstarted : s.pc (.inl w) ≠ .boot := by
      by_cases ht : .inl w = t
      · rw [ht]
        exact hpc
      · exact hother ht
    obtain ⟨k, hk⟩ := hrng w
    obtain ⟨k', hk'⟩ := h w hstarted
    exact ⟨k + k', by rw [hk, hk', stream, stream, Function.iterate_add_apply]⟩

variable [DecidableEq R]

/-- **The streams of the workers stay apart.**  In every run of a pool of a size its builder
allows, the random state of a worker that has started is a state of the stream of its own
index, is not zero, and is none to which the stream of any other worker comes with as many
draws. -/
theorem streams_apart (hq : q.numWorkers ≤ MAX_THREADS) (h : (machine q P R).Reachable s)
    {w : q.Worker} (hw : s.pc (.inl w) ≠ .boot) :
    s.mem.store.rng w ≠ 0 ∧
      ∃ k, s.mem.store.rng w = stream w k ∧ ∀ v ≠ w, s.mem.store.rng w ≠ stream v k := by
  have hstream : OnStream s := by
    refine h.invariant ?_ ?_
    · rintro _ rfl v hv
      exact absurd rfl hv
    · intro u a u' _ hu _ hstep
      obtain ⟨m, pc, hm, rfl⟩ := State.step_cases hstep
      exact hu.step hm
  obtain ⟨k, hk⟩ := hstream w hw
  rw [hk]
  refine ⟨stream_ne_zero w k, k, rfl, fun v hv => ?_⟩
  refine stream_ne (w.isLt.trans_le hq) (v.isLt.trans_le hq) (fun heq => hv (Fin.ext heq.symm)) k

end Runs

/-- Both workers start and walk over each other once. -/
def drawnRun : List (Thread duo Unit × Choice duo Unit ℕ) :=
  goes (duo.worker 0 Nat.two_pos) 5 ++ goes (duo.worker 1 Nat.one_lt_two) 5

/-- The state after `drawnRun`. -/
def drawn : State duo Unit ℕ := (machine duo Unit ℕ).final (.start duo Unit ℕ) drawnRun (by decide)

/-- The state of the first one is not zero, and as many draws of the second one lead elsewhere. -/
theorem streams_apart_drawn :
    drawn.mem.store.rng ⟨0, Nat.two_pos⟩ ≠ 0 ∧
      ∃ k, drawn.mem.store.rng ⟨0, Nat.two_pos⟩ = stream 0 k ∧
        drawn.mem.store.rng ⟨0, Nat.two_pos⟩ ≠ stream 1 k := by
  have hreach : (machine duo Unit ℕ).Reachable drawn := .final rfl _
  have hstarted : drawn.pc (duo.worker 0 Nat.two_pos) ≠ .boot := by decide
  obtain ⟨hpos, k, hk, hother⟩ := streams_apart (by decide) hreach hstarted
  exact ⟨hpos, k, hk, hother ⟨1, Nat.one_lt_two⟩ (by decide)⟩

end AffinityPool
