import AffinityPool.Foundation.Tally
import AffinityPool.Pool.Lifecycle
import Mathlib.Data.Nat.ModEq

/-!
# `Threadpool::thread_count`

`spin_up` counts every thread it starts, and nothing takes a thread off the count before the
drop of the pool resets it.  Until the queue is shut down, the number of workers that run or
are about to be replaced is the size of the pool (`Balanced`), while the count is that size
plus the number of the workers that have died.  So the count is the number of the live
workers exactly as long as no worker has died, up to the wrap-around of the counter
(`thread_count_iff`).
-/

namespace AffinityPool

namespace Lifecycle

open Transition System

variable {s s' : State} {a : Action} {workers : ℕ}

namespace Status

/-- The thread is a worker, or its replacement has not been started yet. -/
def mans : Status → ℕ
  | .running | .unwinding | .counting | .spawning => 1
  | _ => 0

/-- The thread is a former worker whose replacement has been started. -/
def replaced : Status → ℕ
  | .storing _ | .ending | .terminated => 1
  | _ => 0

/-- The thread has counted its replacement. -/
def counted : Status → ℕ
  | .spawning | .storing _ | .ending | .terminated => 1
  | _ => 0

/-- The thread owns the data in a call of `spin_up`. -/
def owns : Status → ℕ
  | .counting | .spawning | .storing _ => 1
  | _ => 0

end Status

/-- The pool owns the data. -/
def Dropper.owns : Dropper → ℕ
  | .released => 0
  | _ => 1

namespace State

/-- The sum of a measure of the threads started so far. -/
def total (s : State) (f : Status → ℕ) : ℕ := tallyBelow s.next f s.status

/-- The number of live workers. -/
def live (s : State) : ℕ := ((Finset.range s.next).filter fun k => s.status k = .running).card

/-- The number of workers that have died. -/
def died (s : State) : ℕ := ((Finset.range s.next).filter fun k => s.status k = .terminated).card

/-- No spawn or respawn is in progress. -/
def Settled (s : State) : Prop := ∀ k < s.next, s.status k = .running ∨ s.status k = .terminated

instance (s : State) : Decidable s.Settled :=
  inferInstanceAs (Decidable (∀ k < s.next, s.status k = .running ∨ s.status k = .terminated))

/-- `thread_count()` is the number of live workers and not above `num_threads()`. -/
def CountsLive (s : State) (workers : ℕ) : Prop :=
  s.data.threadCount = s.live ∧ s.data.threadCount ≤ clamp workers 1 MAX_THREADS

end State

/-- The owners of the data, and the books of a pool of `n` workers until its queue is shut
down. -/
structure Balanced (n : ℕ) (s : State) : Prop where
  numbered : ∀ k, s.next ≤ k → s.status k = .unborn
  strong : s.strong = s.dropper.owns + s.total Status.owns
  owned : s.shutdown = false → s.dropper.owns = 1
  idle : s.dropper = .idle → s.shutdown = false
  early : s.shutdown = false → s.dropper = .idle ∨ ∃ e, s.dropper = .begun e
  mans : s.shutdown = false → s.total Status.mans = n
  next : s.shutdown = false → s.next = n + s.total Status.replaced
  count : s.shutdown = false → s.data.threadCount = (n + s.total Status.counted) % usizeBound

section Step

/-- A thread that has been started. -/
lemma Balanced.lt {n : ℕ} (h : Balanced n s) {k : ℕ} (hk : s.status k ≠ .unborn) : k < s.next := by
  by_contra hge
  exact hk (h.numbered k (Nat.le_of_not_lt hge))

lemma total_setStatus {k : ℕ} (hk : k < s.next) (f : Status → ℕ) (x : Status) :
    (s.setStatus k x).total f + f (s.status k) = s.total f + f x :=
  tallyBelow_update hk f s.status x

/-- The start of a replacement changes the sums by two threads. -/
lemma total_spawn {k : ℕ} (hk : k < s.next) (f : Status → ℕ) (x y : Status) :
    State.total { (s.setStatus s.next x).setStatus k y with next := s.next + 1 } f +
      f (s.status k) = s.total f + f x + f y := by
  have hupdate := tallyBelow_update (n := s.next + 1) (show k < s.next + 1 by omega) f
    (Function.update s.status s.next x) y
  have hrest : tallyBelow s.next f (Function.update s.status s.next x) = s.total f :=
    tallyBelow_congr f fun j hj => Function.update_of_ne (by omega) _ _
  rw [tallyBelow_succ s.next f (Function.update s.status s.next x), Function.update_self, hrest,
    Function.update_of_ne (by omega)] at hupdate
  exact hupdate

/-- A step of one started thread that starts no other. -/
lemma Balanced.update {n : ℕ} (h : Balanced n s) {k : ℕ} {x : Status}
    (hk : s.status k ≠ .unborn) (hstatus : s'.status = Function.update s.status k x)
    (hnext : s'.next = s.next) (hshut : s'.shutdown = s.shutdown)
    (hdropper : s'.dropper = s.dropper)
    (hstrong : s'.strong + (s.status k).owns = s.strong + x.owns)
    (hsame : s.shutdown = false → x.mans = (s.status k).mans ∧
      x.replaced = (s.status k).replaced ∧
        (x.counted = (s.status k).counted ∧ s'.data.threadCount = s.data.threadCount ∨
          x.counted = (s.status k).counted + 1 ∧
            s'.data.threadCount = fetchAdd s.data.threadCount)) :
    Balanced n s' := by
  have hlt := h.lt hk
  have htotal : ∀ f, s'.total f + f (s.status k) = s.total f + f x := by
    intro f
    rw [State.total, hstatus, hnext]
    exact tallyBelow_update hlt f s.status x
  constructor
  · intro j hj
    rw [hnext] at hj
    rw [hstatus, Function.update_of_ne (by omega)]
    exact h.numbered j hj
  · have howns := htotal Status.owns
    have hold := h.strong
    rw [hdropper]
    omega
  · rw [hshut, hdropper]
    exact h.owned
  · rw [hshut, hdropper]
    exact h.idle
  · rw [hshut, hdropper]
    exact h.early
  · intro hs
    rw [hshut] at hs
    have hmans := htotal Status.mans
    have hold := h.mans hs
    rw [(hsame hs).1] at hmans
    omega
  · intro hs
    rw [hshut] at hs
    have hreplaced := htotal Status.replaced
    have hold := h.next hs
    rw [(hsame hs).2.1] at hreplaced
    omega
  · intro hs
    rw [hshut] at hs
    have hcounted := htotal Status.counted
    rcases (hsame hs).2.2 with ⟨hx, hcount⟩ | ⟨hx, hcount⟩
    · rw [hx] at hcounted
      have heq : s'.total Status.counted = s.total Status.counted := by omega
      rw [hcount, heq]
      exact h.count hs
    · have heq : s'.total Status.counted = s.total Status.counted + 1 := by omega
      rw [hcount, heq, h.count hs, fetchAdd, Nat.mod_add_mod, Nat.add_assoc]

/-- After the shutdown of the queue only the owners are kept book of. -/
lemma Balanced.late {n : ℕ} (h : Balanced n s) (hs : s'.shutdown = true)
    (hidle : s'.dropper ≠ .idle)
    (hstatus : s'.status = s.status) (hnext : s'.next = s.next)
    (hstrong : s'.strong + s.dropper.owns = s.strong + s'.dropper.owns) : Balanced n s' := by
  have hopen : s'.shutdown ≠ false := by
    rw [hs]
    nofun
  refine ⟨?_, ?_, fun hf => absurd hf hopen, fun hi => absurd hi hidle,
    fun hf => absurd hf hopen, fun hf => absurd hf hopen, fun hf => absurd hf hopen,
    fun hf => absurd hf hopen⟩
  · rw [hstatus, hnext]
    exact h.numbered
  · have hold := h.strong
    rw [State.total, hstatus, hnext]
    rw [State.total] at hold
    omega

/-- A drop past its first step has shut the queue down. -/
lemma Balanced.shut_of_drop {n : ℕ} (h : Balanced n s) (hidle : s.dropper ≠ .idle)
    (hbegun : ∀ e, s.dropper ≠ .begun e) : s.shutdown = true := by
  by_contra hs
  rcases h.early (Bool.eq_false_of_not_eq_true hs) with hd | ⟨e, hd⟩
  · exact hidle hd
  · exact hbegun e hd

/-- **Step lemma.**  A step keeps the books balanced. -/
theorem Balanced.step {n : ℕ} (h : Balanced n s) (hm : Move s a s') : Balanced n s' := by
  cases hm with
  | begin hi he =>
    have howns : s.dropper.owns = 1 := by rw [hi]; rfl
    refine ⟨h.numbered, ?_, fun _ => rfl, nofun, fun _ => Or.inr ⟨_, rfl⟩, h.mans, h.next,
      h.count⟩
    have hstrong := h.strong
    rw [howns] at hstrong
    exact hstrong
  | shutdown hd =>
    refine h.late rfl nofun rfl rfl ?_
    rw [hd]
    rfl
  | drain hd | join hd | panic hd | reset hd =>
    refine h.late (h.shut_of_drop ?_ ?_) nofun rfl rfl ?_
    · rw [hd]
      nofun
    · rw [hd]
      nofun
    · rw [hd]
      rfl
  | release hd | abandon hd =>
    refine h.late (h.shut_of_drop (by rw [hd]; nofun) (by rw [hd]; nofun)) nofun rfl rfl ?_
    have hstrong := h.strong
    rw [hd] at hstrong ⊢
    simp only [Dropper.owns] at hstrong ⊢
    omega
  | exit hk hs =>
    refine h.update (by rw [hk.1]; nofun) rfl rfl rfl rfl (by rw [hk.1]; rfl) fun hs' => ?_
    rw [hs] at hs'
    cases hs'
  | unwind hk =>
    refine h.update (by rw [hk.1]; nofun) rfl rfl rfl rfl (by rw [hk.1]; rfl) fun _ => ?_
    rw [hk.1]
    exact ⟨rfl, rfl, Or.inl ⟨rfl, rfl⟩⟩
  | upgrade hk hs =>
    refine h.update (x := .counting) (by rw [hk]; nofun) rfl rfl rfl rfl (by rw [hk]; rfl)
      fun _ => ?_
    rw [hk]
    exact ⟨rfl, rfl, Or.inl ⟨rfl, rfl⟩⟩
  | orphan hk hs =>
    refine h.update (by rw [hk]; nofun) rfl rfl rfl rfl (by rw [hk]; rfl) fun hs' => ?_
    have hstrong := h.strong
    rw [h.owned hs'] at hstrong
    omega
  | count hk =>
    refine h.update (x := .spawning) (by rw [hk]; nofun) rfl rfl rfl rfl (by rw [hk]; rfl)
      fun _ => ?_
    rw [hk]
    exact ⟨rfl, rfl, Or.inr ⟨rfl, rfl⟩⟩
  | @spawn k hk =>
    have hlt := h.lt (k := k) (by rw [hk]; nofun)
    have htotal : ∀ f, _ := fun f => total_spawn hlt f .running (.storing s.next)
    rw [hk] at htotal
    constructor
    · intro j hj
      dsimp only at hj ⊢
      refine (Function.update_of_ne (by omega) _ _).trans ?_
      exact (Function.update_of_ne (by omega) _ _).trans (h.numbered j (by omega))
    · have howns := Nat.add_right_cancel (htotal Status.owns)
      exact h.strong.trans (congrArg (s.dropper.owns + ·) howns.symm)
    · exact h.owned
    · exact h.idle
    · exact h.early
    · intro hs
      exact (Nat.add_right_cancel (htotal Status.mans)).trans (h.mans hs)
    · intro hs
      have hreplaced := htotal Status.replaced
      exact (congrArg (· + 1) (h.next hs)).trans (congrArg (n + ·) hreplaced.symm)
    · intro hs
      have hcounted := Nat.add_right_cancel (htotal Status.counted)
      exact (h.count hs).trans (congrArg (fun c => (n + c) % usizeBound) hcounted.symm)
  | store hk =>
    have htotal := total_setStatus (h.lt (by rw [hk]; nofun)) Status.owns .ending
    have hstrong := h.strong
    rw [hk] at htotal
    simp only [Status.owns] at htotal
    refine h.update (x := .ending) (by rw [hk]; nofun) rfl rfl rfl rfl ?_ fun _ => ?_
    · rw [hk]
      simp only [Status.owns]
      omega
    · rw [hk]
      exact ⟨rfl, rfl, Or.inl ⟨rfl, rfl⟩⟩
  | terminate hk =>
    refine h.update (by rw [hk]; nofun) rfl rfl rfl rfl (by rw [hk]; rfl) fun _ => ?_
    rw [hk]
    exact ⟨rfl, rfl, Or.inl ⟨rfl, rfl⟩⟩

end Step

/-! ## Runs -/

/-- The sums of a new pool. -/
lemma total_start (workers : ℕ) (f : Status → ℕ) :
    (State.start workers).total f = clamp workers 1 MAX_THREADS * f .running := by
  have hrunning : (State.start workers).total f =
      tallyBelow (clamp workers 1 MAX_THREADS) f fun _ => .running :=
    tallyBelow_congr f fun k hk => if_pos hk
  rw [hrunning, tallyBelow, Finset.sum_const, Finset.card_range, smul_eq_mul]

/-- The books are balanced in every run. -/
theorem Balanced.of_reachable (h : (machine workers).Reachable s) :
    Balanced (clamp workers 1 MAX_THREADS) s := by
  refine h.invariant ?_ ?_
  · rintro _ rfl
    have hlt : clamp workers 1 MAX_THREADS < usizeBound :=
      lt_of_le_of_lt (clamp_workers workers).2 (by decide)
    refine ⟨fun k hk => if_neg (Nat.not_lt.mpr hk), ?_, fun _ => rfl, fun _ => rfl,
      fun _ => Or.inl rfl, fun _ => ?_, fun _ => ?_, fun _ => ?_⟩
    · rw [total_start]
      rfl
    · rw [total_start]
      exact Nat.mul_one _
    · rw [total_start]
      rfl
    · rw [total_start]
      exact (Nat.mod_eq_of_lt hlt).symm
  · intro s a s' _ hs _ hstep
    exact hs.step (.of_step hstep)

/-- In a settled state the threads are the live workers and the dead ones. -/
lemma State.Settled.total_eq (hs : s.Settled) :
    s.total Status.mans = s.live ∧ s.total Status.replaced = s.died ∧
      s.total Status.counted = s.died := by
  refine ⟨tallyBelow_eq_card (fun x => x = Status.running) ?_,
    tallyBelow_eq_card (fun x => x = Status.terminated) ?_,
    tallyBelow_eq_card (fun x => x = Status.terminated) ?_⟩
  all_goals
    intro k hk
    rcases hs k hk with h | h
    all_goals
      rw [h]
      rfl

/-- **Thread count.**  Before the drop of the pool begins, while no spawn or respawn is in
progress, `thread_count()` is the number of live workers and at most `num_threads()` exactly
when the number of dead workers is a multiple of the number of values of the counter. -/
theorem thread_count_iff (h : (machine workers).Reachable s) (hd : s.dropper = .idle)
    (hs : s.Settled) : s.CountsLive workers ↔ usizeBound ∣ s.died := by
  have hb := Balanced.of_reachable h
  have hopen := hb.idle hd
  obtain ⟨hmans, -, hcounted⟩ := hs.total_eq
  have hlive : s.live = clamp workers 1 MAX_THREADS := hmans.symm.trans (hb.mans hopen)
  have hcount := hb.count hopen
  rw [hcounted] at hcount
  have hlt : clamp workers 1 MAX_THREADS < usizeBound :=
    lt_of_le_of_lt (clamp_workers workers).2 (by decide)
  unfold State.CountsLive
  rw [hlive, hcount]
  constructor
  · rintro ⟨heq, -⟩
    have hmod : clamp workers 1 MAX_THREADS + s.died ≡
        clamp workers 1 MAX_THREADS + 0 [MOD usizeBound] := by
      rw [Nat.ModEq, heq, Nat.add_zero, Nat.mod_eq_of_lt hlt]
    exact (Nat.modEq_zero_iff_dvd).mp (Nat.ModEq.add_left_cancel' _ hmod)
  · rintro ⟨m, hm⟩
    rw [hm, Nat.add_mul_mod_self_left, Nat.mod_eq_of_lt hlt]
    exact ⟨rfl, le_rfl⟩

/-- A new pool of two workers counts them. -/
theorem thread_count_start : (State.start 2).CountsLive 2 :=
  (thread_count_iff (.of_init rfl : (machine 2).Reachable (State.start 2)) rfl (by decide)).mpr
    (by decide)

/-- The only worker of a pool unwinds and is replaced. -/
def recovered : State :=
  (machine 1).final (.start 1) ([.unwind 0] ++ List.replicate 5 (.advance 0)) (by decide)

/-- The pool then counts two threads, of which one is alive. -/
theorem thread_count_drifts :
    recovered.data.threadCount = 2 ∧ recovered.live = 1 ∧
      ¬ ∀ (workers : ℕ) (s : State), (machine workers).Reachable s → s.dropper = .idle →
        s.Settled → s.CountsLive workers := by
  refine ⟨by decide, by decide, fun hall => ?_⟩
  have hcount := (hall 1 recovered (Reachable.final rfl _) rfl (by decide)).1
  exact absurd hcount (by decide)

end Lifecycle

end AffinityPool
