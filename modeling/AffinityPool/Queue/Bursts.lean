import AffinityPool.Foundation.Record
import AffinityPool.Queue.WakeCheck

/-!
# What a burst of pushes costs

`notified` counts the wake notifications in flight.  A push whose comparison sees as many of them
as armed workers ends without the mutex `park`, which is to keep a burst of pushes from taking it
again and again.  `WakeLog` counts the acquisitions of `park` by pushes and the notifications they
raise.

In a stretch of a run in which only code of the callers and pushes runs, at most as many
notifications are raised as armed workers without one were left, and `park` is taken only that
often and once more by each thread, however many pushes the stretch contains (`burst_cost`).
-/

namespace AffinityPool

open Transition System

variable {q : Shape} {P R : Type}

/-- What the wake checks have done so far. -/
structure WakeLog where
  /-- The acquisitions of `park` by pushes. -/
  locked : ℕ
  /-- The increments of `notified`, each followed by a `notify_one`. -/
  raised : ℕ
  deriving DecidableEq

/-- The log after a step of a thread at the given program counter. -/
def WakeLog.note (l : WakeLog) : Pc q R → WakeLog
  | .push _ _ .lock => { l with locked := l.locked + 1 }
  | .push _ _ .fetchAdd => { l with raised := l.raised + 1 }
  | _ => l

/-- The queue with a log of its wake checks. -/
def signalled (q : Shape) (P R : Type) [DecidableEq P] [DecidableEq R] :
    System (State q P R × WakeLog) (Thread q P × Choice q P R) :=
  (machine q P R).record ⟨0, 0⟩ fun l s a _ => l.note (s.pc a.1)

/-- The thread is in code of its caller, in a push or in a shutdown call. -/
def Pc.isCalling : Pc q R → Bool
  | .out _ | .push _ _ _ | .close _ _ => true
  | _ => false

/-- Only code of the callers, pushes and shutdown calls run. -/
def Calling (x : State q P R × WakeLog) (a : Thread q P × Choice q P R) : Prop :=
  (x.1.pc a.1).isCalling = true

instance (x : State q P R × WakeLog) (a : Thread q P × Choice q P R) : Decidable (Calling x a) :=
  inferInstanceAs (Decidable ((x.1.pc a.1).isCalling = true))

/-- The push is going to take `park`. -/
def Pc.contends (notified : ℕ) : Pc q R → ℕ
  | .push _ _ (.loadNotified p) => if notified < p then 1 else 0
  | .push _ _ .lock => 1
  | _ => 0

/-- The push has taken `park` and has not yet raised `notified` or given up. -/
def Pc.confirms : Pc q R → ℕ
  | .push _ _ .recheckParked | .push _ _ (.recheckNotified _) | .push _ _ .fetchAdd => 1
  | _ => 0

lemma Pc.contends_le_one (notified : ℕ) (pc : Pc q R) : pc.contends notified ≤ 1 := by
  unfold contends
  split
  · split <;> omega
  · exact le_rfl
  · exact Nat.zero_le _

lemma Pc.confirms_le_held (pc : Pc q R) : pc.confirms ≤ pc.held := by
  rcases pc with _ | ⟨_, _, _ | _ | _ | _ | _ | _ | _ | _⟩ | _ | _ | _ | _ | _ | _ | _ | _ | _ |
    _ | _ | _ <;> simp [confirms, held]

/-- How often pushes may still take `park` before workers act: once for every armed worker that has
no notification, and once more by every thread; when there is no such worker, once by every thread
that is about to. -/
def State.allowance [Fintype P] (s : State q P R) : ℕ :=
  if s.mem.notified < s.mem.parked then
    s.mem.parked - s.mem.notified - tally Pc.confirms s.pc + Fintype.card (Thread q P)
  else tally (Pc.contends s.mem.notified) s.pc

section Steps

variable [Fintype P] [DecidableEq P] {s : State q P R} {t : Thread q P} {c : Choice q P R}
  {m' : Mem q P R} {pc' : Pc q R} {l : WakeLog}

omit [DecidableEq P] in
/-- A push that is about to raise `notified` finds fewer notifications than armed workers. -/
lemma Handshake.notified_lt_parked (hh : Handshake s) {k : Caller R} {x : Pushed q R}
    (hpc : s.pc t = .push k x .fetchAdd) : s.mem.notified < s.mem.parked := by
  have hraises := le_tally Pc.raises s.pc t
  rw [hpc] at hraises
  calc s.mem.notified < tally Pc.slept s.pc := hh.raise hraises
    _ ≤ tally Pc.armed s.pc := tally_slept_le_armed s
    _ = s.mem.parked := hh.parked.symm

/-- **Step lemma.**  Where no armed worker is left without a notification, only threads that
are about to take `park` take it. -/
lemma State.contends_step (hm : Move t c s.mem (s.pc t) m' pc')
    (hcall : (s.pc t).isCalling = true) (hsat : s.mem.parked ≤ s.mem.notified)
    (hraise : ∀ k x, s.pc t ≠ .push k x .fetchAdd) :
    (l.note (s.pc t)).locked + tally (Pc.contends s.mem.notified) (Function.update s.pc t pc') ≤
      l.locked + tally (Pc.contends s.mem.notified) s.pc := by
  have hupdate := tally_update (Pc.contends s.mem.notified) s.pc t pc'
  generalize s.pc t = pc at *
  cases hm
  case raise k x => exact absurd rfl (hraise k x)
  case contend k x p h =>
    simp only [Pc.contends, h, if_true, WakeLog.note] at hupdate ⊢
    omega
  case loadParked k x =>
    simp only [Pc.contends, Nat.not_lt.mpr hsat, if_false, WakeLog.note] at hupdate ⊢
    omega
  case pushLock k x h =>
    simp only [Pc.contends, WakeLog.note] at hupdate ⊢
    omega
  case spawn | close | ret | skip | recheckParked | confirm | decline | notifyNone | notifyOne |
      pushUnlock | closeLock | notifyAll | closeUnlock =>
    simp only [Pc.contends, WakeLog.note] at hupdate ⊢
    omega
  all_goals cases hcall

/-- **Step lemma.**  Where an armed worker is left without a notification, a push that takes `park`
is going to raise `notified`. -/
lemma State.confirms_step (hh : Handshake s) (hm : Move t c s.mem (s.pc t) m' pc')
    (hcall : (s.pc t).isCalling = true) (hopen : s.mem.notified < s.mem.parked)
    (hraise : ∀ k x, s.pc t ≠ .push k x .fetchAdd) :
    (l.note (s.pc t)).locked + tally Pc.confirms s.pc =
      l.locked + tally Pc.confirms (Function.update s.pc t pc') ∧
        tally Pc.confirms (Function.update s.pc t pc') ≤ 1 := by
  have hupdate := tally_update Pc.confirms s.pc t pc'
  have hle : tally Pc.confirms s.pc ≤ s.mem.park.toNat := by
    rw [← hh.park]
    exact tally_le_tally fun u => (s.pc u).confirms_le_held
  have hone : s.mem.park.toNat ≤ 1 := Bool.toNat_le _
  generalize hpc : s.pc t = pc at *
  cases hm
  case raise k x => exact absurd rfl (hraise k x)
  case pushLock k x h =>
    rw [h, Bool.toNat_false] at hle
    simp only [Pc.confirms, WakeLog.note] at hupdate ⊢
    omega
  case decline k x p h =>
    -- the value read under `park` is that of `parked`
    have hp := hh.recheck_eq hpc
    omega
  case spawn | close | ret | loadParked | contend | skip | recheckParked | confirm | notifyNone |
      notifyOne | pushUnlock | closeLock | notifyAll | closeUnlock =>
    simp only [Pc.confirms, WakeLog.note] at hupdate ⊢
    omega
  all_goals cases hcall

omit [Fintype P] in
/-- A step of a caller or of a push leaves `parked` alone, and `notified` too but where it raises
it. -/
lemma Move.parked_eq {m : Mem q P R} {pc : Pc q R} (hm : Move t c m pc m' pc')
    (hcall : pc.isCalling = true) :
    m'.parked = m.parked ∧ ((∀ k x, pc ≠ .push k x .fetchAdd) → m'.notified = m.notified) := by
  cases hm
  case raise k x => exact ⟨rfl, fun h => absurd rfl (h k x)⟩
  case spawn | close | ret | loadParked | contend | skip | pushLock | recheckParked | confirm |
      decline | notifyNone | notifyOne | pushUnlock | closeLock | notifyAll | closeUnlock =>
    exact ⟨rfl, fun _ => rfl⟩
  all_goals cases hcall

/-- **Step lemma.**  A step of a caller or of a push uses up the allowance when it takes `park`, and
a worker without a notification when it raises `notified`. -/
lemma State.allowance_step (hk : Kinds s) (hh : Handshake s)
    (hm : Move t c s.mem (s.pc t) m' pc') (hcall : (s.pc t).isCalling = true) :
    (l.note (s.pc t)).locked + State.allowance ⟨m', Function.update s.pc t pc'⟩ ≤
        l.locked + s.allowance ∧
      (l.note (s.pc t)).raised + (m'.parked - m'.notified) =
        l.raised + (s.mem.parked - s.mem.notified) := by
  obtain ⟨hparked, hnotified⟩ := hm.parked_eq hcall
  by_cases hraise : ∃ k x, s.pc t = .push k x .fetchAdd
  · obtain ⟨k, x, hpc⟩ := hraise
    have hlt := hh.notified_lt_parked hpc
    have hadd := hh.fetchAdd_notified hk hpc
    have hupdate := tally_update Pc.confirms s.pc t pc'
    have hcard : tally (Pc.contends m'.notified) (Function.update s.pc t pc') ≤
        Fintype.card (Thread q P) := tally_le_card fun u => Pc.contends_le_one _ _
    rw [hpc] at hm hupdate ⊢
    cases hm
    simp only [State.allowance, if_pos hlt, WakeLog.note, hadd, Pc.confirms] at hupdate hcard ⊢
    split <;> omega
  · have hkeep : ∀ k x, s.pc t ≠ .push k x .fetchAdd := fun k x hpc => hraise ⟨k, x, hpc⟩
    have hraised : (l.note (s.pc t)).raised = l.raised := by
      unfold WakeLog.note
      split <;> first | rfl | exact absurd ‹_› (hkeep _ _)
    have hsame := hnotified hkeep
    refine ⟨?_, by omega⟩
    simp only [State.allowance, hsame, hparked]
    by_cases hopen : s.mem.notified < s.mem.parked
    · obtain ⟨hcount, hone⟩ := State.confirms_step (l := l) hh hm hcall hopen hkeep
      rw [if_pos hopen, if_pos hopen]
      omega
    · rw [if_neg hopen, if_neg hopen]
      exact State.contends_step hm hcall (Nat.not_lt.mp hopen) hkeep

end Steps

section Runs

variable [Fintype P] [DecidableEq P] [DecidableEq R] {x y : State q P R × WakeLog}

omit [Fintype P] in
lemma reachable_of_signalled {ok : State q P R × WakeLog → Thread q P × Choice q P R → Prop}
    (h : (signalled q P R).Reach ok x) : (machine q P R).Reachable x.1 := by
  unfold signalled at h
  exact h.of_record

/-- **Run lemma.**  What a stretch of a run without steps of `pop_blocking` keeps. -/
lemma allowance_of_leads (h : (signalled q P R).Reachable x)
    (hl : (signalled q P R).Leads Calling x y) :
    y.2.locked + y.1.allowance ≤ x.2.locked + x.1.allowance ∧
      y.2.raised + (y.1.mem.parked - y.1.mem.notified) =
        x.2.raised + (x.1.mem.parked - x.1.mem.notified) := by
  induction hl with
  | refl => exact ⟨le_rfl, rfl⟩
  | @tail u v a hl hcall hstep ih =>
    have hreach := reachable_of_signalled (h.leads (hl.mono fun _ _ _ => trivial))
    obtain ⟨hstep, hlog⟩ := record_step.mp hstep
    obtain ⟨m, pc, hm, hstate⟩ := State.step_cases hstep
    obtain ⟨hlocked, hraised⟩ := State.allowance_step (l := u.2) (.of_reachable hreach)
      (.of_reachable hreach) hm hcall
    rw [hlog, hstate]
    exact ⟨hlocked.trans ih.1, hraised.trans ih.2⟩

omit [DecidableEq P] [DecidableEq R] in
/-- The allowance is bounded by the workers and the threads. -/
lemma State.allowance_le {s : State q P R} (hk : Kinds s) (hh : Handshake s) :
    s.allowance ≤ q.numWorkers + Fintype.card (Thread q P) := by
  have hparked := hh.parked
  have harmed := hk.armed_le
  have hcard : tally (Pc.contends s.mem.notified) s.pc ≤ Fintype.card (Thread q P) :=
    tally_le_card fun u => Pc.contends_le_one _ _
  unfold State.allowance
  split <;> omega

/-- **A burst of pushes costs no more than the workers it wakes.**  In a stretch of a run in which
only code of the callers, pushes and shutdown calls run, however many pushes it contains, at most
as many notifications are raised as armed workers had none at its start, and pushes take
`park` at most once for each worker and once for each thread. -/
theorem burst_cost (h : (signalled q P R).Reachable x)
    (hl : (signalled q P R).Leads Calling x y) :
    y.2.raised ≤ x.2.raised + (x.1.mem.parked - x.1.mem.notified) ∧
      y.2.locked ≤ x.2.locked + q.numWorkers + Fintype.card (Thread q P) := by
  have hreach := reachable_of_signalled h
  have hle := State.allowance_le (.of_reachable hreach) (.of_reachable hreach)
  obtain ⟨hlocked, hraised⟩ := allowance_of_leads h hl
  omega

end Runs

/-- The worker falls asleep. -/
def asleepRun : List (Thread solo Unit × Choice solo Unit ℕ) := goes solo.worker 21

/-- The state after `asleepRun`. -/
def slumbering : State solo Unit ℕ × WakeLog :=
  (signalled solo Unit ℕ).final (.start solo Unit ℕ, ⟨0, 0⟩) asleepRun (by decide)

/-- Three pushes; the first one raises a notification. -/
def burstRun : List (Thread solo Unit × Choice solo Unit ℕ) :=
  [(.inr (), .spawn 0 0 none)] ++ goes (.inr ()) 6 ++
    [(.inr (), .pick solo.worker), (.inr (), .go), (.inr (), .spawn 1 0 none)] ++
    goes (.inr ()) 2 ++ [(.inr (), .spawn 2 0 none)] ++ goes (.inr ()) 2

/-- The state after `burstRun`. -/
def burst : State solo Unit ℕ × WakeLog :=
  (signalled solo Unit ℕ).final slumbering burstRun (by decide)

lemma slumbering_reachable : (signalled solo Unit ℕ).Reachable slumbering := by
  have hinit : (signalled solo Unit ℕ).init (.start solo Unit ℕ, ⟨0, 0⟩) := ⟨rfl, rfl⟩
  exact .final hinit _

/-- Three pushes over a sleeping worker cost one notification and one acquisition of `park`. -/
theorem burst_cost_burst :
    burst.1.mem.pushed = [0, 1, 2] ∧ burst.2.raised = 1 ∧ burst.2.locked = 1 ∧
      burst.2.raised ≤ slumbering.2.raised +
        (slumbering.1.mem.parked - slumbering.1.mem.notified) := by
  have hl : (signalled solo Unit ℕ).Leads Calling slumbering burst :=
    .of_exec (by decide) (exec_final _ _ _)
  exact ⟨by decide, by decide, by decide, (burst_cost slumbering_reachable hl).1⟩

end AffinityPool
