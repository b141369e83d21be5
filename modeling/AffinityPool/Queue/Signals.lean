import AffinityPool.Foundation.Record
import AffinityPool.Queue.Counters

/-!
# What becomes of a `notify_one`

A push that raises `notified` calls `notify_one`, which takes a waiter out of the wait set if there
is one.  A worker leaves the wait set in that way, by the `notify_all` of a shutdown, or by a
spurious return of the wait; on its way out of the armed section it consumes a notification if one
is left, and so does a worker that has not slept.  `SignalLog` counts all of these.

The calls of `notify_one` and the notifications go together: those made so far, with the one that
may be under way, are as many as the notifications consumed and in flight.  And no call is wasted
on an empty wait set, and no sleep ends without a notification, but for a spurious return, a waiter
released by a shutdown or a notification consumed by a worker that has not slept
(`signals_balanced`).
-/

namespace AffinityPool

open Transition System

variable {q : Shape} {P R : Type}

/-- What the calls of `notify_one` and the ends of the waits have been so far. -/
structure SignalLog where
  /-- The calls of `notify_one` that took a waiter out of the wait set. -/
  hits : ℕ
  /-- The calls of `notify_one` that found the wait set empty. -/
  missed : ℕ
  /-- The spurious returns of the wait. -/
  stirred : ℕ
  /-- The waiters that a `notify_all` took out of the wait set. -/
  released : ℕ
  /-- The notifications consumed by workers that had slept. -/
  answered : ℕ
  /-- The sleeps that ended with no notification left to consume. -/
  silent : ℕ
  /-- The notifications consumed by workers that had not slept. -/
  early : ℕ
  deriving DecidableEq

variable [DecidableEq P]

/-- The log after a step of a thread from one program counter to another. -/
def SignalLog.note (l : SignalLog) (m : Mem q P R) : Pc q R → Pc q R → SignalLog
  | .push _ _ .notifyOne, _ =>
    if m.waiters = ∅ then { l with missed := l.missed + 1 } else { l with hits := l.hits + 1 }
  | .close _ .notifyAll, _ => { l with released := l.released + m.waiters.card }
  | .waiting, .spurious => { l with stirred := l.stirred + 1 }
  | .leave .woken .loadNotified, .leave _ .unpark => { l with silent := l.silent + 1 }
  | .leave .woken .fetchSub, _ => { l with answered := l.answered + 1 }
  | .leave _ .fetchSub, _ => { l with early := l.early + 1 }
  | _, _ => l

/-- The queue with a log of its signals. -/
def signalling (q : Shape) (P R : Type) [DecidableEq P] [DecidableEq R] :
    System (State q P R × SignalLog) (Thread q P × Choice q P R) :=
  (machine q P R).record ⟨0, 0, 0, 0, 0, 0, 0⟩ fun l s a s' =>
    l.note s.mem (s.pc a.1) (s'.pc a.1)

/-- The books of the signals: the calls of `notify_one` against the notifications, and the ways out
of the wait set against the ends of the sleeps. -/
structure SignalLog.Balanced [Fintype P] (l : SignalLog) (s : State q P R) : Prop where
  calls : l.hits + l.missed + tally Pc.notifies s.pc = l.answered + l.early + s.mem.notified
  sleeps : l.hits + l.stirred + l.released + s.mem.waiters.card =
    l.answered + l.silent + tally Pc.slept s.pc

section Steps

variable [Fintype P] {s : State q P R} {t : Thread q P} {c : Choice q P R} {m' : Mem q P R}
  {pc' : Pc q R} {l : SignalLog}

/-- **Step lemma.**  A step keeps the books balanced. -/
theorem SignalLog.Balanced.step (h : l.Balanced s) (hk : Kinds s) (hh : Handshake s)
    (hm : Move t c s.mem (s.pc t) m' pc') :
    (l.note s.mem (s.pc t) pc').Balanced ⟨m', Function.update s.pc t pc'⟩ := by
  have hcalls := tally_update Pc.notifies s.pc t pc'
  have hsleeps := tally_update Pc.slept s.pc t pc'
  obtain ⟨calls, sleeps⟩ := h
  generalize hpc : s.pc t = pc at hm hcalls hsleeps ⊢
  have hsteady : l.note s.mem pc pc' = l → m'.waiters = s.mem.waiters →
      m'.notified = s.mem.notified → pc'.notifies = pc.notifies → pc'.slept = pc.slept →
      (l.note s.mem pc pc').Balanced ⟨m', Function.update s.pc t pc'⟩ := by
    intro hlog hwaiters hnotified hnotifies hslept
    rw [hlog]
    constructor
    · dsimp only
      rw [hnotified]
      omega
    · dsimp only
      rw [hwaiters]
      omega
  cases hm
  -- a push raises `notified` and calls `notify_one`
  case raise k x =>
    rw [hh.fetchAdd_notified hk hpc]
    simp only [Pc.notifies, Pc.slept] at hcalls hsleeps
    constructor <;> dsimp only [SignalLog.note] <;> omega
  case notifyNone k x hw =>
    simp only [Pc.notifies, Pc.slept] at hcalls hsleeps
    simp only [SignalLog.note, if_pos hw]
    constructor <;> dsimp only <;> omega
  case notifyOne k x u hu =>
    have herase : (s.mem.waiters.erase u).card + 1 = s.mem.waiters.card :=
      Finset.card_erase_add_one hu
    simp only [Pc.notifies, Pc.slept] at hcalls hsleeps
    simp only [SignalLog.note, if_neg (Finset.ne_empty_of_mem hu)]
    constructor <;> dsimp only <;> omega
  -- the other ways out of the wait set, and the way into it
  case notifyAll k =>
    simp only [Pc.notifies, Pc.slept] at hcalls hsleeps
    constructor <;> dsimp only [SignalLog.note, Finset.card_empty] <;> omega
  case stir hw =>
    have herase : (s.mem.waiters.erase t).card + 1 = s.mem.waiters.card :=
      Finset.card_erase_add_one hw
    simp only [Pc.notifies, Pc.slept] at hcalls hsleeps
    constructor <;> dsimp only [SignalLog.note] <;> omega
  case wait =>
    have hnew : t ∉ s.mem.waiters := by
      intro ht
      rw [hh.waiting t ht] at hpc
      cases hpc
    have hinsert := Finset.card_insert_of_notMem hnew
    simp only [Pc.notifies, Pc.slept] at hcalls hsleeps
    constructor <;> dsimp only [SignalLog.note] <;> omega
  -- the end of a sleep, and a notification consumed without one
  case pass e hn =>
    cases e <;> simp only [Pc.notifies, Pc.slept] at hcalls hsleeps <;> constructor <;>
      dsimp only [SignalLog.note] <;> omega
  case lower e =>
    have hsub := hh.fetchSub_notified hk hpc
    have hlower : fetchSub s.mem.notified = s.mem.notified - 1 := by omega
    rw [hlower] at hsub ⊢
    cases e <;> simp only [Pc.notifies, Pc.slept] at hcalls hsleeps <;> constructor <;>
      dsimp only [SignalLog.note] <;> omega
  case consume e hn | unpark e => cases e <;> exact hsteady rfl rfl rfl rfl rfl
  all_goals exact hsteady rfl rfl rfl rfl rfl

end Steps

section Runs

variable [Fintype P] [DecidableEq R] {x : State q P R × SignalLog}

/-- **Run lemma.**  The books are balanced in every run. -/
theorem SignalLog.Balanced.of_reachable (h : (signalling q P R).Reachable x) :
    x.2.Balanced x.1 := by
  refine h.invariant (I := fun x => x.2.Balanced x.1) ?_ ?_
  · rintro ⟨s, l⟩ ⟨rfl, rfl⟩
    have hzero : ∀ f : Pc q R → ℕ, f .boot = 0 → f (.out .foreign) = 0 →
        tally f (State.start q P R).pc = 0 := by
      intro f hboot hout
      refine tally_eq_zero_iff.mpr ?_
      rintro (w | p)
      · exact hboot
      · exact hout
    constructor
    · rw [hzero _ rfl rfl]
      rfl
    · rw [hzero _ rfl rfl]
      rfl
  · rintro y a y' hr hy - hstep
    obtain ⟨hstep, hlog⟩ := record_step.mp hstep
    have hreach : (machine q P R).Reachable y.1 := hr.of_record
    obtain ⟨m, pc, hm, hstate⟩ := State.step_cases hstep
    rw [hlog, hstate]
    have hnext := hy.step (.of_reachable hreach) (.of_reachable hreach) hm
    dsimp only
    rwa [Function.update_self]

end Runs

end AffinityPool
