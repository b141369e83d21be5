import AffinityPool.Foundation.Potential
import AffinityPool.Queue.RetryLoop
import AffinityPool.Queue.Shutdown

/-!
# The queue settles

What comes to the queue from outside are pushes, shutdown calls and spurious wake-ups
(`Choice.isStimulus`).  Every other step uses up work: `State.work` adds, for every thread, the
steps to the point where it rests, for every stored runnable what its return costs, and for every
contended scan one more pass; the workers in the wait set have none, and a signal gives the
worker it takes out of the set the work of a whole loop.

So a run is as long as its stimuli pay for (`length_le_of_stimuli`): nobody spins for ever, no
wake check, no scan and no drain.  And when nothing is left to do but stimuli, no thread is stuck:
foreign threads are outside the queue, and the workers are asleep over empty queues or, after
a shutdown, have all left (`settles`).
-/

namespace AffinityPool

open Transition System

variable {q : Shape} {P R : Type}

/-! ## The work of a thread -/

/-- What the surroundings of the queue decide: pushes, shutdown calls, spurious wake-ups. -/
def Choice.isStimulus : Choice q P R → Bool
  | .spawn _ _ _ | .close | .spurious => true
  | _ => false

/-- The step is a stimulus. -/
def isGiven (a : Thread q P × Choice q P R) : Bool := a.2.isStimulus

namespace Shape

/-- The steps from `park.lock()` to the wait, with one pass of the sweep. -/
def parkSteps (q : Shape) : ℕ := q.passSteps + 8

/-- The steps of one loop of `pop_blocking`, from its first cheap scan to the wait. -/
def loopSteps (q : Shape) : ℕ := (SPIN_ROUNDS + 1) * q.passSteps + q.parkSteps

/-- The steps of a worker taken out of the wait set until it waits again; a worker that takes
a runnable out of the queues has as many to its next wait. -/
def wakeSteps (q : Shape) : ℕ := q.loopSteps + 5

/-- What the return of one runnable may cost: a loop of the worker that returns it, and one more
pass of the scan every worker is in. -/
def serveSteps (q : Shape) : ℕ := q.wakeSteps + q.numWorkers * q.passSteps

/-- What one stimulus may cost.  A push wakes one worker, makes every scan walk again and brings
a runnable; a shutdown call wakes all workers. -/
def stimulusSteps (q : Shape) : ℕ :=
  q.numWorkers * q.wakeSteps + 9 + q.serveSteps + q.numWorkers * q.passSteps

end Shape

/-- The steps of a wake check, and the work it gives to the worker it wakes. -/
def PushStage.work (q : Shape) : PushStage → ℕ
  | .loadParked => q.wakeSteps + 8
  | .loadNotified _ => q.wakeSteps + 7
  | .lock => q.wakeSteps + 6
  | .recheckParked => q.wakeSteps + 5
  | .recheckNotified _ => q.wakeSteps + 4
  | .fetchAdd => q.wakeSteps + 3
  | .notifyOne => q.wakeSteps + 2
  | .unlock => 1

/-- The steps of a shutdown call after its store, and the work it gives to the workers. -/
def CloseStage.work (q : Shape) : CloseStage → ℕ
  | .lock => q.numWorkers * q.wakeSteps + 3
  | .notifyAll => q.numWorkers * q.wakeSteps + 2
  | .unlock => 1

/-- The steps to the release of `park`. -/
def LeaveStage.work : LeaveStage → ℕ
  | .loadNotified => 4
  | .fetchSub => 3
  | .unpark => 2
  | .unlock => 1

/-- A worker inside `Runnable::run` still has to return from it and to come back to the wait. -/
def Caller.work (q : Shape) : Caller R → ℕ
  | .foreign => 0
  | .running _ => q.loopSteps + 1

/-- The work after the release of `park`. -/
def Exit.work (q : Shape) : Exit R → ℕ
  | .got _ => q.loopSteps + 1
  | .shut => 0
  | .woken => q.loopSteps

/-- The steps of a thread to the point where it rests, when its scans are not contended. -/
def Pc.work : Pc q R → ℕ
  | .out k => k.work q
  | .push k _ u => u.work q + k.work q
  | .close k c => c.work q + k.work q
  | .boot => q.loopSteps + 1
  | .cheap round s => (SPIN_ROUNDS - round) * q.passSteps + s.budget + q.parkSteps
  | .lock => q.passSteps + 8
  | .arm => q.passSteps + 7
  | .sweep s => s.budget + 6
  | .checkShutdown => 6
  | .wait => 1
  | .waiting | .spurious => q.wakeSteps
  | .leave e l => l.work + e.work q
  | .finished => 0

/-- A contended scan walks once more. -/
def CallLog.again (l : CallLog q) (pc : Pc q R) : ℕ :=
  match pc.scan with
  | some s => if s.contended = true ∨ l.touched.Nonempty then q.passSteps else 0
  | none => 0

section Moves

variable [DecidableEq P] {t : Thread q P} {c : Choice q P R} {m m' : Mem q P R} {pc pc' : Pc q R}

/-- Only a choice to push brings a runnable. -/
lemma Move.isStimulus_of_pushed (hm : Move t c m pc m' pc') (h : m'.pushed ≠ m.pushed) :
    c.isStimulus = true := by
  cases hm
  case spawn k x hash cell hc hx hown hfor =>
    rw [hc]
    rfl
  all_goals exact absurd rfl h

/-- **Step lemma.**  A step that does not stay inside a scan uses up work of its thread, takes
a runnable out of the queues, or is a stimulus. -/
theorem Move.work_le (hm : Move t c m pc m' pc') (hcall : pc.sameCall pc' = false)
    (hstir : pc' = .spurious → c.isStimulus = true) (hin : pc = .wait → t ∉ m.waiters)
    (hcard : m.waiters.card ≤ q.numWorkers) :
    pc'.work + m.waiters.card * q.wakeSteps + 1 ≤ pc.work + m'.waiters.card * q.wakeSteps +
      (if c.isStimulus then q.numWorkers * q.wakeSteps + 9 else 0) +
      (if m'.store.items.card < m.store.items.card then q.wakeSteps else 0) := by
  have hworkers : 1 * q.wakeSteps ≤ q.numWorkers * q.wakeSteps :=
    Nat.mul_le_mul_right _ q.numWorkers_pos
  have hwaiters : m.waiters.card * q.wakeSteps ≤ q.numWorkers * q.wakeSteps :=
    Nat.mul_le_mul_right _ hcard
  have hloop : q.loopSteps = (SPIN_ROUNDS - 0) * q.passSteps + q.passSteps + q.parkSteps := by
    rw [Shape.loopSteps, Nat.sub_zero, Nat.add_mul, Nat.one_mul]
  cases hm
  case cheapMore | sweepMore => simp [Pc.sameCall] at hcall
  -- the stimuli
  case spawn k x hash cell hc hx hown hfor =>
    rw [hc]
    simp only [Choice.isStimulus, if_true, Pc.work, PushStage.work]
    omega
  case close k hc =>
    rw [hc]
    simp only [Choice.isStimulus, if_true, Pc.work, CloseStage.work]
    omega
  case stir hw =>
    have herase := Finset.card_erase_add_one hw
    have hmul : m.waiters.card * q.wakeSteps =
        (m.waiters.erase t).card * q.wakeSteps + q.wakeSteps := by
      rw [← herase, Nat.add_mul, Nat.one_mul]
    rw [hstir rfl]
    simp only [if_true, Pc.work]
    omega
  -- the steps that change the wait set
  case wait =>
    rw [Finset.card_insert_of_notMem (hin rfl), Nat.add_mul, Nat.one_mul]
    simp only [Pc.work]
    omega
  case notifyOne k x u hu =>
    have herase := Finset.card_erase_add_one hu
    have hmul : m.waiters.card * q.wakeSteps =
        (m.waiters.erase u).card * q.wakeSteps + q.wakeSteps := by
      rw [← herase, Nat.add_mul, Nat.one_mul]
    simp only [Pc.work, PushStage.work]
    omega
  case notifyAll k =>
    simp only [Finset.card_empty, Pc.work, CloseStage.work]
    omega
  -- the steps that end a scan
  case cheapFound w o round s st r ht ho h | sweepFound w o s st r ht ho h =>
    have hitems := congrArg Multiset.card h.items_add
    simp only [ScanResult.taken, Multiset.card_add, Multiset.card_singleton] at hitems
    have hless : st.items.card < m.store.items.card := by omega
    simp only [hless, if_true, Pc.work, Caller.work, LeaveStage.work, Exit.work, Shape.wakeSteps]
    omega
  case cheapNext w o round s st ht ho hr h =>
    have hpos := s.budget_pos
    have hnext : (Scan.own : Scan q).budget = q.passSteps := rfl
    have hrounds : SPIN_ROUNDS - round = SPIN_ROUNDS - (round + 1) + 1 := by omega
    simp only [Pc.work, hnext, hrounds, Nat.add_mul, Nat.one_mul]
    omega
  case cheapLast w o round s st ht ho hr h =>
    have hpos := s.budget_pos
    simp only [Pc.work, Shape.parkSteps]
    omega
  case sweepEmpty w o s st ht ho h =>
    have hpos := s.budget_pos
    simp only [Pc.work]
    omega
  all_goals
    simp only [Pc.work, PushStage.work, CloseStage.work, LeaveStage.work, Exit.work, Caller.work,
      Scan.budget, Shape.parkSteps, Shape.wakeSteps] at *
    omega

/-- A step inside a scan moves no runnable and leaves the wait set alone. -/
lemma Move.eq_of_sameCall (hm : Move t c m pc m' pc') (hcall : pc.sameCall pc' = true) :
    m'.waiters = m.waiters ∧ ∀ v, m'.store.queue v = m.store.queue v := by
  cases hm
  case cheapMore w o round s s' st ht ho h | sweepMore w o s s' st ht ho h =>
    exact ⟨rfl, h.queue_eq rfl⟩
  case cheapNext => simp [Pc.sameCall] at hcall
  all_goals cases hcall

omit [DecidableEq P] in
/-- The work of a worker inside a scan goes down with the budget of its pass. -/
lemma Pc.work_of_sameCall {s s' : Scan q} (hcall : pc.sameCall pc' = true) (hs : pc.scan = some s)
    (hs' : pc'.scan = some s') : pc'.work + s.budget = pc.work + s'.budget := by
  cases pc <;> cases pc' <;> first | cases hcall | skip
  case cheap.cheap round sc round' sc' =>
    cases hs
    cases hs'
    obtain rfl : round = round' := by simpa [Pc.sameCall] using hcall
    simp only [Pc.work]
    omega
  case sweep.sweep sc sc' =>
    cases hs
    cases hs'
    simp only [Pc.work]
    omega

/-- A worker that waits spuriously has been asked to. -/
lemma isStimulus_of_spurious [DecidableEq R] (h : move t m pc c = some (m', .spurious)) :
    c.isStimulus = true := by
  have hm := Move.of_move h
  generalize hpc : (Pc.spurious : Pc q R) = pc' at hm
  cases hm
  case stir hw =>
    cases c <;> simp [move] at h
    rfl
  all_goals cases hpc

end Moves

/-! ## The further passes of the scans -/

section Again

variable {l : CallLog q} {pc pc' : Pc q R}

/-- Other threads make a scan walk once more at most, and only by changing a queue. -/
lemma CallLog.again_other (l : CallLog q) (pc : Pc q R) (changed : Finset (Victim q)) :
    (l.other changed).again pc ≤ l.again pc + if changed = ∅ then 0 else q.passSteps := by
  by_cases hchanged : changed = ∅
  · subst hchanged
    have hsame : (l.other ∅).touched = l.touched := Finset.union_empty _
    simp only [again, hsame, if_true]
    exact Nat.le_add_right _ _
  · simp only [again, hchanged, if_false]
    split
    · split <;> omega
    · exact Nat.zero_le _

/-- Outside a scan and at its start there is nothing to walk again. -/
lemma CallLog.again_own (hcall : pc.sameCall pc' = false)
    (hown : ∀ s, pc'.scan = some s → s = .own) : (l.own pc pc').again pc' = 0 := by
  simp only [CallLog.own, hcall, Bool.false_eq_true, if_false, again]
  cases hs : pc'.scan with
  | none => rfl
  | some s =>
    rw [hown s hs]
    exact if_neg (by simp [fresh, Scan.contended])

/-- **Step lemma.**  A scan that goes on uses up its pass, or a further pass that it was left
with. -/
lemma CallLog.budget_again {s s' : Scan q} {o : Steal} (hcall : pc.sameCall pc' = true)
    (hs : pc.scan = some s) (hs' : pc'.scan = some s') (hp : s.Proceeds o s')
    (hretry : s.Retried o → l.touched.Nonempty) :
    s'.budget + (l.own pc pc').again pc' + 1 ≤ s.budget + l.again pc := by
  have hpos := s.budget_pos
  have hagain : s.contended = true ∨ s.Retried o → l.again pc = q.passSteps := fun h => by
    simp only [again, hs]
    exact if_pos (h.imp_right hretry)
  have hnext : (l.own pc pc').again pc' = if s'.contended = true then q.passSteps else 0 := by
    simp [CallLog.own, hcall, again, hs']
  obtain ⟨-, ⟨rfl, hpaid⟩ | ⟨-, hless, hmore⟩⟩ := hp
  · have hbudget : (Scan.own : Scan q).budget = q.passSteps := rfl
    have hcontended : (Scan.own : Scan q).contended = false := rfl
    rw [hnext, hagain hpaid, hbudget, hcontended]
    simp only [Bool.false_eq_true, if_false]
    omega
  · by_cases hcontended : s'.contended = true
    · rw [hnext, hagain (hmore hcontended), if_pos hcontended]
      omega
    · rw [hnext, if_neg hcontended]
      omega

end Again

/-! ## The potential of the queue -/

section Potential

variable [Fintype P] {x x' : State q P R × (q.Worker → CallLog q)}

/-- The further passes a thread is left with. -/
def againOf (x : State q P R × (q.Worker → CallLog q)) : Thread q P → ℕ
  | .inl w => (x.2 w).again (x.1.pc (.inl w))
  | .inr _ => 0

/-- The further passes of all workers. -/
def passesAhead (x : State q P R × (q.Worker → CallLog q)) : ℕ :=
  tally (fun y : CallLog q × Pc q R => y.1.again y.2) fun w => (x.2 w, x.1.pc (.inl w))

/-- The work of all threads and of the stored runnables, as if nobody were in the wait set. -/
def grossWork (x : State q P R × (q.Worker → CallLog q)) : ℕ :=
  q.serveSteps * x.1.mem.store.items.card + tally Pc.work x.1.pc + passesAhead x

/-- The work ahead of the queue. -/
def workAhead (x : State q P R × (q.Worker → CallLog q)) : ℕ :=
  grossWork x - x.1.mem.waiters.card * q.wakeSteps

/-- Nobody in the wait set has more work than a signal would give. -/
lemma Handshake.waiters_le_grossWork (h : Handshake x.1) :
    x.1.mem.waiters.card * q.wakeSteps ≤ grossWork x := by
  have hwaiters : x.1.mem.waiters.card * q.wakeSteps ≤ tally Pc.work x.1.pc := by
    calc x.1.mem.waiters.card * q.wakeSteps = ∑ _t ∈ x.1.mem.waiters, q.wakeSteps := by
          rw [Finset.sum_const, smul_eq_mul]
      _ ≤ ∑ t ∈ x.1.mem.waiters, (x.1.pc t).work :=
        Finset.sum_le_sum fun t ht => by rw [h.waiting t ht]; exact le_rfl
      _ ≤ tally Pc.work x.1.pc := Finset.sum_le_sum_of_subset (Finset.subset_univ _)
  unfold grossWork
  omega

variable [DecidableEq P] [DecidableEq R] {a : Thread q P × Choice q P R}

omit [Fintype P] in
/-- A step makes every other scan walk once more at most, and only by changing a queue. -/
lemma passesAhead_step (hstep : (watched q P R).step x a = some x') :
    passesAhead x' + againOf x a.1 ≤ passesAhead x + againOf x' a.1 + q.numWorkers *
      if x.1.mem.store.changed x'.1.mem.store = ∅ then 0 else q.passSteps := by
  have hother : ∀ u : q.Worker, .inl u ≠ a.1 → (x'.2 u).again (x'.1.pc (.inl u)) ≤
      (x.2 u).again (x.1.pc (.inl u)) +
        if x.1.mem.store.changed x'.1.mem.store = ∅ then 0 else q.passSteps := by
    intro u hu
    rw [(log_of_other (Ne.symm hu) hstep).1, (record_step.mp hstep).2, noteCalls,
      if_neg (Ne.symm hu)]
    exact CallLog.again_other _ _ _
  have hcard : Fintype.card q.Worker = q.numWorkers := Fintype.card_fin _
  cases ht : a.1 with
  | inl w =>
    rw [ht] at hother
    have hle := tally_le_add_of_ne (fun y : CallLog q × Pc q R => y.1.again y.2)
      (fun u => (x.2 u, x.1.pc (.inl u))) (fun u => (x'.2 u, x'.1.pc (.inl u))) w
      fun u hu => hother u fun h => hu (Sum.inl_injective h)
    rw [hcard] at hle
    exact hle
  | inr p =>
    rw [ht] at hother
    have hle := tally_le_add (fun y : CallLog q × Pc q R => y.1.again y.2)
      (fun u => (x.2 u, x.1.pc (.inl u))) (fun u => (x'.2 u, x'.1.pc (.inl u)))
      fun u => hother u Sum.inl_ne_inr
    rw [hcard] at hle
    exact hle

omit [Fintype P] in
/-- The scans in progress load a slot only of a worker. -/
lemma slotted_of_reach (h : (watched q P R).Reach RetriesJustified x) {w : q.Worker} {s : Scan q}
    (hs : (x.1.pc (.inl w)).scan = some s) : s.Slotted :=
  ((logs_of_reach h).1 w s hs).slotted

/-- **Step lemma** for the thread that makes the step. -/
lemma work_step {t : Thread q P} {c : Choice q P R}
    (h : (watched q P R).Reach RetriesJustified x) (hok : RetriesJustified x (t, c))
    (hstep : (watched q P R).step x (t, c) = some x') :
    (x'.1.pc t).work + againOf x' t + x.1.mem.waiters.card * q.wakeSteps + 1 ≤
      (x.1.pc t).work + againOf x t + x'.1.mem.waiters.card * q.wakeSteps +
        (if c.isStimulus then q.numWorkers * q.wakeSteps + 9 else 0) +
        (if x'.1.mem.store.items.card < x.1.mem.store.items.card then q.wakeSteps else 0) := by
  obtain ⟨hmachine, hlog⟩ := record_step.mp hstep
  obtain ⟨⟨m, pc⟩, hmove, hstate⟩ := Option.map_eq_some_iff.mp hmachine
  have hm := Move.of_move hmove
  have hk := Kinds.of_reachable (reachable_of_watched h)
  have hh := Handshake.of_reachable (reachable_of_watched h)
  have hmem : x'.1.mem = m := by rw [← hstate]
  have hpc : x'.1.pc t = pc := by
    rw [← hstate]
    exact Function.update_self _ _ _
  rw [hmem, hpc]
  dsimp only at hmove hm
  by_cases hcall : (x.1.pc t).sameCall pc = true
  · obtain ⟨⟨s, hs⟩, s', hs'⟩ := Pc.exists_scan_of_sameCall hcall
    obtain ⟨w, rfl⟩ := hk.exists_worker_of_scan hs
    obtain ⟨o, st, res, ho, hscan, hmore⟩ := move_scan hs hmove
    rw [hmore s' hcall hs'] at hscan
    have hproceeds := scanMove_proceeds hscan (slotted_of_reach h hs)
    have hbudget : s'.budget + (x'.2 w).again pc + 1 ≤
        s.budget + (x.2 w).again (x.1.pc (.inl w)) := by
      rw [hlog, noteCalls, if_pos rfl, hpc]
      refine CallLog.budget_again hcall hs hs' hproceeds fun hretried => ?_
      refine touched_of_retried hs (fun hretry => ?_) hretried
      exact hok (by rw [ho, hretry]) w rfl
    have hwork := Pc.work_of_sameCall hcall hs hs'
    rw [(hm.eq_of_sameCall hcall).1]
    simp only [againOf, hpc]
    omega
  · rw [Bool.not_eq_true] at hcall
    have hzero : againOf x' t = 0 := by
      cases t with
      | inl w =>
        rw [againOf, hlog, noteCalls, if_pos rfl, hpc]
        exact CallLog.again_own hcall fun s hs => hm.scan_eq_own hs hcall
      | inr p => rfl
    have hwork := hm.work_le hcall ?_ ?_ ?_
    · rw [hzero]
      omega
    · rintro rfl
      exact isStimulus_of_spurious hmove
    · intro hwait hin
      rw [hh.waiting t hin] at hwait
      cases hwait
    · calc x.1.mem.waiters.card ≤ tally Pc.asleep x.1.pc := hh.card_waiters_le
        _ ≤ tally Pc.armed x.1.pc :=
          tally_le_tally fun u => le_trans (Pc.asleep_le_slept _) (Pc.slept_le_armed _)
        _ ≤ q.numWorkers := hk.armed_le

/-- **Step lemma.**  Every step that is no stimulus uses up work. -/
theorem workAhead_potential : Potential (watched q P R) RetriesJustified isGiven
    workAhead q.stimulusSteps := by
  rintro x ⟨t, c⟩ x' h hok hstep
  have hh := Handshake.of_reachable (reachable_of_watched h)
  have hh' := Handshake.of_reachable (reachable_of_watched (h.step hok hstep))
  have hwaiters := hh.waiters_le_grossWork (x := x)
  have hwaiters' := hh'.waiters_le_grossWork (x := x')
  have hthread := work_step h hok hstep
  have hpasses := passesAhead_step hstep
  obtain ⟨⟨m, pc⟩, hmove, hstate⟩ := Option.map_eq_some_iff.mp (record_step.mp hstep).1
  have hm := Move.of_move hmove
  have hupdate : tally Pc.work x'.1.pc + (x.1.pc t).work =
      tally Pc.work x.1.pc + (x'.1.pc t).work := by
    rw [← hstate]
    simp only [Function.update_self]
    exact tally_update _ _ _ _
  have heffect : Effect x.1.mem x'.1.mem := by
    rw [← hstate]
    exact hm.effect
  have hstimulus : x'.1.mem.pushed ≠ x.1.mem.pushed → c.isStimulus = true := by
    rw [← hstate]
    exact hm.isStimulus_of_pushed
  suffices hgross : grossWork x' + x.1.mem.waiters.card * q.wakeSteps + 1 ≤
      grossWork x + x'.1.mem.waiters.card * q.wakeSteps +
        if c.isStimulus then q.stimulusSteps else 0 by
    have hrise : (if isGiven (t, c) = true then q.stimulusSteps else 0) =
        if c.isStimulus then q.stimulusSteps else 0 := rfl
    rw [workAhead, workAhead, hrise]
    omega
  have hlater : q.numWorkers *
      (if x.1.mem.store.changed x'.1.mem.store = ∅ then 0 else q.passSteps) ≤
        q.numWorkers * q.passSteps := Nat.mul_le_mul_left _ (by split <;> omega)
  have hserve : q.serveSteps = q.wakeSteps + q.numWorkers * q.passSteps := rfl
  have hcost : q.stimulusSteps = q.numWorkers * q.wakeSteps + 9 + q.serveSteps +
      q.numWorkers * q.passSteps := rfl
  have hgiven : (if c.isStimulus then q.numWorkers * q.wakeSteps + 9 else 0) ≤
      if c.isStimulus then q.stimulusSteps else 0 := by split <;> omega
  unfold grossWork
  dsimp only at hpasses
  cases heffect with
  | none hqueue hpushed =>
    rw [if_pos (Store.changed_eq_empty.mpr hqueue), Nat.mul_zero] at hpasses
    rw [Store.items_congr hqueue, if_neg (lt_irrefl _)] at hthread
    rw [Store.items_congr hqueue]
    omega
  | push r hpushed hitems =>
    have hcard : x'.1.mem.store.items.card = x.1.mem.store.items.card + 1 := by
      rw [hitems, Multiset.card_add, Multiset.card_singleton]
    have hpush : c.isStimulus = true := hstimulus (by rw [hpushed]; simp)
    have hmore : ¬ x.1.mem.store.items.card + 1 < x.1.mem.store.items.card := by omega
    rw [hcard, if_pos hpush, if_neg hmore] at hthread
    rw [hcard, if_pos hpush, Nat.mul_add, Nat.mul_one]
    omega
  | @removal rs hrs hpushed hitems =>
    have htaken := Multiset.card_pos.mpr hrs
    have hcard : x'.1.mem.store.items.card + rs.card = x.1.mem.store.items.card := by
      rw [← hitems, Multiset.card_add]
    have hpaid : q.serveSteps * x'.1.mem.store.items.card + q.serveSteps ≤
        q.serveSteps * x.1.mem.store.items.card := by
      rw [← hcard, Nat.mul_add]
      exact Nat.add_le_add_left (Nat.le_mul_of_pos_right _ htaken) _
    have hless : x'.1.mem.store.items.card < x.1.mem.store.items.card := by omega
    rw [if_pos hless] at hthread
    omega

omit [DecidableEq P] [DecidableEq R] in
/-- A new queue has the start of its workers before it. -/
lemma workAhead_start : workAhead (State.start q P R, fun _ => CallLog.fresh) =
    q.numWorkers * (q.loopSteps + 1) := by
  have hitems : (State.start q P R).mem.store.items = 0 := by
    simp [State.start, Store.items, tally]
  have hwork : tally Pc.work (State.start q P R).pc = q.numWorkers * (q.loopSteps + 1) := by
    rw [tally_sum]
    simp [State.start, tally, Pc.work, Caller.work]
  have hpasses : passesAhead (State.start q P R, fun _ => CallLog.fresh) = 0 := by
    refine tally_eq_zero fun w => ?_
    rfl
  rw [workAhead, grossWork, hitems, hwork, hpasses]
  simp [State.start]

/-- **Nobody spins.**  If steals report `Retry` only after a change of their victim, the steps of
all threads together, in any run and any interleaving, are bounded by the pushes, the shutdown
calls and the spurious wake-ups in it. -/
theorem length_le_of_stimuli {as : List (Thread q P × Choice q P R)}
    (hm : (watched q P R).Meets RetriesJustified (State.start q P R, fun _ => .fresh) as)
    (h : (watched q P R).exec (State.start q P R, fun _ => .fresh) as = some x) :
    as.length ≤ q.numWorkers * (q.loopSteps + 1) +
      q.stimulusSteps * as.countP isGiven := by
  have hinit : (watched q P R).init (State.start q P R, fun _ => .fresh) := ⟨rfl, rfl⟩
  have hle := exec_length_le workAhead_potential (.of_init hinit) hm h
  rw [workAhead_start] at hle
  exact le_trans (Nat.le_add_left _ _) hle

end Potential

/-- The run with a contended sweep is such a run; one push pays for it. -/
theorem length_le_of_contended :
    contendedRun.countP isGiven = 1 ∧ contendedRun.length ≤
      duo.numWorkers * (duo.loopSteps + 1) + duo.stimulusSteps * contendedRun.countP isGiven := by
  have hexec : (watched duo Unit ℕ).exec (.start duo Unit ℕ, fun _ => .fresh) contendedRun =
      some contended := exec_final _ _ _
  exact ⟨by decide, length_le_of_stimuli (by decide +kernel) hexec⟩

/-! ## Nobody is stuck -/

section Progress

variable {s : State q P R} {t : Thread q P}

/-- The thread has nothing to do: it is outside the queue, has left, or sleeps in the wait set. -/
def State.Resting (s : State q P R) (t : Thread q P) : Prop :=
  s.pc t = .out .foreign ∨ s.pc t = .finished ∨ t ∈ s.mem.waiters

variable [DecidableEq P] [DecidableEq R]

/-- A thread that does not rest has a step, unless it waits for `park`. -/
lemma exists_move (hk : Kinds s) (hrest : ¬ s.Resting t)
    (hslot : ∀ sc, (s.pc t).scan = some sc → sc.Slotted)
    (hfree : 0 < (s.pc t).held ∨ s.mem.park = false) :
    ∃ c, c.isStimulus = false ∧ c.report ≠ some .retry ∧ move t s.mem (s.pc t) c ≠ none := by
  have hgo : move t s.mem (s.pc t) .go ≠ none →
      ∃ c, c.isStimulus = false ∧ c.report ≠ some .retry ∧ move t s.mem (s.pc t) c ≠ none :=
    fun h => ⟨.go, rfl, by simp [Choice.report], h⟩
  have hscan : ∀ sc, (s.pc t).scan = some sc →
      ∃ c, c.isStimulus = false ∧ c.report ≠ some .retry ∧ move t s.mem (s.pc t) c ≠ none := by
    intro sc hsc
    obtain ⟨w, rfl⟩ := hk.exists_worker_of_scan hsc
    obtain ⟨o, res, ho, hres⟩ := exists_move_of_scan (w := w) s.mem hsc (hslot sc hsc)
    exact ⟨.steal o, rfl, fun h => ho (Option.some.inj h), by simp [hres]⟩
  have hkind := hk t
  have hopen : (s.pc t).held = 0 → s.mem.park = false := fun h => by
    rw [h] at hfree
    exact hfree.resolve_left (lt_irrefl 0)
  simp only [State.Resting, not_or] at hrest
  obtain ⟨hforeign, hfinished, hwait⟩ := hrest
  generalize s.pc t = pc at *
  cases pc with
  | out k =>
    cases k with
    | foreign => exact absurd rfl hforeign
    | running r => exact ⟨.ret, rfl, by simp [Choice.report], by simp [move]⟩
  | push k x u =>
    cases u with
    | lock => exact hgo (by simp [move, pushMove, hopen rfl])
    | notifyOne =>
      rcases Finset.eq_empty_or_nonempty s.mem.waiters with hnone | ⟨u, hu⟩
      · exact hgo (by simp [move, pushMove, hnone])
      · exact ⟨.pick u, rfl, by simp [Choice.report], by simp [move, pushMove, hu]⟩
    | _ => exact hgo (by simp [move, pushMove])
  | close k cs =>
    cases cs with
    | lock => exact hgo (by simp [move, closeMove, hopen rfl])
    | _ => exact hgo (by simp [move, closeMove])
  | boot =>
    cases t with
    | inl w => exact hgo (by simp [move])
    | inr p => cases hkind
  | cheap round sc => exact hscan sc rfl
  | sweep sc => exact hscan sc rfl
  | lock => exact hgo (by simp [move, hopen rfl])
  | waiting => exact hgo (by simp [move, hwait, hopen rfl])
  | spurious => exact hgo (by simp [move, hopen rfl])
  | finished => exact absurd rfl hfinished
  | _ => exact hgo (by simp [move])

variable [Fintype P] {x : State q P R × (q.Worker → CallLog q)}

/-- Where only stimuli and contended steals are left, every thread rests; in particular `park` is
free. -/
lemma resting_of_stuck (hk : Kinds s) (hh : Handshake s)
    (hslot : ∀ u sc, (s.pc u).scan = some sc → sc.Slotted)
    (hstuck : ∀ u c, c.isStimulus = false → c.report ≠ some .retry →
      move u s.mem (s.pc u) c = none) (t : Thread q P) : s.Resting t := by
  have hrests : ∀ u, 0 < (s.pc u).held ∨ s.mem.park = false → s.Resting u := by
    intro u hfree
    by_contra hrest
    obtain ⟨c, hc, hreport, hmove⟩ := exists_move hk hrest (hslot u) hfree
    exact hmove (hstuck u c hc hreport)
  refine hrests t (Or.inr ?_)
  by_contra hpark
  have hheld : 0 < tally Pc.held s.pc := by
    rw [hh.park, Bool.not_eq_false _ |>.mp hpark]
    exact Nat.one_pos
  obtain ⟨u, hu⟩ := exists_pos_of_tally_pos hheld
  rcases hrests u (Or.inl hu) with hpc | hpc | hwait
  · rw [hpc] at hu
    cases hu
  · rw [hpc] at hu
    cases hu
  · rw [hh.waiting u hwait] at hu
    cases hu

omit [Fintype P] in
/-- Every scan of a watched queue has its slots. -/
lemma slotted_of_scan (h : (watched q P R).Reach RetriesJustified x) (u : Thread q P) (sc : Scan q)
    (hsc : (x.1.pc u).scan = some sc) : sc.Slotted := by
  obtain ⟨w, rfl⟩ := (Kinds.of_reachable (reachable_of_watched h)).exists_worker_of_scan hsc
  exact slotted_of_reach h hsc

/-- **Nobody is stuck.**  Where only stimuli are left, every thread rests. -/
theorem resting_of_settled (h : (watched q P R).Reach RetriesJustified x)
    (hx : Settled (watched q P R) RetriesJustified isGiven x) (t : Thread q P) :
    x.1.Resting t := by
  have hreach := reachable_of_watched h
  refine resting_of_stuck (.of_reachable hreach) (.of_reachable hreach) (slotted_of_scan h)
    (fun u c hc hreport => ?_) t
  by_contra hmove
  obtain ⟨res, hres⟩ := Option.ne_none_iff_exists'.mp hmove
  have hstep : x.1.step (u, c) = some ⟨res.1, Function.update x.1.pc u res.2⟩ :=
    Option.map_eq_some_iff.mpr ⟨res, hres, rfl⟩
  have hnone := hx (u, c) (fun hretry => absurd hretry hreport) hc
  rw [watched, record_of_step hstep] at hnone
  cases hnone

end Progress

/-! ## What is left when the queue settles -/

/-- A worker leaves after the flag is set, and a shutdown call that has set it is still to
broadcast or has woken everybody. -/
structure Broadcast (s : State q P R) : Prop where
  gone : ∀ w, (s.pc (.inl w)).isGone = true → s.mem.shutdown = true
  awake : s.mem.shutdown = true →
    (∃ t k cs, s.pc t = .close k cs ∧ cs ≠ .unlock) ∨ Awake s

section Broadcasts

variable [DecidableEq P] {s : State q P R} {t : Thread q P} {c : Choice q P R} {m m' : Mem q P R}
  {pc pc' : Pc q R}

/-- The flag is set at the beginning of a shutdown call. -/
lemma Move.closes (hm : Move t c m pc m' pc') (h : m'.shutdown = true) :
    m.shutdown = true ∨ ∃ k, pc' = .close k .lock := by
  cases hm
  case close k hc => exact Or.inr ⟨k, rfl⟩
  all_goals exact Or.inl h

/-- A shutdown call goes on. -/
lemma Move.close_next {k : Caller R} {cs : CloseStage} (hm : Move t c m (.close k cs) m' pc')
    (hcs : cs ≠ .unlock) : ∃ cs', pc' = .close k cs' := by
  cases hm
  case closeUnlock => exact absurd rfl hcs
  all_goals exact ⟨_, rfl⟩

/-- **Step lemma.** -/
theorem Broadcast.step (h : Broadcast s) (hm : Move t c s.mem (s.pc t) m' pc')
    (hc : Closing (⟨m', Function.update s.pc t pc'⟩ : State q P R)) :
    Broadcast ⟨m', Function.update s.pc t pc'⟩ := by
  have hkeep : s.mem.shutdown = true → m'.shutdown = true := by
    intro hset
    rcases hm.shutdown_eq with heq | ⟨-, hset', -⟩
    · exact heq.trans hset
    · exact hset'
  refine ⟨fun w hw => ?_, fun hset => ?_⟩
  · by_cases hwt : (.inl w : Thread q P) = t
    · subst hwt
      simp only [Function.update_self] at hw
      obtain ⟨hshut, -, hgone | ⟨-, hflag⟩⟩ := hm.isGone_of hw
      · exact hshut.trans (h.gone w hgone)
      · exact hshut.trans hflag
    · simp only [Function.update_of_ne hwt] at hw
      exact hkeep (h.gone w hw)
  · rcases hm.closes hset with hold | ⟨k, rfl⟩
    · rcases h.awake hold with ⟨u, k, cs, hu, hcs⟩ | hawake
      · by_cases hut : u = t
        · subst hut
          rw [hu] at hm
          obtain ⟨cs', rfl⟩ := hm.close_next hcs
          by_cases hlast : cs' = .unlock
          · subst hlast
            exact Or.inr (hc.awake u k (Function.update_self _ _ _))
          · exact Or.inl ⟨u, k, cs', Function.update_self _ _ _, hlast⟩
        · exact Or.inl ⟨u, k, cs, by rw [← hu]; exact Function.update_of_ne hut _ _, hcs⟩
      · exact Or.inr (hawake.step hm)
    · exact Or.inl ⟨t, k, .lock, Function.update_self _ _ _, by simp⟩

/-- The invariant holds in every run. -/
theorem Broadcast.of_reachable [Fintype P] [DecidableEq R] (h : (machine q P R).Reachable s) :
    Broadcast s := by
  refine h.invariant ?_ ?_
  · rintro _ rfl
    refine ⟨fun w hw => ?_, fun hset => ?_⟩
    · cases hw
    · cases hset
  · intro s a s' hr hb hok hs
    have hc := Closing.of_reachable (hr.step hok hs)
    obtain ⟨m, pc, hm, rfl⟩ := State.step_cases hs
    exact hb.step hm hc

end Broadcasts

section Settled

variable [Fintype P] [DecidableEq P] [DecidableEq R]
  {x y : State q P R × (q.Worker → CallLog q)}

omit [Fintype P] [DecidableEq P] [DecidableEq R] in
/-- A worker that rests has left or sleeps. -/
lemma State.Resting.worker {s : State q P R} (hk : Kinds s) {w : q.Worker}
    (h : s.Resting (.inl w)) : s.pc (.inl w) = .finished ∨ .inl w ∈ s.mem.waiters := by
  rcases h with hpc | hpc | hwait
  · have hkind := hk (.inl w)
    rw [hpc] at hkind
    cases hkind
  · exact Or.inl hpc
  · exact Or.inr hwait

/-- Where all threads rest and the flag is not set, every worker sleeps and everything has been
returned. -/
lemma returned_of_resting {s : State q P R} (h : (machine q P R).Reachable s)
    (hrest : ∀ t, s.Resting t) (hopen : s.mem.shutdown = false) :
    s.Quiescent ∧ (∀ v, s.mem.store.queue v = []) ∧ s.mem.pushed.Perm s.mem.returned := by
  have hk := Kinds.of_reachable h
  have hh := Handshake.of_reachable h
  have hs := Storage.of_reachable h
  have hasleep : ∀ w, .inl w ∈ s.mem.waiters := by
    intro w
    refine ((hrest (.inl w)).worker hk).resolve_left fun hpc => ?_
    have hset := (Broadcast.of_reachable h).gone w (by rw [hpc]; rfl)
    rw [hopen] at hset
    cases hset
  have hquiet : s.Quiescent := by
    refine ⟨fun t => ?_, hasleep⟩
    rcases hrest t with hpc | hpc | hwait
    · rw [hpc]
      rfl
    · rw [hpc]
      rfl
    · rw [hh.waiting t hwait]
      rfl
  have hempty := (Attended.of_reachable h).queue_eq_nil hh hs hquiet
  refine ⟨hquiet, hempty, hs.pushed_perm hempty (hk.inHand_eq_zero fun w => ?_)⟩
  rw [hh.waiting _ (hasleep w)]
  rfl

/-- Where all threads rest and the flag is set, every worker has left. -/
lemma finished_of_resting {s : State q P R} (h : (machine q P R).Reachable s)
    (hrest : ∀ t, s.Resting t) (hset : s.mem.shutdown = true) (w : q.Worker) :
    s.pc (.inl w) = .finished := by
  have hh := Handshake.of_reachable h
  have hawake : Awake s := by
    refine ((Broadcast.of_reachable h).awake hset).resolve_left ?_
    rintro ⟨t, k, cs, hpc, -⟩
    rcases hrest t with hrest | hrest | hrest
    · rw [hpc] at hrest
      cases hrest
    · rw [hpc] at hrest
      cases hrest
    · rw [hh.waiting t hrest] at hpc
      cases hpc
  refine ((hrest (.inl w)).worker (Kinds.of_reachable h)).resolve_right ?_
  rw [hawake.waiters]
  exact Finset.notMem_empty _

omit [Fintype P] in
/-- Without stimuli nothing is pushed and the flag does not change. -/
lemma history_of_alone (hl : (watched q P R).Leads (alone RetriesJustified isGiven) x y) :
    y.1.mem.pushed = x.1.mem.pushed ∧ y.1.mem.shutdown = x.1.mem.shutdown := by
  induction hl with
  | refl => exact ⟨rfl, rfl⟩
  | @tail u u' a _ hok hstep ih =>
    obtain ⟨hpushed, hshut⟩ := ih
    have hgiven : a.2.isStimulus = false := hok.2
    obtain ⟨m, pc, hm, hstate⟩ := State.step_cases (record_step.mp hstep).1
    rw [hstate, ← hpushed, ← hshut]
    refine ⟨?_, ?_⟩
    · by_contra hne
      rw [hm.isStimulus_of_pushed hne] at hgiven
      cases hgiven
    · refine hm.shutdown_eq.resolve_right ?_
      rintro ⟨hclose, -, -⟩
      rw [hclose] at hgiven
      cases hgiven

/-- **The queue settles.**  Left to itself from any state, the queue comes to a state in which
nothing but stimuli can happen, after a number of steps bounded by its work; whichever steps it
takes, in that state no thread is inside a function of the queue.  If no shutdown call has been
made, the workers all sleep over empty queues and everything pushed has been returned; otherwise
every worker has left and every deque is empty. -/
theorem settles (h : (watched q P R).Reach RetriesJustified x) :
    (∃ y, (watched q P R).Leads (alone RetriesJustified isGiven) x y ∧
      Settled (watched q P R) RetriesJustified isGiven y) ∧
    (∀ as y, (watched q P R).Meets (alone RetriesJustified isGiven) x as →
      (watched q P R).exec x as = some y → as.length ≤ workAhead x) ∧
    ∀ y, (watched q P R).Leads (alone RetriesJustified isGiven) x y →
      Settled (watched q P R) RetriesJustified isGiven y →
      (∀ p, y.1.pc (.inr p) = .out .foreign) ∧
      (x.1.mem.shutdown = false → y.1.Quiescent ∧ (∀ v, y.1.mem.store.queue v = []) ∧
        x.1.mem.pushed.Perm y.1.mem.returned) ∧
      (x.1.mem.shutdown = true → ∀ w, y.1.pc (.inl w) = .finished ∧
        y.1.mem.store.deques w = []) := by
  refine ⟨exists_settled workAhead_potential h, fun as y hm hexec => ?_, fun y hl hy => ?_⟩
  · exact exec_length_le_of_alone workAhead_potential h hm hexec
  · have hreach := h.leads hl.of_alone
    have hr := reachable_of_watched hreach
    have hrest := resting_of_settled hreach hy
    obtain ⟨hpushed, hshut⟩ := history_of_alone hl
    refine ⟨fun p => ?_, fun hopen => ?_, fun hset w => ?_⟩
    · rcases hrest (.inr p) with hpc | hpc | hwait
      · exact hpc
      · have hkind := Kinds.of_reachable hr (.inr p)
        rw [hpc] at hkind
        cases hkind
      · obtain ⟨w, hw⟩ := (Handshake.of_reachable hr).exists_worker (.of_reachable hr) hwait
        cases hw
    · rw [← hpushed]
      exact returned_of_resting hr hrest (hshut.trans hopen)
    · have hpc := finished_of_resting hr hrest (hshut.trans hset) w
      refine ⟨hpc, (Storage.of_reachable hr).drained w ?_⟩
      rw [hpc]
      rfl

/-- From the middle of a contended sweep, with `park` held and a producer blocked, the queue comes
to rest, and then the runnable that was pushed has been returned. -/
theorem settles_contended :
    contended.1.mem.park = true ∧ contended.1.mem.pushed = [7] ∧
      (∃ y, (watched duo Unit ℕ).Leads (alone RetriesJustified isGiven) contended y ∧
        Settled (watched duo Unit ℕ) RetriesJustified isGiven y) ∧
      ∀ y, (watched duo Unit ℕ).Leads (alone RetriesJustified isGiven) contended y →
        Settled (watched duo Unit ℕ) RetriesJustified isGiven y →
        y.1.Quiescent ∧ contended.1.mem.pushed.Perm y.1.mem.returned := by
  have hinit : (watched duo Unit ℕ).init (.start duo Unit ℕ, fun _ => .fresh) := ⟨rfl, rfl⟩
  have hreach : (watched duo Unit ℕ).Reach RetriesJustified contended :=
    .final hinit (by decide +kernel) _
  obtain ⟨hexists, -, hends⟩ := settles hreach
  refine ⟨by decide +kernel, by decide +kernel, hexists, fun y hl hy => ?_⟩
  obtain ⟨-, hopen, -⟩ := hends y hl hy
  obtain ⟨hquiet, -, hperm⟩ := hopen (by decide +kernel)
  exact ⟨hquiet, hperm⟩

omit [Fintype P] [DecidableEq P] [DecidableEq R] in
/-- Ownership allows a pool everything it does by itself. -/
lemma State.owned_of_not_stimulus {s : State q P R} {t : Thread q P} {c : Choice q P R}
    (hc : c.isStimulus = false) : s.Owned (t, c) := by
  refine ⟨fun _ hspawn => ?_, fun hclose => ?_⟩
  · cases c <;> simp_all [Choice.isSpawn, Choice.isStimulus]
  · have hclose : c = .close := hclose
    subst hclose
    cases hc

/-- Where shutdown follows the foreign pushes and every worker has left, nothing is stored and
everything has been returned. -/
lemma emptied_of_finished {s : State q P R} (h : (machine q P R).Reach State.Owned s)
    (hf : ∀ w, s.pc (.inl w) = .finished) :
    (∀ v, s.mem.store.queue v = []) ∧ s.mem.pushed.Perm s.mem.returned := by
  have hs := Storage.of_reachable h.reachable
  have hempty : ∀ v, s.mem.store.queue v = [] := by
    rintro (i | w)
    · obtain ⟨w⟩ := (inferInstance : Nonempty q.Worker)
      have hgone : (s.pc (.inl w)).isGone = true := by
        rw [hf w]
        rfl
      exact ((Drained.of_reach h).empty w hgone).2 i
    · refine hs.drained w ?_
      rw [hf w]
      rfl
  refine ⟨hempty, hs.pushed_perm hempty ((Kinds.of_reachable h.reachable).inHand_eq_zero ?_)⟩
  intro w
  rw [hf w]
  rfl

/-- **Shutdown completes.**  Suppose that shutdown is called when every foreign push has returned.
Left to itself after that call, the pool comes to rest, and whichever steps it takes, then every
worker has left, nothing is stored, and every runnable pushed before or after the call has
been returned exactly once. -/
theorem shutdown_completes
    (h : (watched q P R).Reach (fun x a => RetriesJustified x a ∧ x.1.Owned a) x)
    (hset : x.1.mem.shutdown = true) :
    (∃ y, (watched q P R).Leads (alone RetriesJustified isGiven) x y ∧
      Settled (watched q P R) RetriesJustified isGiven y) ∧
    ∀ y, (watched q P R).Leads (alone RetriesJustified isGiven) x y →
      Settled (watched q P R) RetriesJustified isGiven y →
      (∀ w, y.1.pc (.inl w) = .finished) ∧ (∀ v, y.1.mem.store.queue v = []) ∧
        x.1.mem.pushed.Perm y.1.mem.returned := by
  have hjustified : (watched q P R).Reach RetriesJustified x := h.mono fun _ _ hok => hok.1
  refine ⟨exists_settled workAhead_potential hjustified, fun y hl hy => ?_⟩
  have hreach := hjustified.leads hl.of_alone
  have hr := reachable_of_watched hreach
  obtain ⟨hpushed, hshut⟩ := history_of_alone hl
  have hfinished := finished_of_resting hr (resting_of_settled hreach hy) (hshut.trans hset)
  -- the steps of a pool left to itself are such as ownership allows
  have howned : (machine q P R).Reach State.Owned y.1 := by
    have hbefore : (watched q P R).Reach (fun x a => x.1.Owned a) x := h.mono fun _ _ hok => hok.2
    have hafter : (watched q P R).Leads (fun x a => x.1.Owned a) x y :=
      hl.mono fun _ _ hok => State.owned_of_not_stimulus hok.2
    have howned := hbefore.leads hafter
    unfold watched at howned
    exact howned.of_record_meets fun _ _ hok => hok
  obtain ⟨hempty, hperm⟩ := emptied_of_finished howned hfinished
  refine ⟨hfinished, hempty, ?_⟩
  rw [← hpushed]
  exact hperm

/-- A push by a foreign thread, which then stores the shutdown flag; no worker has started. -/
def earlyCloseRun : List (Thread duo Unit × Choice duo Unit ℕ) :=
  [(.inr (), .spawn 7 0 none)] ++ goes (.inr ()) 2 ++ [(.inr (), .close)]

/-- The state after `earlyCloseRun`. -/
def earlyClosed : State duo Unit ℕ × (duo.Worker → CallLog duo) :=
  (watched duo Unit ℕ).final (.start duo Unit ℕ, fun _ => .fresh) earlyCloseRun (by decide)

/-- The workers start, return the runnable and leave. -/
theorem shutdown_completes_early :
    earlyClosed.1.mem.returned = [] ∧
      (∃ y, (watched duo Unit ℕ).Leads (alone RetriesJustified isGiven) earlyClosed y ∧
        Settled (watched duo Unit ℕ) RetriesJustified isGiven y) ∧
      ∀ y, (watched duo Unit ℕ).Leads (alone RetriesJustified isGiven) earlyClosed y →
        Settled (watched duo Unit ℕ) RetriesJustified isGiven y →
        (∀ w, y.1.pc (.inl w) = .finished) ∧ (∀ v, y.1.mem.store.queue v = []) ∧
          earlyClosed.1.mem.pushed.Perm y.1.mem.returned := by
  have hinit : (watched duo Unit ℕ).init (.start duo Unit ℕ, fun _ => .fresh) := ⟨rfl, rfl⟩
  have hreach : (watched duo Unit ℕ).Reach (fun x a => RetriesJustified x a ∧ x.1.Owned a)
      earlyClosed := .final hinit (by decide) _
  exact ⟨by decide, shutdown_completes hreach (by decide)⟩

end Settled

end AffinityPool
