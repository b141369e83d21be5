import AffinityPool.Foundation.Channels
import AffinityPool.Foundation.Record
import AffinityPool.Queue.Delivery
import AffinityPool.Queue.RetryLoop

/-!
# The queue is a network of FIFO channels

What a queue is for: a network whose channels are the injectors and the workers' deques, into
which pushes put runnables and out of which workers take them or haul batches, every operation
atomic.  `State.channelOp` reads off the operation a step performs; all other steps, the whole
park handshake among them, perform none.  The network follows every run of the queue
(`channels_refined`), and as its channels are queues, so is every injector and every deque of a
pool of any size (`channels_fifo`).
-/

namespace AffinityPool

open Transition System

variable {q : Shape} {P R : Type}

/-- The operation of a scan step. -/
def scanOp (st : Store q R) (i : q.Worker) (o : Steal) : Scan q → Option (Op (Victim q) R)
  | .own => if (st.deques i).isEmpty then none else some (.take (.peer i))
  | .visit p =>
    match o with
    | .batch n => if p.access = .steal then some (.haul p.victim (.peer i) n) else none
    | _ => none

/-- The operation of a step. -/
def State.channelOp (s : State q P R) : Thread q P × Choice q P R → Option (Op (Victim q) R)
  | (t, .spawn r hash cell) => some (.put (pushTarget hash cell t) r)
  | (.inl w, c) =>
    (s.pc (.inl w)).scan.bind fun sc => c.report.bind fun o => scanOp s.mem.store w o sc
  | (.inr _, _) => none

section Scans

variable {i : q.Worker} {b : Probe} {o : Steal} {st st' : Store q R} {s : Scan q}
  {res : ScanResult q R} {x : Net (Victim q) R}

/-- The network `x` has the queues of the storage as its channels. -/
def Holds (x : Net (Victim q) R) (st : Store q R) : Prop := ∀ v, x.chan v = st.queue v

lemma Holds.append (h : Holds x st) (v : Victim q) (rs : List R) :
    Holds (x.append v rs) (st.setQueue v (st.queue v ++ rs)) := by
  intro u
  by_cases hu : u = v
  · subst hu
    rw [Store.queue_setQueue_self, ← h u]
    exact Function.update_self _ _ _
  · rw [Store.queue_setQueue_of_ne _ hu, ← h u]
    exact Function.update_of_ne hu _ _

lemma Holds.remove (h : Holds x st) (v : Victim q) (n : ℕ) :
    Holds (x.remove v n) (st.setQueue v ((st.queue v).drop n)) := by
  intro u
  by_cases hu : u = v
  · subst hu
    rw [Store.queue_setQueue_self, ← h u]
    exact Function.update_self _ _ _
  · rw [Store.queue_setQueue_of_ne _ hu, ← h u]
    exact Function.update_of_ne hu _ _

/-- A step of a scan is its operation on the channels, or changes no queue and finds nothing. -/
theorem Holds.scanMove (h : Holds x st) (hs : scanMove st i b o s = some (st', res)) :
    (scanOp st i o s = none ∧ Holds x st' ∧ res.taken = 0) ∨
      ∃ op r x', scanOp st i o s = some op ∧ res = .found r ∧ x.step op = some x' ∧
        Holds x' st' ∧ x'.out = x.out + {r} ∧
        ∀ j, x'.entered (.injector j) = x.entered (.injector j) := by
  cases s with
  | own =>
    cases hd : st.deques i with
    | nil =>
      simp only [AffinityPool.scanMove, hd, Option.some.injEq, Prod.mk.injEq] at hs
      obtain ⟨rfl, rfl⟩ := hs
      exact Or.inl ⟨by simp [scanOp, hd], h, rfl⟩
    | cons r rest =>
      simp only [AffinityPool.scanMove, hd, Option.some.injEq, Prod.mk.injEq] at hs
      obtain ⟨rfl, rfl⟩ := hs
      have hchan : x.chan (.peer i) = r :: rest := (h (.peer i)).trans hd
      refine Or.inr ⟨.take (.peer i), r, (x.remove (.peer i) 1).release r,
        by simp [scanOp, hd], rfl, by simp [Net.step, hchan], ?_, rfl, fun j => rfl⟩
      have hrest := h.remove (.peer i) 1
      rw [Store.queue_peer, hd] at hrest
      exact hrest
  | visit p =>
    by_cases hbatch : p.access = .steal ∧ ∃ n, o = .batch n
    · obtain ⟨ha, n, rfl⟩ := hbatch
      cases ht : (st.queue p.victim).take n with
      | nil => simp [AffinityPool.scanMove, ha, Store.stealBatch, ht] at hs
      | cons r moved =>
        simp only [AffinityPool.scanMove, ha, Store.stealBatch, ht, Option.map_some,
          Option.some.injEq, Prod.mk.injEq] at hs
        obtain ⟨rfl, rfl⟩ := hs
        have htake : (x.chan p.victim).take n = r :: moved := by rw [h p.victim, ht]
        refine Or.inr ⟨.haul p.victim (.peer i) n, r,
          ((x.remove p.victim n).append (.peer i) moved).release r, by simp [scanOp, ha], rfl,
          by simp only [Net.step, htake], (h.remove p.victim n).append (.peer i) moved, rfl,
          fun j => ?_⟩
        have hne : Victim.injector j ≠ .peer i := by simp
        exact Function.update_of_ne hne (x.entered (.peer i) ++ moved) x.entered
    · have hnone : scanOp st i o (.visit p) = none := by
        cases o with
        | batch n => exact if_neg fun ha => hbatch ⟨ha, n, rfl⟩
        | empty => rfl
        | retry => rfl
      have hmove := ScanMove.of_scanMove hs
      have htaken : res.taken = 0 := by
        cases hmove with
        | access p a => rfl
        | miss hblank => exact Store.taken_advance _ _ _ _
        | retry p => exact Store.taken_advance _ _ _ _
        | batch ho ha ht => exact absurd ⟨ha, _, ho⟩ hbatch
      exact Or.inl ⟨hnone, fun v => (h v).trans (hmove.queue_eq htaken v).symm, htaken⟩

end Scans

section Moves

variable [DecidableEq P] {t : Thread q P} {c : Choice q P R} {m m' : Mem q P R} {pc pc' : Pc q R}

/-- Outside of scans, and where no push begins, no runnable moves. -/
lemma Move.keeps (hm : Move t c m pc m' pc') (hscan : pc.scan = none)
    (hspawn : ∀ r hash cell, c ≠ .spawn r hash cell)
    (hboot : ∀ w, t = .inl w → pc = .boot → m.store.deques w = []) :
    (∀ v, m'.store.queue v = m.store.queue v) ∧ m'.pushed = m.pushed ∧
      (m'.returned : Multiset R) + pc'.inHand = m.returned + pc.inHand := by
  cases hm
  case cheapMore | cheapFound | cheapNext | cheapLast | sweepMore | sweepFound | sweepEmpty =>
    cases hscan
  case spawn k x hash cell hc hx hown hfor =>
    exact absurd hc (hspawn _ _ _)
  case boot w ht =>
    refine ⟨fun v => ?_, rfl, rfl⟩
    rcases m.store.register_cases w with hqueue | ⟨rs, hrs, hitems⟩
    · exact hqueue v
    · rw [Store.items_register _ w (hboot w ht rfl)] at hitems
      exact absurd (left_eq_add.mp hitems.symm) hrs
  case giveBack r =>
    refine ⟨fun v => rfl, rfl, ?_⟩
    simp only [Pc.inHand, ← Multiset.coe_add, Multiset.coe_singleton, add_zero]
  case consume e h | pass e h | lower e | unpark e => cases e <;> exact ⟨fun v => rfl, rfl, rfl⟩
  all_goals exact ⟨fun v => rfl, rfl, rfl⟩

variable [DecidableEq R]

/-- A step of a scan changes the storage as `Queue::scan` does, and what it has found is returned
or in hand. -/
lemma move_scan_taken {w : q.Worker} {s : Scan q} (hs : pc.scan = some s)
    (h : move (.inl w) m pc c = some (m', pc')) :
    ∃ o res, c.report = some o ∧ scanMove m.store w pc.probe o s = some (m'.store, res) ∧
      m'.pushed = m.pushed ∧
      (m'.returned : Multiset R) + pc'.inHand = m.returned + pc.inHand + res.taken := by
  cases pc with
  | cheap round sc =>
    cases hs
    cases ho : c.report with
    | none => simp [move, ho] at h
    | some o =>
      simp only [move, ho, Option.map_eq_some_iff] at h
      obtain ⟨⟨st, res⟩, hscan, heq⟩ := h
      cases res with
      | more s₁ =>
        cases heq
        exact ⟨o, _, rfl, hscan, rfl, (add_zero _).symm⟩
      | found r =>
        cases heq
        refine ⟨o, _, rfl, hscan, rfl, ?_⟩
        simp only [Pc.inHand, ScanResult.taken, ← Multiset.coe_add, Multiset.coe_singleton,
          add_zero]
      | empty =>
        simp only [afterCheap, Prod.mk.injEq] at heq
        obtain ⟨rfl, rfl⟩ := heq
        refine ⟨o, _, rfl, hscan, rfl, ?_⟩
        split <;> exact (add_zero _).symm
  | sweep sc =>
    cases hs
    cases ho : c.report with
    | none => simp [move, ho] at h
    | some o =>
      simp only [move, ho, Option.map_eq_some_iff] at h
      obtain ⟨⟨st, res⟩, hscan, heq⟩ := h
      cases res with
      | more s₁ | empty =>
        cases heq
        exact ⟨o, _, rfl, hscan, rfl, (add_zero _).symm⟩
      | found r =>
        cases heq
        refine ⟨o, _, rfl, hscan, rfl, ?_⟩
        simp only [Pc.inHand, ScanResult.taken, add_zero]
  | _ => cases hs

end Moves

/-! ## The network follows the queue -/

section Runs

variable [Fintype P] [DecidableEq P] [DecidableEq R]

/-- The network stands for the state: its channels are the queues, what has left it has been
returned or is in hand, and an injector has received runnables in the order of their pushes. -/
structure Follows (s : State q P R) (x : Net (Victim q) R) : Prop where
  holds : Holds x s.mem.store
  out : x.out = s.mem.returned + s.inHand
  pushed : ∀ i, (x.entered (.injector i)).Sublist s.mem.pushed

/-- **Step lemma.**  A step is one operation of the network, or none. -/
theorem Follows.step {s s' : State q P R} {a : Thread q P × Choice q P R} {x : Net (Victim q) R}
    (h : Follows s x) (hs : Storage s) (hk : Kinds s) (hstep : s.step a = some s') :
    (s.channelOp a = none ∧ Follows s' x) ∨
      ∃ op x', s.channelOp a = some op ∧ x.step op = some x' ∧ Follows s' x' := by
  obtain ⟨t, c⟩ := a
  obtain ⟨⟨m, pc⟩, hmove, rfl⟩ := Option.map_eq_some_iff.mp hstep
  dsimp only at hmove
  have hm := Move.of_move hmove
  -- what the thread has in hand, and what all threads have
  have hhand : ∀ rs : Multiset R,
      (m.returned : Multiset R) + pc.inHand = s.mem.returned + (s.pc t).inHand + rs →
      (m.returned : Multiset R) + tally Pc.inHand (Function.update s.pc t pc) =
        s.mem.returned + s.inHand + rs := by
    intro rs hrs
    have hupdate := tally_update Pc.inHand s.pc t pc
    refine add_right_cancel (b := (s.pc t).inHand) ?_
    calc (m.returned : Multiset R) + tally Pc.inHand (Function.update s.pc t pc) + (s.pc t).inHand
        = (m.returned + pc.inHand) + s.inHand := by
          rw [add_assoc, hupdate, State.inHand]
          abel
      _ = s.mem.returned + s.inHand + rs + (s.pc t).inHand := by
          rw [hrs]
          abel
  by_cases hspawn : ∃ r hash cell, c = .spawn r hash cell
  · obtain ⟨r, hash, cell, rfl⟩ := hspawn
    obtain ⟨k, hpc, -, rfl, rfl⟩ := move_spawn hmove
    refine Or.inr ⟨_, _, rfl, rfl, h.holds.append _ _, ?_, fun i => ?_⟩
    · have hout := hhand 0 (by rw [hpc]; exact (add_zero _).symm)
      rw [add_zero] at hout
      exact h.out.trans hout.symm
    · by_cases hi : Victim.injector i = pushTarget hash cell t
      · simp only [Net.append, ← hi, Function.update_self]
        exact (h.pushed i).append (List.Sublist.refl [r])
      · simp only [Net.append, Function.update_of_ne hi]
        exact (h.pushed i).trans (List.sublist_append_left _ _)
  · have hnopush : ∀ r hash cell, c ≠ .spawn r hash cell := fun r hash cell heq =>
      hspawn ⟨r, hash, cell, heq⟩
    cases hscan : (s.pc t).scan with
    | none =>
      have hop : s.channelOp (t, c) = none := by
        cases t with
        | inl w =>
          cases c <;> first | exact absurd rfl (hnopush _ _ _) | simp [State.channelOp, hscan]
        | inr p => cases c <;> first | exact absurd rfl (hnopush _ _ _) | rfl
      obtain ⟨hqueue, hpushed, hkept⟩ := hm.keeps hscan hnopush fun w hw hpc => by
        subst hw
        exact hs.drained w (by rw [hpc]; rfl)
      refine Or.inl ⟨hop, fun v => (h.holds v).trans (hqueue v).symm, ?_, fun i => ?_⟩
      · have hout := hhand 0 (by rw [hkept, add_zero])
        rw [add_zero] at hout
        exact h.out.trans hout.symm
      · exact hpushed ▸ h.pushed i
    | some sc =>
      obtain ⟨w, rfl⟩ := hk.exists_worker_of_scan hscan
      obtain ⟨o, res, ho, hmoved, hpushed, htaken⟩ := move_scan_taken hscan hmove
      have hop : s.channelOp (.inl w, c) = scanOp s.mem.store w o sc := by
        cases c <;> first | exact absurd rfl (hnopush _ _ _) | simp [State.channelOp, hscan, ho]
      have hout := hhand _ htaken
      rcases h.holds.scanMove hmoved with ⟨hnone, hholds, hzero⟩ |
        ⟨op, r, x', hsome, rfl, hx, hholds, hadd, hentered⟩
      · refine Or.inl ⟨hop.trans hnone, hholds, ?_, fun i => hpushed ▸ h.pushed i⟩
        rw [hzero, add_zero] at hout
        exact h.out.trans hout.symm
      · refine Or.inr ⟨op, x', hop.trans hsome, hx, hholds, ?_, fun i => ?_⟩
        · rw [hadd, h.out]
          exact hout.symm
        · rw [hentered i]
          exact hpushed ▸ h.pushed i

/-- The queue with the network that follows it. -/
def networked (q : Shape) (P R : Type) [DecidableEq P] [DecidableEq R] :
    System (State q P R × Net (Victim q) R) (Thread q P × Choice q P R) :=
  (machine q P R).record .empty (followed (network (Victim q) R) State.channelOp)

variable {y : State q P R × Net (Victim q) R}

/-- **Run lemma.**  The network follows every run of the queue. -/
lemma follows_of_reachable (h : (networked q P R).Reachable y) :
    Follows y.1 y.2 ∧ (network (Victim q) R).Reachable y.2 := by
  refine Reach.followed (R := Follows) rfl ?_ ?_ h
  · rintro _ rfl
    refine ⟨fun v => ?_, ?_, fun i => List.nil_sublist _⟩
    · cases v <;> rfl
    · have hhand : (State.start q P R).inHand = 0 := by
        refine tally_eq_zero ?_
        rintro (w | p)
        · rfl
        · rfl
      rw [hhand]
      rfl
  · intro s a s' x hs hx hstep
    exact hx.step (.of_reachable hs) (.of_reachable hs) hstep

/-- **The queue refines a network of FIFO channels.**  In every run, every step of every thread
performs at most one operation on the channels, `State.channelOp`.  With these operations, each of
them atomic, the network goes through a run of its own, and in every reachable state its channels
are the injectors and the deques, and what has left it is what `pop_blocking` has returned
together with what its callers have in hand. -/
theorem channels_refined (h : (networked q P R).Reachable y) :
    (network (Victim q) R).Reachable y.2 ∧ (∀ v, y.2.chan v = y.1.mem.store.queue v) ∧
      y.2.out = y.1.mem.returned + y.1.inHand ∧
      ∀ a s', y.1.step a = some s' → (y.1.channelOp a = none ∧ Follows s' y.2) ∨
        ∃ op x', y.1.channelOp a = some op ∧ y.2.step op = some x' ∧ Follows s' x' := by
  obtain ⟨hfollows, hreach⟩ := follows_of_reachable h
  have hs : (machine q P R).Reachable y.1 := h.of_record
  exact ⟨hreach, hfollows.holds, hfollows.out, fun a s' hstep =>
    hfollows.step (.of_reachable hs) (.of_reachable hs) hstep⟩

/-- **Every queue of the pool is FIFO.**  In every run, what has been taken out of an injector or
a deque, in this order, followed by what is in it, is what has been put into it; an injector has
received its runnables in the order of the pushes, and of two of them the later one is not taken
out before the earlier one. -/
theorem channels_fifo (h : (networked q P R).Reachable y) :
    (∀ v, y.2.left v ++ y.1.mem.store.queue v = y.2.entered v) ∧
      ∀ i, (y.2.entered (.injector i)).Sublist y.1.mem.pushed ∧
        ∀ r r', [r, r'].Sublist (y.2.entered (.injector i)) →
          r' ∈ y.2.left (.injector i) → r ∈ y.2.left (.injector i) := by
  obtain ⟨hfollows, hreach⟩ := follows_of_reachable h
  have hbalanced : ∀ v, y.2.left v ++ y.1.mem.store.queue v = y.2.entered v := fun v => by
    rw [← hfollows.holds v]
    exact Net.Balanced.of_reachable hreach v
  refine ⟨hbalanced, fun i => ⟨hfollows.pushed i, fun r r' hpair hleft => ?_⟩⟩
  have hnodup : (y.2.left (.injector i) ++ y.1.mem.store.queue (.injector i)).Nodup := by
    rw [hbalanced]
    exact (Storage.of_reachable h.of_record).nodup.sublist (hfollows.pushed i)
  rw [← hbalanced, List.sublist_append_iff] at hpair
  obtain ⟨l₁, l₂, hsplit, hl₁, hl₂⟩ := hpair
  cases l₁ with
  | nil =>
    -- both would still be in the injector
    have hmem : r' ∈ y.1.mem.store.queue (.injector i) := by
      refine hl₂.subset ?_
      rw [← List.nil_append l₂, ← hsplit]
      exact List.mem_cons_of_mem _ (List.mem_singleton_self _)
    exact absurd hmem (List.disjoint_of_nodup_append hnodup hleft)
  | cons a l =>
    obtain ⟨rfl, -⟩ := List.cons.inj hsplit
    exact hl₁.subset List.mem_cons_self

end Runs

/-- Two pushes; the worker hauls both, returns the first and runs it. -/
def haulRun : List (Thread solo Unit × Choice solo Unit ℕ) :=
  [(.inr (), .spawn 0 0 none)] ++ goes (.inr ()) 2 ++ [(.inr (), .spawn 1 0 none)] ++
    goes (.inr ()) 2 ++ goes solo.worker 3 ++ [(solo.worker, .steal (.batch 2))]

/-- The state after `haulRun`, with its network. -/
def hauledBoth : State solo Unit ℕ × Net (Victim solo) ℕ :=
  (networked solo Unit ℕ).final (.start solo Unit ℕ, .empty) haulRun (by decide)

/-- In that state one runnable has been returned and the other has entered the deque. -/
theorem channels_refined_hauled :
    hauledBoth.1.mem.returned = [0] ∧ hauledBoth.2.chan (.peer ⟨0, Nat.one_pos⟩) = [1] ∧
      hauledBoth.2.out = (hauledBoth.1.mem.returned : Multiset ℕ) + hauledBoth.1.inHand := by
  have hinit : (networked solo Unit ℕ).init (.start solo Unit ℕ, .empty) := ⟨rfl, rfl⟩
  exact ⟨by decide, by decide, (channels_refined (.final hinit _)).2.2.1⟩

/-- Both have left the injector there, in the order of their pushes. -/
theorem channels_fifo_hauled :
    hauledBoth.2.left (.injector 0) = [0, 1] ∧
      (hauledBoth.2.entered (.injector 0)).Sublist hauledBoth.1.mem.pushed := by
  have hinit : (networked solo Unit ℕ).init (.start solo Unit ℕ, .empty) := ⟨rfl, rfl⟩
  exact ⟨by decide, ((channels_fifo (.final hinit _)).2 0).1⟩

end AffinityPool
