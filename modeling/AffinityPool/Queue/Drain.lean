import AffinityPool.Queue.Covering

/-!
# Graceful drain

A worker leaves `pop_blocking` with `None` after an armed pass over empty queues and a later
read of the shutdown flag.  When no foreign push is in progress or begins after the flag is
set, the injectors are empty from that read on (`Drained`): a runnable the pass has missed
would have a push in progress.  The deques are emptied by their owners.  So once every worker
has left, nothing is stored and everything has been returned exactly once
(`returned_of_finished`).
-/

namespace AffinityPool

open Transition System

variable {q : Shape} {P R : Type}

/-- The worker has seen the shutdown flag and is leaving or has left. -/
def Pc.isGone : Pc q R → Bool
  | .leave .shut _ | .finished => true
  | _ => false

/-- The choice to push a runnable. -/
def Choice.isSpawn : Choice q P R → Bool
  | .spawn _ _ _ => true
  | _ => false

/-- What ownership of the pool guarantees: a foreign push begins only before shutdown, and
shutdown only when every foreign push has returned. -/
def State.Owned (s : State q P R) (a : Thread q P × Choice q P R) : Prop :=
  (a.1.isRight = true → a.2.isSpawn = true → s.mem.shutdown = false) ∧
    (a.2 = .close → ∀ p, (s.pc (.inr p)).isPush = false)

instance State.Owned.decidable [Fintype P] [DecidableEq P] [DecidableEq R] (s : State q P R)
    (a : Thread q P × Choice q P R) : Decidable (s.Owned a) :=
  inferInstanceAs (Decidable (_ ∧ _))

/-- No foreign push outlives the shutdown flag, and no runnable is in an injector once a worker
has seen the flag. -/
structure Drained (s : State q P R) : Prop where
  quiet : s.mem.shutdown = true → ∀ p, (s.pc (.inr p)).isPush = false
  empty : ∀ w, (s.pc (.inl w)).isGone = true →
    s.mem.shutdown = true ∧ ∀ i, s.mem.store.injectors i = []

/-- When a worker reads the flag after its armed pass, the injectors are empty. -/
lemma Drained.injectors_eq_nil [Fintype P] {s : State q P R} {t : Thread q P} (hd : Drained s)
    (hc : Covered (fun v => ∃ i, v = .injector i) s) (hs : Storage s)
    (hpc : s.pc t = .checkShutdown) (hshut : s.mem.shutdown = true) (i : q.Shard) :
    s.mem.store.injectors i = [] := by
  refine List.eq_nil_iff_forall_not_mem.mpr fun r hr => ?_
  have hcleared : (s.pc t).Cleared (.injector i) := by
    rw [hpc]
    trivial
  obtain ⟨u, hu⟩ := hc t (.injector i) r ⟨i, rfl⟩ hcleared hr
  obtain ⟨k, x, st, hpush, -, hinto⟩ := hu.exists_push
  have hinj := hinto i rfl
  obtain ⟨-, hown, -⟩ := hs.pushing u k x st hpush
  cases u with
  | inl w =>
    rw [hown w rfl] at hinj
    cases hinj
  | inr p =>
    have hquiet := hd.quiet hshut p
    rw [hpush] at hquiet
    cases hquiet

section Step

variable [DecidableEq P] {t : Thread q P} {c : Choice q P R} {m m' : Mem q P R} {pc pc' : Pc q R}

/-- The shutdown flag is set by a shutdown call and never reset. -/
lemma Move.shutdown_eq (hm : Move t c m pc m' pc') :
    m'.shutdown = m.shutdown ∨ c = .close ∧ m'.shutdown = true ∧ pc'.isPush = false := by
  cases hm
  case close k hc => exact Or.inr ⟨hc, rfl, rfl⟩
  all_goals exact Or.inl rfl

/-- A push begins by a choice to push. -/
lemma Move.isPush_of (hm : Move t c m pc m' pc') (h : pc'.isPush = true) :
    pc.isPush = true ∨ c.isSpawn = true := by
  cases hm
  case spawn k x hash cell hc hx hown hfor =>
    subst hc
    exact Or.inr rfl
  all_goals first | exact Or.inl rfl | cases h

/-- A worker leaves after it has read the flag. -/
lemma Move.isGone_of (hm : Move t c m pc m' pc') (h : pc'.isGone = true) :
    m'.shutdown = m.shutdown ∧ m'.store = m.store ∧
      (pc.isGone = true ∨ pc = .checkShutdown ∧ m.shutdown = true) := by
  cases hm
  case seeShutdown hs => exact ⟨rfl, rfl, Or.inr ⟨rfl, hs⟩⟩
  case consume e he | pass e he | lower e | unpark e =>
    cases e <;> first | exact ⟨rfl, rfl, Or.inl rfl⟩ | cases h
  all_goals first | exact ⟨rfl, rfl, Or.inl rfl⟩ | cases h

variable {s : State q P R}

/-- After shutdown nothing comes into an injector. -/
lemma State.Owned.injectors_step (hok : s.Owned (t, c)) (hm : Move t c s.mem (s.pc t) m' pc')
    (hshut : s.mem.shutdown = true) (hempty : ∀ i, s.mem.store.injectors i = []) (i : q.Shard) :
    m'.store.injectors i = [] := by
  refine List.eq_nil_iff_forall_not_mem.mpr fun r hr => ?_
  have hr' : r ∈ m'.store.queue (.injector i) := hr
  rcases hm.mem_queue hr' with hmem | @⟨k, x, hpc, rfl, hinto, -⟩ | ⟨-, -, -, -, hv, -⟩
  · rw [Store.queue_injector, hempty i] at hmem
    cases hmem
  · rcases hm.push_cases with ⟨u, hu⟩ | ⟨⟨⟨hash, cell, rfl⟩, -, -, -⟩, hown, -⟩
    · rw [hpc] at hu
      cases hu
    · cases t with
      | inl w =>
        rw [hown w rfl] at hinto
        cases hinto
      | inr p =>
        have hopen := hok.1 rfl rfl
        rw [hshut] at hopen
        cases hopen
  · cases hv

/-- **Step lemma.**  A step that ownership allows keeps the invariant. -/
theorem Drained.step [Fintype P] (hd : Drained s)
    (hc : Covered (fun v => ∃ i, v = .injector i) s) (hs : Storage s)
    (hm : Move t c s.mem (s.pc t) m' pc') (hok : s.Owned (t, c)) :
    Drained ⟨m', Function.update s.pc t pc'⟩ := by
  refine ⟨fun hshut p => ?_, fun w hw => ?_⟩
  · by_cases hp : .inr p = t
    · subst hp
      simp only [Function.update_self]
      rcases hm.shutdown_eq with heq | ⟨-, -, hpush⟩
      · refine Bool.eq_false_iff.mpr fun hpush => ?_
        have hshut' : s.mem.shutdown = true := heq ▸ hshut
        rcases hm.isPush_of hpush with hold | hspawn
        · rw [hd.quiet hshut' p] at hold
          cases hold
        · have hopen := hok.1 rfl hspawn
          rw [hshut'] at hopen
          cases hopen
      · exact hpush
    · simp only [Function.update_of_ne hp]
      rcases hm.shutdown_eq with heq | ⟨hclose, -, -⟩
      · exact hd.quiet (heq ▸ hshut) p
      · exact hok.2 hclose p
  · by_cases hwt : .inl w = t
    · subst hwt
      simp only [Function.update_self] at hw
      obtain ⟨hshut, hstore, hgone | ⟨hpc, hflag⟩⟩ := hm.isGone_of hw
      · dsimp only
        rw [hshut, hstore]
        exact hd.empty w hgone
      · dsimp only
        rw [hshut, hstore]
        exact ⟨hflag, hd.injectors_eq_nil hc hs hpc hflag⟩
    · simp only [Function.update_of_ne hwt] at hw
      obtain ⟨hflag, hempty⟩ := hd.empty w hw
      refine ⟨?_, hok.injectors_step hm hflag hempty⟩
      rcases hm.shutdown_eq with heq | ⟨-, hset, -⟩
      · exact heq.trans hflag
      · exact hset

end Step

section Runs

variable [DecidableEq P] [DecidableEq R] [Fintype P] {s : State q P R}

/-- The invariant holds in every run that ownership allows. -/
theorem Drained.of_reach (h : (machine q P R).Reach State.Owned s) : Drained s := by
  refine h.invariant ?_ ?_
  · rintro _ rfl
    refine ⟨fun hshut => ?_, fun w hw => ?_⟩
    · cases hshut
    · cases hw
  · intro s a s' hr hd hok hs
    obtain ⟨m, pc, hm, rfl⟩ := State.step_cases hs
    exact hd.step (.injectors_of_reachable hr.reachable) (.of_reachable hr.reachable) hm hok

/-- **Graceful drain.**  Once every worker has left `pop_blocking` with `None`, nothing is
stored, and every runnable ever pushed has been returned exactly once. -/
theorem returned_of_finished (h : (machine q P R).Reach State.Owned s)
    (hf : ∀ w, s.pc (.inl w) = .finished) :
    (∀ v, s.mem.store.queue v = []) ∧ s.mem.pushed.Perm s.mem.returned ∧
      ∀ r ∈ s.mem.pushed, s.mem.returned.count r = 1 := by
  have hk := Kinds.of_reachable h.reachable
  have hs := Storage.of_reachable h.reachable
  have hempty : ∀ v, s.mem.store.queue v = [] := by
    rintro (i | w)
    · obtain ⟨w⟩ := (inferInstance : Nonempty q.Worker)
      have hgone : (s.pc (.inl w)).isGone = true := by
        rw [hf w]
        rfl
      exact ((Drained.of_reach h).empty w hgone).2 i
    · refine hs.drained w ?_
      rw [hf w]
      rfl
  have hperm := hs.pushed_perm hempty (hk.inHand_eq_zero fun w => by rw [hf w]; rfl)
  refine ⟨hempty, hperm, fun r hr => ?_⟩
  exact List.count_eq_one_of_mem hs.returned_nodup (hperm.mem_iff.mp hr)

end Runs

/-- A push, then shutdown; the worker runs the runnable, which pushes another one, runs that
and leaves. -/
def drainRun : List (Thread solo Unit × Choice solo Unit ℕ) :=
  [(.inr (), .spawn 0 0 none)] ++ goes (.inr ()) 2 ++ [(.inr (), .close)] ++ goes (.inr ()) 3 ++
    goes solo.worker 3 ++ [(solo.worker, .steal (.batch 1)), (solo.worker, .spawn 1 0 none)] ++
    goes solo.worker 2 ++ [(solo.worker, .ret), (solo.worker, .go), (solo.worker, .ret)] ++
    goes solo.worker 22

/-- The state after `drainRun`. -/
def emptied : State solo Unit ℕ :=
  (machine solo Unit ℕ).final (.start solo Unit ℕ) drainRun (by decide)

/-- In that state the worker has left and both runnables have been returned. -/
theorem returned_of_emptied :
    emptied.mem.pushed = [0, 1] ∧ emptied.mem.pushed.Perm emptied.mem.returned :=
  ⟨by decide, (returned_of_finished (Reach.final rfl (by decide) _) (by decide)).2.1⟩

end AffinityPool
