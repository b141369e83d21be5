import AffinityPool.Queue.Storage
import Mathlib.Data.List.Infix

/-!
# First in, first out on one worker

With one worker there is one injector and one deque.  Lined up one after the other, the
returned runnables, the one in the worker's hand, the deque and the injector form a line
(`State.line`) that a step changes only by an insertion: the worker pops at the front of its
deque, and it steals from the injector only while its deque is empty, so that a batch moves
to the place in the line it already has.  A foreign push appends at the end of the line, a
self-spawned one at the end of the deque, where only foreign runnables stand behind it.  So
the line restricted to one kind is the list of insertions of that kind (`InOrder`), and the
returned ones are a prefix of it (`fifo`).
-/

namespace AffinityPool

open Transition System

variable {q : Shape} {P R : Type}

/-- The runnable a worker is about to return, as a list. -/
def Pc.hand : Pc q R → List R
  | .leave (.got r) _ => [r]
  | _ => []

/-- The runnable a step of a scan returns, as a list. -/
def ScanResult.hand : ScanResult q R → List R
  | .found r => [r]
  | _ => []

/-- The returned runnables, the one in the hand of worker `w`, its deque and the first
injector. -/
def Mem.line (m : Mem q P R) (w : q.Worker) (pc : Pc q R) : List R :=
  m.returned ++ pc.hand ++ m.store.deques w ++ m.store.injectors 0

/-- The line of a state. -/
def State.line (s : State q P R) (w : q.Worker) : List R := s.mem.line w (s.pc (.inl w))

/-- The runnable a foreign thread pushes. -/
def foreignPush : Thread q P × Choice q P R → Option R
  | (.inr _, .spawn r _ _) => some r
  | _ => none

/-- The runnable a worker pushes while it runs another one. -/
def selfSpawn : Thread q P × Choice q P R → Option R
  | (.inl _, .spawn r _ _) => some r
  | _ => none

/-- The runnables pushed by the foreign path, in order. -/
def foreignPushes (as : List (Thread q P × Choice q P R)) : List R := as.filterMap foreignPush

/-- The self-spawned runnables, in order. -/
def selfSpawns (as : List (Thread q P × Choice q P R)) : List R := as.filterMap selfSpawn

/-! ## The line under a step -/

section Scan

variable {i : q.Worker} {b : Probe} {o : Steal} {st st' : Store q R} {s : Scan q}
  {res : ScanResult q R}

/-- Leaving a victim returns nothing. -/
lemma Store.hand_advance (st : Store q R) (i : q.Worker) (b : Probe) (p : Pass q) :
    (st.advance i b p).2.hand = [] := by
  cases h : (st.advance i b p).2 with
  | more s => rfl
  | found r => exact absurd h (st.advance_ne_found i b p r)
  | empty => rfl

/-- A step of a scan takes the front of the deque, or of the injector while the deque is
empty. -/
lemma ScanMove.line_eq [Subsingleton q.Worker] [Subsingleton q.Shard]
    (h : ScanMove i b o st s st' res) (hdr : s ≠ .own → st.deques i = []) :
    res.hand ++ st'.deques i ++ st'.injectors 0 = st.deques i ++ st.injectors 0 ∧
      st'.injectors 0 ⊆ st.injectors 0 := by
  cases h with
  | @pop r rest hd =>
    refine ⟨?_, List.Subset.refl _⟩
    rw [hd]
    simp [Store.setQueue, ScanResult.hand]
  | start hd => exact ⟨rfl, List.Subset.refl _⟩
  | access p a => exact ⟨rfl, List.Subset.refl _⟩
  | miss hblank => exact ⟨by rw [Store.hand_advance]; rfl, List.Subset.refl _⟩
  | retry p => exact ⟨by rw [Store.hand_advance]; rfl, List.Subset.refl _⟩
  | @batch p n r moved ho ha ht =>
    have hempty : st.deques i = [] := by
      apply hdr
      intro hown
      cases hown
    cases hv : p.victim with
    | peer w =>
      -- the only peer would be the worker itself, and its deque is empty
      rw [hv, Subsingleton.elim w i, Store.queue_peer, hempty] at ht
      simp at ht
    | injector j =>
      rw [hv, Subsingleton.elim j 0, Store.queue_injector] at ht
      obtain rfl : j = 0 := Subsingleton.elim j 0
      have hsplit : r :: (moved ++ (st.injectors 0).drop n) = st.injectors 0 := by
        rw [← List.cons_append, ← ht, List.take_append_drop]
      refine ⟨?_, ?_⟩
      · simpa [Store.setQueue, ScanResult.hand, hempty] using hsplit
      · simpa [Store.setQueue] using List.drop_subset n (st.injectors 0)

end Scan

section Step

variable [DecidableEq P] {t : Thread q P} {c : Choice q P R} {m m' : Mem q P R} {pc pc' : Pc q R}

variable [Subsingleton q.Worker] [Subsingleton q.Shard]

/-- Any other step of the worker keeps the line. -/
lemma Move.line_eq {w : q.Worker} (hm : Move (.inl w) c m pc m' pc')
    (hc : ∀ r hash cell, c ≠ .spawn r hash cell)
    (hdr : pc.drained = true → m.store.deques w = []) :
    m'.line w pc' = m.line w pc ∧ m'.store.injectors 0 ⊆ m.store.injectors 0 ∧
      m'.pushed = m.pushed := by
  have hscan : ∀ {u : q.Worker} {b : Probe} {o : Steal} {sc : Scan q} {st : Store q R}
      {res : ScanResult q R}, ScanMove u b o m.store sc st res →
      (sc ≠ .own → pc.drained = true) →
      m.returned ++ (res.hand ++ st.deques w ++ st.injectors 0) =
        m.returned ++ (m.store.deques w ++ m.store.injectors 0) ∧
        st.injectors 0 ⊆ m.store.injectors 0 := by
    intro u b o sc st res h hvisit
    obtain rfl : u = w := Subsingleton.elim u w
    have hline := h.line_eq fun hsc => hdr (hvisit hsc)
    exact ⟨congrArg _ hline.1, hline.2⟩
  have hvisit : ∀ (round : ℕ) {sc : Scan q}, sc ≠ .own →
      (Pc.cheap round sc : Pc q R).drained = true ∧ (Pc.sweep sc : Pc q R).drained = true := by
    intro round sc hsc
    cases sc with
    | own => exact absurd rfl hsc
    | visit p => exact ⟨rfl, rfl⟩
  unfold Mem.line
  cases hm
  case spawn k x hash cell hc' hx hown hfor => exact absurd hc' (hc _ _ _)
  case boot u hu =>
    obtain rfl : w = u := Sum.inl_injective hu
    refine ⟨?_, List.Subset.refl _, rfl⟩
    simp [Store.register, Pc.hand, hdr rfl]
  case cheapMore u o round sc sc' st hu ho h | cheapFound u o round sc st r hu ho h |
      cheapNext u o round sc st hu ho hr h | cheapLast u o round sc st hu ho hr h =>
    obtain ⟨hline, hsub⟩ := hscan h fun hsc => (hvisit round hsc).1
    exact ⟨by simpa [Pc.hand, ScanResult.hand] using hline, hsub, rfl⟩
  case sweepMore u o sc sc' st hu ho h | sweepFound u o sc st r hu ho h |
      sweepEmpty u o sc st hu ho h =>
    obtain ⟨hline, hsub⟩ := hscan h fun hsc => (hvisit 0 hsc).2
    exact ⟨by simpa [Pc.hand, ScanResult.hand] using hline, hsub, rfl⟩
  case consume e h | pass e h | lower e | unpark e =>
    cases e <;> exact ⟨rfl, List.Subset.refl _, rfl⟩
  case giveBack r => exact ⟨by simp [Pc.hand], List.Subset.refl _, rfl⟩
  all_goals exact ⟨rfl, List.Subset.refl _, rfl⟩

omit [Subsingleton q.Worker] [Subsingleton q.Shard] in
/-- Any other step of a foreign thread leaves the runnables where they are. -/
lemma Move.foreign_eq {p : P} (hm : Move (.inr p) c m pc m' pc') (hf : pc.isForeign = true)
    (hc : ∀ r hash cell, c ≠ .spawn r hash cell) :
    m'.store = m.store ∧ m'.returned = m.returned ∧ m'.pushed = m.pushed := by
  cases hm
  case spawn k x hash cell hc' hx hown hfor => exact absurd hc' (hc _ _ _)
  -- only workers register and scan
  case boot ht | cheapMore ht ho h | cheapFound ht ho h | cheapNext ht ho hr h |
      cheapLast ht ho hr h | sweepMore ht ho h | sweepFound ht ho h | sweepEmpty ht ho h =>
    cases ht
  case giveBack r => cases hf
  all_goals exact ⟨rfl, rfl, rfl⟩

end Step

/-! ## The line in a run -/

/-- The line restricted to the runnables of one kind is the list of insertions of that kind,
and no self-spawned runnable is in the injector. -/
structure InOrder [DecidableEq R] (w : q.Worker) (as : List (Thread q P × Choice q P R))
    (s : State q P R) : Prop where
  line_subset : s.line w ⊆ s.mem.pushed
  foreign_subset : foreignPushes as ⊆ s.mem.pushed
  own_subset : selfSpawns as ⊆ s.mem.pushed
  injector : ∀ r ∈ s.mem.store.injectors 0, r ∉ selfSpawns as
  foreign : (s.line w).filter (· ∈ foreignPushes as) = foreignPushes as
  own : (s.line w).filter (· ∈ selfSpawns as) = selfSpawns as

section Runs

variable [DecidableEq R]

/-- A runnable that is not in the list does not count. -/
lemma filter_mem_concat {l xs : List R} {r : R} (h : r ∉ l) :
    l.filter (· ∈ xs ++ [r]) = l.filter (· ∈ xs) := by
  apply List.filter_congr
  intro x hx
  have hne : x ≠ r := by
    rintro rfl
    exact h hx
  simp only [List.mem_append, List.mem_singleton, hne, or_false]

omit [DecidableEq R] in
/-- One more runnable on both sides. -/
lemma append_singleton_subset {l xs : List R} {r : R} (h : l ⊆ xs) : l ++ [r] ⊆ xs ++ [r] :=
  List.append_subset.mpr ⟨List.Subset.trans h (List.subset_append_left _ _),
    List.subset_append_right _ _⟩

variable {w : q.Worker} {as : List (Thread q P × Choice q P R)}
  {s s' : State q P R} {r : R}

/-- A foreign push appends to the line. -/
lemma InOrder.step_foreign (h : InOrder w as s) {p : P} {hash : ℕ} {cell : Option ProducerRoute}
    (hr : r ∉ s.mem.pushed) (hline : s'.line w = s.line w ++ [r])
    (hpushed : s'.mem.pushed = s.mem.pushed ++ [r])
    (hinj : s'.mem.store.injectors 0 = s.mem.store.injectors 0 ++ [r]) :
    InOrder w (as ++ [(.inr p, .spawn r hash cell)]) s' := by
  have hf : foreignPushes (as ++ [(.inr p, .spawn r hash cell)]) = foreignPushes as ++ [r] := by
    rw [foreignPushes, List.filterMap_append]
    rfl
  have ho : selfSpawns (as ++ [(.inr p, .spawn r hash cell)]) = selfSpawns as := by
    rw [selfSpawns, List.filterMap_append]
    exact List.append_nil _
  have hown : r ∉ selfSpawns as := fun hmem => hr (h.own_subset hmem)
  refine ⟨?_, ?_, ?_, ?_, ?_, ?_⟩
  · rw [hline, hpushed]
    exact append_singleton_subset h.line_subset
  · rw [hf, hpushed]
    exact append_singleton_subset h.foreign_subset
  · rw [ho, hpushed]
    exact List.Subset.trans h.own_subset (List.subset_append_left _ _)
  · intro x hx
    rw [hinj, List.mem_append, List.mem_singleton] at hx
    rw [ho]
    rcases hx with hx | rfl
    · exact h.injector x hx
    · exact hown
  · rw [hf, hline, List.filter_append, filter_mem_concat fun hmem => hr (h.line_subset hmem),
      h.foreign]
    simp
  · rw [ho, hline, List.filter_append, h.own]
    simp [hown]

/-- A self-spawned runnable comes into the line behind the deque. -/
lemma InOrder.step_own (h : InOrder w as s) {u : q.Worker} {hash : ℕ}
    {cell : Option ProducerRoute} (hr : r ∉ s.mem.pushed) {front : List R}
    (hold : s.line w = front ++ s.mem.store.injectors 0)
    (hline : s'.line w = front ++ [r] ++ s.mem.store.injectors 0)
    (hpushed : s'.mem.pushed = s.mem.pushed ++ [r])
    (hinj : s'.mem.store.injectors 0 = s.mem.store.injectors 0) :
    InOrder w (as ++ [(.inl u, .spawn r hash cell)]) s' := by
  have hf : foreignPushes (as ++ [(.inl u, .spawn r hash cell)]) = foreignPushes as := by
    rw [foreignPushes, List.filterMap_append]
    exact List.append_nil _
  have ho : selfSpawns (as ++ [(.inl u, .spawn r hash cell)]) = selfSpawns as ++ [r] := by
    rw [selfSpawns, List.filterMap_append]
    rfl
  have hforeign : r ∉ foreignPushes as := fun hmem => hr (h.foreign_subset hmem)
  have hfront : r ∉ front := fun hmem => hr (h.line_subset (hold ▸ List.mem_append_left _ hmem))
  have hback : r ∉ s.mem.store.injectors 0 := fun hmem =>
    hr (h.line_subset (hold ▸ List.mem_append_right _ hmem))
  -- the injector, which stands behind the new runnable, holds foreign runnables only
  have hnone : (s.mem.store.injectors 0).filter (· ∈ selfSpawns as) = [] := by
    simpa [List.filter_eq_nil_iff] using h.injector
  have hkept := h.foreign
  have hown := h.own
  rw [hold, List.filter_append] at hkept hown
  rw [hnone, List.append_nil] at hown
  refine ⟨?_, ?_, ?_, ?_, ?_, ?_⟩
  · rw [hline, hpushed]
    intro x hx
    simp only [List.mem_append, List.mem_singleton] at hx ⊢
    rcases hx with (hx | rfl) | hx
    · exact Or.inl (h.line_subset (hold ▸ List.mem_append_left _ hx))
    · exact Or.inr rfl
    · exact Or.inl (h.line_subset (hold ▸ List.mem_append_right _ hx))
  · rw [hf, hpushed]
    exact List.Subset.trans h.foreign_subset (List.subset_append_left _ _)
  · rw [ho, hpushed]
    exact append_singleton_subset h.own_subset
  · intro x hx
    rw [hinj] at hx
    rw [ho, List.mem_append, List.mem_singleton, not_or]
    refine ⟨h.injector x hx, ?_⟩
    rintro rfl
    exact hback hx
  · rw [hf, hline, List.filter_append, List.filter_append]
    simpa [hforeign] using hkept
  · rw [ho, hline, List.filter_append, List.filter_append, filter_mem_concat hfront,
      filter_mem_concat hback, hnone, hown]
    simp

/-- A step that inserts nothing keeps the order. -/
lemma InOrder.step_keep (h : InOrder w as s) {a : Thread q P × Choice q P R}
    (hc : ∀ r hash cell, a.2 ≠ .spawn r hash cell) (hline : s'.line w = s.line w)
    (hpushed : s'.mem.pushed = s.mem.pushed)
    (hinj : s'.mem.store.injectors 0 ⊆ s.mem.store.injectors 0) : InOrder w (as ++ [a]) s' := by
  have hnone : foreignPush a = none ∧ selfSpawn a = none := by
    obtain ⟨_ | _, c⟩ := a <;> cases c <;> first | exact ⟨rfl, rfl⟩ | exact absurd rfl (hc _ _ _)
  have hf : foreignPushes (as ++ [a]) = foreignPushes as := by
    simp [foreignPushes, List.filterMap_append, hnone.1]
  have ho : selfSpawns (as ++ [a]) = selfSpawns as := by
    simp [selfSpawns, List.filterMap_append, hnone.2]
  refine ⟨?_, ?_, ?_, ?_, ?_, ?_⟩
  · rw [hline, hpushed]
    exact h.line_subset
  · rw [hf, hpushed]
    exact h.foreign_subset
  · rw [ho, hpushed]
    exact h.own_subset
  · rw [ho]
    exact fun x hx => h.injector x (hinj hx)
  · rw [hf, hline]
    exact h.foreign
  · rw [ho, hline]
    exact h.own

/-- What was returned of one kind is a prefix of what was inserted of that kind. -/
lemma State.returned_prefix {xs : List R} (h : (s.line w).filter (· ∈ xs) = xs) :
    s.mem.returned.filter (· ∈ xs) <+: xs := by
  have hprefix : s.mem.returned <+: s.line w := by
    unfold State.line Mem.line
    rw [List.append_assoc, List.append_assoc]
    exact List.prefix_append _ _
  have hfilter := hprefix.filter fun r => decide (r ∈ xs)
  rwa [h] at hfilter

variable [DecidableEq P]

/-- **Step lemma.**  A step keeps the order. -/
theorem InOrder.step [Subsingleton q.Worker] [Subsingleton q.Shard] [Fintype P]
    (h : InOrder w as s) (hk : Kinds s) (hs : Storage s) {a : Thread q P × Choice q P R}
    (hstep : s.step a = some s') : InOrder w (as ++ [a]) s' := by
  obtain ⟨⟨m, pc⟩, hmove, rfl⟩ := Option.map_eq_some_iff.mp hstep
  obtain ⟨t, c⟩ := a
  dsimp only at hmove
  by_cases hc : ∃ r hash cell, c = .spawn r hash cell
  · obtain ⟨r, hash, cell, rfl⟩ := hc
    obtain ⟨k, hpc, hr, rfl, rfl⟩ := move_spawn hmove
    cases t with
    | inl u =>
      obtain rfl : u = w := Subsingleton.elim u w
      have hold : s.line u = s.mem.returned ++ s.mem.store.deques u ++
          s.mem.store.injectors 0 := by
        simp [State.line, Mem.line, hpc, Pc.hand]
      refine h.step_own hr hold ?_ rfl rfl
      simp [State.line, Mem.line, Pc.hand, Store.insert, pushTarget, Store.setQueue]
    | inr p =>
      have htarget : q.target hash cell = 0 := Subsingleton.elim _ _
      refine h.step_foreign hr ?_ rfl ?_
      · simp [State.line, Mem.line, Store.insert, pushTarget, Store.setQueue, htarget]
      · simp [Store.insert, pushTarget, Store.setQueue, htarget]
  · push Not at hc
    have hm := Move.of_move hmove
    cases t with
    | inl u =>
      obtain rfl : u = w := Subsingleton.elim u w
      obtain ⟨hline, hinj, hpushed⟩ := hm.line_eq hc (hs.drained u)
      refine h.step_keep hc ?_ hpushed hinj
      dsimp only [State.line]
      rw [Function.update_self]
      exact hline
    | inr p =>
      obtain ⟨hstore, hreturned, hpushed⟩ := hm.foreign_eq (hk (.inr p)) hc
      refine h.step_keep hc ?_ hpushed ?_
      · simp [State.line, Mem.line, hstore, hreturned]
      · dsimp only
        rw [hstore]
        exact List.Subset.refl _

/-- The order holds after every run of a queue with one worker and one injector. -/
theorem InOrder.of_exec [Subsingleton q.Worker] [Subsingleton q.Shard] [Fintype P]
    (w : q.Worker) (h : (machine q P R).exec (.start q P R) as = some s) : InOrder w as s := by
  refine exec_induction (I := InOrder w) ?_ ?_ h
  · exact ⟨nofun, nofun, nofun, nofun, rfl, rfl⟩
  · intro as s a s' hexec hi hstep
    have hr : (machine q P R).Reachable s := .of_exec rfl hexec
    exact hi.step (.of_reachable hr) (.of_reachable hr) hstep

/-- The worker of a pool with one worker. -/
abbrev single.worker {shardOverride : Option ℕ} : Thread (single shardOverride) P :=
  .inl ⟨0, Nat.one_pos⟩

/-- It has one injector. -/
lemma single_mask (shardOverride : Option ℕ) : (single shardOverride).mask = 0 := by
  have hone : nextPowerOfTwo 1 = 1 := by simp [nextPowerOfTwo]
  cases shardOverride with
  | none =>
    have hclamp : clamp 1 1 MAX_SHARDS = 1 := rfl
    simp [Shape.new, numShards, hone, hclamp]
  | some n =>
    have hclamp : clamp n 1 1 = 1 := by
      unfold clamp
      split
      · rfl
      · split <;> omega
    simp [Shape.new, numShards, hone, hclamp]

/-- **First in, first out.**  In every run of a pool with one worker, the runnables pushed by
the foreign path are returned in the order they were inserted, and so are the self-spawned
ones. -/
theorem fifo [Fintype P] {shardOverride : Option ℕ}
    {as : List (Thread (single shardOverride) P × Choice (single shardOverride) P R)}
    {s : State (single shardOverride) P R}
    (h : (machine (single shardOverride) P R).exec (.start _ P R) as = some s) :
    s.mem.returned.filter (· ∈ foreignPushes as) <+: foreignPushes as ∧
      s.mem.returned.filter (· ∈ selfSpawns as) <+: selfSpawns as := by
  have hworker : Subsingleton (single shardOverride).Worker :=
    inferInstanceAs (Subsingleton (Fin 1))
  have hshard : Subsingleton (single shardOverride).Shard := by
    rw [Shape.Shard, single_mask]
    exact inferInstanceAs (Subsingleton (Fin 1))
  have horder := InOrder.of_exec ⟨0, Nat.one_pos⟩ h
  exact ⟨State.returned_prefix horder.foreign, State.returned_prefix horder.own⟩

/-- Two foreign pushes; the worker steals both, runs the first, which spawns another one, and
runs the other two. -/
def fifoRun : List (Thread (single none) Unit × Choice (single none) Unit ℕ) :=
  [(.inr (), .spawn 0 0 none)] ++ goes (.inr ()) 2 ++ [(.inr (), .spawn 1 0 none)] ++
    goes (.inr ()) 2 ++ goes single.worker 3 ++
    [(single.worker, .steal (.batch 2)), (single.worker, .spawn 2 0 none)] ++
    goes single.worker 2 ++
    [(single.worker, .ret), (single.worker, .go), (single.worker, .ret), (single.worker, .go)]

/-- The state after `fifoRun`. -/
def lined : State (single none) Unit ℕ :=
  (machine (single none) Unit ℕ).final (.start _ Unit ℕ) fifoRun (by decide)

/-- In that state everything has been returned, in these orders. -/
theorem fifo_lined :
    lined.mem.returned = [0, 1, 2] ∧ foreignPushes fifoRun = [0, 1] ∧ selfSpawns fifoRun = [2] ∧
      lined.mem.returned.filter (· ∈ foreignPushes fifoRun) <+: foreignPushes fifoRun ∧
      lined.mem.returned.filter (· ∈ selfSpawns fifoRun) <+: selfSpawns fifoRun := by
  have hexec : (machine (single none) Unit ℕ).exec (.start _ Unit ℕ) fifoRun = some lined :=
    exec_final _ _ _
  exact ⟨by decide, rfl, rfl, fifo hexec⟩

end Runs

end AffinityPool
