import AffinityPool.Queue.Scan

/-!
# What a pass has covered

A pass that met no contention ends only after it has found every queue but the walking
worker's own without a runnable.  `Pass.Covers` is the invariant of the walk, one condition
for each phase: which queues are already in `clear` or still ahead.  `Continues` lists what
follows a visited victim.
-/

namespace AffinityPool

variable {q : Shape} {R : Type}

/-- Every queue is cleared or ahead, as far as the phases before and at this point go. -/
def Pass.Covers (i : q.Worker) (p : Pass q) (ahead : List (Victim q)) : Prop :=
  p.contended = false →
    match p.phase with
    | .preferred =>
      (∀ w, .peer w ∉ p.clear ++ ahead) ∧ .injector (q.myShard i) ∈ p.clear ++ ahead
    | .injectors => (∀ w, .peer w ∉ p.clear ++ ahead) ∧ ∀ s, .injector s ∈ p.clear ++ ahead
    | .peers => (∀ s, .injector s ∈ p.clear) ∧ ∀ w, w ≠ i → .peer w ∈ p.clear ++ ahead

/-- The victims of a pass that have not been left yet. -/
def Pass.ahead (p : Pass q) : List (Victim q) := p.victim :: p.rest

/-- What follows a visited victim, where `C` says how much the walk has covered. -/
inductive Continues (i : q.Worker) (contended : Bool) (clear : List (Victim q)) (C : Prop) :
    ScanResult q R → Prop
  /-- The walk visits another victim. -/
  | visit {p : Pass q} (hclear : p.clear = clear) (hcontended : p.contended = contended)
    (hcovers : C → p.Covers i p.ahead) : Continues i contended clear C (.more (.visit p))
  /-- The pass was contended: the worker walks again. -/
  | again (h : contended = true) : Continues i contended clear C (.more .own)
  /-- The pass found nothing. -/
  | empty (h : contended = false) (hall : C → ∀ v, v ≠ .peer i → v ∈ clear) :
    Continues i contended clear C .empty

section Walk

variable {i : q.Worker} {b : Probe} {contended : Bool} {clear : List (Victim q)} {C C' : Prop}
  {res : ScanResult q R}

/-- A weaker promise about the walk. -/
lemma Continues.mono (hC : C' → C) (h : Continues i contended clear C res) :
    Continues i contended clear C' res := by
  cases h with
  | visit hclear hcontended hcovers => exact .visit hclear hcontended fun hc => hcovers (hC hc)
  | again h => exact .again h
  | empty h hall => exact .empty h fun hc => hall (hC hc)

/-- The end of a pass. -/
lemma continues_finishPass
    (hall : C → contended = false → ∀ v, v ≠ .peer i → v ∈ clear) :
    Continues i contended clear C (finishPass contended : ScanResult q R) := by
  cases contended with
  | true => exact .again rfl
  | false => exact .empty rfl fun hc => hall hc rfl

/-- The walk over the other workers, once every injector is cleared. -/
lemma continues_enterPeers (i : q.Worker) (b : Probe) (contended : Bool)
    (clear : List (Victim q)) (rng : UInt32) :
    Continues i contended clear (b = .strict ∧ (contended = false → ∀ s, .injector s ∈ clear))
      (enterPeers i b contended clear rng : ScanResult q R × UInt32).1 := by
  unfold enterPeers
  split
  · dsimp only
    split
    · rename_i v rest hpeers
      refine .visit rfl rfl ?_
      rintro ⟨rfl, hinj⟩ hcontended
      refine ⟨hinj hcontended, fun w hw => ?_⟩
      have hmem : Victim.peer w ∈ (q.peers i .strict (nextRand rng)).map Victim.peer :=
        List.mem_map_of_mem (Shape.mem_peers_strict i _ hw)
      rw [hpeers] at hmem
      exact List.mem_append_right _ hmem
    · rename_i hpeers
      refine continues_finishPass ?_
      rintro ⟨rfl, hinj⟩ hcontended (s | w) hv
      · exact hinj hcontended s
      · have hmem : w ∈ q.peers i .strict (nextRand rng) :=
          Shape.mem_peers_strict i _ fun hw => hv (congrArg Victim.peer hw)
        rw [List.map_eq_nil_iff.mp hpeers] at hmem
        cases hmem
  · rename_i hone
    refine continues_finishPass ?_
    rintro ⟨rfl, hinj⟩ hcontended (s | w) hv
    · exact hinj hcontended s
    · have hw : w = i := Fin.ext (by omega)
      exact absurd (congrArg Victim.peer hw) hv

/-- The walk over the other injectors, once the preferred one is cleared. -/
lemma continues_enterInjectors (i : q.Worker) (b : Probe) (contended : Bool)
    (clear : List (Victim q)) (rng : UInt32) :
    Continues i contended clear
      (b = .strict ∧ (contended = false →
        (∀ w, .peer w ∉ clear) ∧ .injector (q.myShard i) ∈ clear))
      (enterInjectors i b contended clear rng : ScanResult q R × UInt32).1 := by
  unfold enterInjectors
  split
  · dsimp only
    split
    · rename_i v rest hshards
      refine .visit rfl rfl ?_
      rintro ⟨rfl, hpref⟩ hcontended
      obtain ⟨hpeers, hpref⟩ := hpref hcontended
      have hahead : Pass.ahead ⟨.injectors, v, rest, Probe.strict.firstAccess v, contended,
          clear⟩ = (q.otherShards i .strict (nextRand rng)).map Victim.injector := hshards.symm
      rw [hahead]
      refine ⟨fun w hw => ?_, fun s => ?_⟩
      · rcases List.mem_append.mp hw with hw | hw
        · exact hpeers w hw
        · obtain ⟨s, -, hs⟩ := List.mem_map.mp hw
          cases hs
      · by_cases hs : s = q.myShard i
        · subst hs
          exact List.mem_append_left _ hpref
        · exact List.mem_append_right _
            (List.mem_map_of_mem (Shape.mem_otherShards_strict i _ hs))
    · rename_i hshards
      refine (continues_enterPeers i b contended clear _).mono ?_
      rintro ⟨rfl, hpref⟩
      refine ⟨rfl, fun hcontended s => ?_⟩
      by_cases hs : s = q.myShard i
      · subst hs
        exact (hpref hcontended).2
      · have hmem := Shape.mem_otherShards_strict i (nextRand rng) hs
        rw [List.map_eq_nil_iff.mp hshards] at hmem
        cases hmem
  · rename_i hone
    refine (continues_enterPeers i b contended clear _).mono ?_
    rintro ⟨rfl, hpref⟩
    refine ⟨rfl, fun hcontended s => ?_⟩
    have hs : s = q.myShard i := Fin.ext (by omega)
    rw [hs]
    exact (hpref hcontended).2

/-- What follows a visited victim of a pass. -/
theorem Pass.continues_next (p : Pass q) (i : q.Worker) (b : Probe) (rng : UInt32) :
    Continues i p.contended p.clear (b = .strict ∧ p.Covers i p.rest)
      (p.next i b rng : ScanResult q R × UInt32).1 := by
  unfold Pass.next
  split
  · rename_i v rest hrest
    refine .visit rfl rfl fun hc => ?_
    have hcovers := hc.2
    rw [hrest] at hcovers
    exact hcovers
  · rename_i hrest
    split
    · rename_i hphase
      refine (continues_enterInjectors i b p.contended p.clear _).mono ?_
      rintro ⟨rfl, hcovers⟩
      refine ⟨rfl, fun hcontended => ?_⟩
      have hpref := hcovers hcontended
      rw [hphase, hrest, List.append_nil] at hpref
      exact hpref
    · rename_i hphase
      refine (continues_enterPeers i b p.contended p.clear _).mono ?_
      rintro ⟨rfl, hcovers⟩
      refine ⟨rfl, fun hcontended => ?_⟩
      have hinj := hcovers hcontended
      rw [hphase, hrest, List.append_nil] at hinj
      exact hinj.2
    · rename_i hphase
      refine continues_finishPass ?_
      rintro ⟨rfl, hcovers⟩ hcontended
      have hall := hcovers hcontended
      rw [hphase, hrest, List.append_nil] at hall
      rintro (s | w) hv
      · exact hall.1 s
      · exact hall.2 w fun hw => hv (congrArg Victim.peer hw)

end Walk

/-! ## Sweeps -/

namespace Pass

variable {i : q.Worker}

/-- The first pass covers what it starts with. -/
lemma covers_start (i : q.Worker) (b : Probe) : (Pass.start i b).Covers i (Pass.start i b).ahead :=
  fun _ => ⟨by simp [Pass.start, Pass.ahead], by simp [Pass.start, Pass.ahead]⟩

/-- Leaving a victim without runnables moves it to the cleared ones. -/
lemma Covers.miss {p : Pass q} (h : p.Covers i p.ahead) : p.miss.Covers i p.miss.rest := by
  intro hcontended
  have hcovers := h hcontended
  have hmem : ∀ v, v ∈ p.miss.clear ++ p.miss.rest ↔ v ∈ p.clear ++ p.ahead := by
    intro v
    simp only [Pass.miss, Pass.ahead, List.mem_append, List.mem_cons]
    tauto
  have hphase : p.miss.phase = p.phase := rfl
  rw [hphase]
  cases hp : p.phase with
  | preferred =>
    simp only [hp] at hcovers
    exact ⟨fun w hw => hcovers.1 w ((hmem _).mp hw), (hmem _).mpr hcovers.2⟩
  | injectors =>
    simp only [hp] at hcovers
    exact ⟨fun w hw => hcovers.1 w ((hmem _).mp hw), fun s => (hmem _).mpr (hcovers.2 s)⟩
  | peers =>
    simp only [hp] at hcovers
    exact ⟨fun s => List.mem_cons_of_mem _ (hcovers.1 s), fun w hw => (hmem _).mpr (hcovers.2 w hw)⟩

/-- Nothing is promised of a contended pass. -/
lemma covers_retry (p : Pass q) (ahead : List (Victim q)) : p.retry.Covers i ahead :=
  fun h => by cases h

/-- In a pass without contention a cleared deque comes after all injectors. -/
lemma Covers.injector_mem {p : Pass q} {ahead : List (Victim q)} (h : p.Covers i ahead)
    (hcontended : p.contended = false) {w : q.Worker} (hw : .peer w ∈ p.clear) (s : q.Shard) :
    .injector s ∈ p.clear := by
  have hcovers := h hcontended
  cases hp : p.phase with
  | preferred =>
    simp only [hp] at hcovers
    exact absurd (List.mem_append_left _ hw) (hcovers.1 w)
  | injectors =>
    simp only [hp] at hcovers
    exact absurd (List.mem_append_left _ hw) (hcovers.1 w)
  | peers =>
    simp only [hp] at hcovers
    exact hcovers.1 s

end Pass

namespace Scan

/-- The queues a scan has cleared in its current pass. -/
def clear : Scan q → List (Victim q)
  | .own => []
  | .visit p => p.clear

/-- The current pass of a scan has met contention. -/
def contended : Scan q → Bool
  | .own => false
  | .visit p => p.contended

/-- The pass covers every queue, cleared or ahead. -/
def Covers (i : q.Worker) : Scan q → Prop
  | .own => True
  | .visit p => p.Covers i p.ahead

/-- What a step of the armed scan `s` has covered: a walk that goes on has cleared at most one
more queue, one without runnables, and a finished one has cleared all but the own deque. -/
def Advances (i : q.Worker) (st : Store q R) (s : Scan q) : ScanResult q R → Prop
  | .more s' => s'.Covers i ∧ ∀ v ∈ s'.clear,
      v ∈ s.clear ∧ (s.contended = true → s'.contended = true) ∨ st.Blank v
  | .found _ => True
  | .empty => s.contended = false ∧ ∀ v, v ≠ .peer i → v ∈ s.clear ∨ st.Blank v

end Scan

/-- Leaving a victim with the pass `p'`. -/
lemma Store.advances_advance {i : q.Worker} {st : Store q R} {p p' : Pass q}
    (hcovers : p'.Covers i p'.rest) (hcontended : p.contended = true → p'.contended = true)
    (hclear : ∀ v ∈ p'.clear, v ∈ p.clear ∨ st.Blank v) :
    (Scan.visit p).Advances i st (st.advance i .strict p').2 := by
  have hnext : Continues i p'.contended p'.clear _ _ :=
    @Pass.continues_next q R p' i .strict (st.rng i)
  unfold Store.advance
  dsimp only
  generalize (p'.next i .strict (st.rng i)).1 = res at hnext
  cases hnext with
  | visit hclear' hcontended' hcovers' =>
    refine ⟨hcovers' ⟨rfl, hcovers⟩, fun v hv => ?_⟩
    simp only [Scan.clear, hclear'] at hv
    simp only [Scan.contended, hcontended', Scan.clear]
    exact (hclear v hv).imp_left fun h => ⟨h, hcontended⟩
  | again h => exact ⟨trivial, fun v hv => by cases hv⟩
  | empty h hall =>
    refine ⟨?_, fun v hv => hclear v (hall ⟨rfl, hcovers⟩ v hv)⟩
    cases hp : p.contended with
    | false => exact hp
    | true => rw [hcontended hp] at h; cases h

/-- What a step of the armed scan has covered. -/
theorem ScanMove.advances {i : q.Worker} {o : Steal} {st st' : Store q R} {s : Scan q}
    {res : ScanResult q R} (h : ScanMove i .strict o st s st' res) (hs : s.Covers i) :
    s.Advances i st res := by
  cases h with
  | pop hd => trivial
  | start hd => exact ⟨Pass.covers_start i .strict, fun v hv => by cases hv⟩
  | access p a => exact ⟨hs, fun v hv => Or.inl ⟨hv, id⟩⟩
  | miss hblank =>
    refine Store.advances_advance (Pass.Covers.miss hs) id fun v hv => ?_
    rcases List.mem_cons.mp hv with rfl | hv
    · exact Or.inr hblank
    · exact Or.inl hv
  | retry p =>
    exact Store.advances_advance (Pass.covers_retry p _) (fun _ => rfl) fun v hv => Or.inl hv
  | batch ho ha ht => trivial

end AffinityPool
