import AffinityPool.Queue.EmptyScan
import AffinityPool.Queue.Storage

/-!
# Respawn

A worker that unwinds out of `Runnable::run` drops its worker scope and its `WorkerContext`;
its sentry then starts a replacement, which calls `register_worker` for the same index.  This
file adds these steps to the queue.

The deque of a worker is a buffer shared by the `Worker` in its context, the stealer in its
slot and the guards of the workers that have loaded that slot.  A registration puts a new
buffer into the slot (`State.gen` counts them); a scan whose guard was loaded before goes on
with the buffer it has loaded (`State.stale`).  A buffer that neither a slot nor a guard
reaches any more is destroyed, with the runnables left in it.

So nothing is lost in runs in which a replacement registers when the old deque is empty, and
something is lost as soon as one registers earlier (`respawn_loses_nothing`).
-/

namespace AffinityPool

open Transition System

variable {q : Shape} {P R : Type}

/-- The worker whose buffer the scan of a thread has loaded. -/
def Pc.guards : Pc q R → Option q.Worker
  | .cheap _ (.visit p) | .sweep (.visit p) =>
    match p.access, p.victim with
    | .probe, .peer w | .steal, .peer w => some w
    | _, _ => none
  | _ => none

namespace Respawn

/-- A state of a queue whose workers may be replaced. -/
structure State (q : Shape) (P R : Type) where
  /-- The queue; the deque of a worker is the buffer in its slot. -/
  base : AffinityPool.State q P R
  /-- The number of buffers that have been in a worker's slot before the present one. -/
  gen : q.Worker → ℕ
  /-- The buffers that have been replaced. -/
  old : q.Worker → ℕ → List R
  /-- Which buffer a worker has loaded with the slot it visits. -/
  loaded : q.Worker → ℕ
  /-- The worker has dropped its context, and its sentry has not started a replacement. -/
  unwinding : q.Worker → Bool

/-- The steps of a queue whose workers may be replaced. -/
inductive Action (q : Shape) (P R : Type)
  /-- A thread takes a step of the queue. -/
  | run (t : Thread q P) (c : Choice q P R)
  /-- The worker unwinds out of `Runnable::run`. -/
  | unwind (w : q.Worker)
  /-- The sentry of the worker starts a replacement. -/
  | respawn (w : q.Worker)

namespace State

/-- The thread exists. -/
def alive (s : State q P R) : Thread q P → Bool
  | .inl w => !s.unwinding w
  | .inr _ => true

/-- The slot whose replaced buffer worker `i` still scans. -/
def stale (s : State q P R) (i : q.Worker) : Option q.Worker :=
  match (s.base.pc (.inl i)).guards with
  | some w => if s.loaded i = s.gen w then none else some w
  | none => none

/-- The queue with other contents of one deque. -/
def withDeque (b : AffinityPool.State q P R) (w : q.Worker) (xs : List R) :
    AffinityPool.State q P R :=
  { b with mem := { b.mem with store := b.mem.store.setQueue (.peer w) xs } }

/-- After a step of a worker to `b`: a registration has replaced the buffer in its slot, and
a slot it has loaded gives it a guard of the present buffer. -/
def follow (s : State q P R) (i : q.Worker) (b : AffinityPool.State q P R) : State q P R where
  base := b
  gen :=
    match s.base.pc (.inl i) with
    | .boot => Function.update s.gen i (s.gen i + 1)
    | _ => s.gen
  old :=
    match s.base.pc (.inl i) with
    | .boot => Function.update s.old i
        (Function.update (s.old i) (s.gen i) (s.base.mem.store.deques i))
    | _ => s.old
  loaded :=
    match (b.pc (.inl i)).guards with
    | some w => Function.update s.loaded i (s.gen w)
    | none => s.loaded
  unwinding := s.unwinding

/-- After a step of worker `i`, to `b`, on the replaced buffer of slot `w`, which stood in for
the present one. -/
def putBack (s : State q P R) (i w : q.Worker) (b : AffinityPool.State q P R) : State q P R :=
  { s with
    base := withDeque b w (s.base.mem.store.deques w)
    old := Function.update s.old w
      (Function.update (s.old w) (s.loaded i) (b.mem.store.deques w)) }

section Step

variable [DecidableEq P] [DecidableEq R]

/-- A step of a thread of the queue. -/
def run (s : State q P R) : Thread q P → Choice q P R → Option (State q P R)
  | .inr p, c => (s.base.step (.inr p, c)).map fun b => { s with base := b }
  | .inl i, c =>
    match s.stale i with
    | none => (s.base.step (.inl i, c)).map (s.follow i)
    | some w =>
      ((withDeque s.base w (s.old w (s.loaded i))).step (.inl i, c)).map (s.putBack i w)

/-- One step. -/
def step (s : State q P R) : Action q P R → Option (State q P R)
  | .run t c => if s.alive t then s.run t c else none
  | .unwind w =>
    match s.base.pc (.inl w) with
    | .out (.running _) =>
      if s.unwinding w then none
      else some { s with unwinding := Function.update s.unwinding w true }
    | _ => none
  | .respawn w =>
    if s.unwinding w then
      some { s with
        base := { s.base with pc := Function.update s.base.pc (.inl w) .boot }
        unwinding := Function.update s.unwinding w false }
    else none

end Step

/-- A new queue. -/
def start (q : Shape) (P R : Type) : State q P R where
  base := .start q P R
  gen _ := 0
  old _ _ := []
  loaded _ := 0
  unwinding _ := false

/-- A handle reaches the buffer number `g` of slot `w`: the slot, or the guard of a scan. -/
def Handled (s : State q P R) (w : q.Worker) (g : ℕ) : Prop :=
  g = s.gen w ∨ ∃ i, (s.base.pc (.inl i)).guards = some w ∧ s.loaded i = g

/-- The runnable has been returned, is in an injector or in the deque of a registered worker,
or has been taken by a call of `pop_blocking` that is about to return it. -/
def Kept (s : State q P R) (r : R) : Prop :=
  r ∈ s.base.mem.returned ∨
    (∃ v, (∀ w, v = .peer w → s.base.mem.store.stealers w = true) ∧
      r ∈ s.base.mem.store.queue v) ∨
    ∃ t, r ∈ (s.base.pc t).inHand

/-- A replacement registers only when the deque in its slot is empty. -/
def Spared (s : State q P R) : Action q P R → Prop
  | .run (.inl w) _ => s.base.pc (.inl w) = .boot → s.base.mem.store.deques w = []
  | _ => True

instance Spared.decidable [DecidableEq R] (s : State q P R) :
    ∀ a, Decidable (s.Spared a)
  | .run (.inl w) _ =>
    inferInstanceAs (Decidable (s.base.pc (.inl w) = .boot → s.base.mem.store.deques w = []))
  | .run (.inr _) _ => inferInstanceAs (Decidable True)
  | .unwind _ => inferInstanceAs (Decidable True)
  | .respawn _ => inferInstanceAs (Decidable True)

end State

/-- A queue whose workers may be replaced, as a transition system. -/
def machine (q : Shape) (P R : Type) [DecidableEq P] [DecidableEq R] :
    System (State q P R) (Action q P R) where
  init s := s = State.start q P R
  step := State.step

/-! ## The invariant -/

/-- Nothing is lost, and the replaced buffers are empty. -/
structure Sound [Fintype P] (s : State q P R) : Prop where
  conserved : (s.base.mem.pushed : Multiset R) = s.base.mem.returned + s.base.mem.store.items +
    tally Pc.inHand s.base.pc
  nodup : s.base.mem.pushed.Nodup
  unregistered : ∀ w, s.base.mem.store.stealers w = false →
    s.base.pc (.inl w) = .boot ∧ s.base.mem.store.deques w = []
  replaced : ∀ w g, g ≠ s.gen w → s.old w g = []
  unwound : ∀ w, s.unwinding w = true → ∃ r, s.base.pc (.inl w) = .out (.running r)

/-- A visit to an empty victim moves no runnable and takes none. -/
lemma visit_empty {i : q.Worker} {b : Probe} {o : Steal} {st st' : Store q R} {p : Pass q}
    {res : ScanResult q R} (h : ScanMove i b o st (.visit p) st' res)
    (hq : st.queue p.victim = []) :
    (st'.injectors = st.injectors ∧ st'.deques = st.deques ∧ st'.stealers = st.stealers) ∧
      ∀ r, res ≠ .found r := by
  cases h with
  | access p a => exact ⟨⟨rfl, rfl, rfl⟩, nofun⟩
  | miss hblank => exact ⟨⟨rfl, rfl, rfl⟩, st.advance_ne_found i b _⟩
  | retry p => exact ⟨⟨rfl, rfl, rfl⟩, st.advance_ne_found i b _⟩
  | batch ho ha ht =>
    rw [hq, List.take_nil] at ht
    cases ht

section Moves

variable [DecidableEq P] {t : Thread q P} {c : Choice q P R} {m m' : Mem q P R} {pc pc' : Pc q R}

/-- A scan whose guard reaches an empty buffer takes nothing. -/
lemma guarding_eq (hm : Move t c m pc m' pc') {w : q.Worker} (hg : pc.guards = some w)
    (hempty : m.store.deques w = []) :
    (m'.store.injectors = m.store.injectors ∧ m'.store.deques = m.store.deques ∧
      m'.store.stealers = m.store.stealers) ∧
    (m'.returned = m.returned ∧ m'.pushed = m.pushed) ∧ pc.inHand = 0 ∧ pc'.inHand = 0 := by
  have hvictim : ∀ p : Pass q, (match p.access, p.victim with
      | .probe, .peer w | .steal, .peer w => some w
      | _, _ => none) = some w → m.store.queue p.victim = [] := by
    intro p hp
    split at hp
    · cases hp
      rename_i hv
      rw [hv]
      exact hempty
    · cases hp
      rename_i hv
      rw [hv]
      exact hempty
    · cases hp
  cases hm
  case cheapFound u o round sc st r hu ho h | sweepFound u o sc st r hu ho h =>
    cases sc with
    | own => cases hg
    | visit p => exact absurd rfl ((visit_empty h (hvictim p hg)).2 r)
  case cheapMore u o round sc sc' st hu ho h | cheapNext u o round sc st hu ho hr h |
      cheapLast u o round sc st hu ho hr h | sweepMore u o sc sc' st hu ho h |
      sweepEmpty u o sc st hu ho h =>
    cases sc with
    | own => cases hg
    | visit p => exact ⟨(visit_empty h (hvictim p hg)).1, ⟨rfl, rfl⟩, rfl, rfl⟩
  all_goals cases hg

/-- A step leaves an unregistered worker at its start, with an empty deque. -/
lemma unregistered_step {pc : Thread q P → Pc q R} {w : q.Worker}
    (h : m.store.stealers w = false → pc (.inl w) = .boot ∧ m.store.deques w = [])
    (hm : Move t c m (pc t) m' pc') (hw : m'.store.stealers w = false) :
    Function.update pc t pc' (.inl w) = .boot ∧ m'.store.deques w = [] := by
  have hold : m.store.stealers w = false ∧ t ≠ .inl w := by
    rcases hm.stealers_eq with ⟨hpc, hst⟩ | ⟨u, hu, hst⟩
    · rw [hst] at hw
      refine ⟨hw, ?_⟩
      rintro rfl
      exact hpc (h hw).1
    · rw [hst] at hw
      by_cases hwu : w = u
      · subst hwu
        rw [Function.update_self] at hw
        cases hw
      · rw [Function.update_of_ne hwu] at hw
        exact ⟨hw, fun ht => hwu (Sum.inl_injective (ht.symm.trans hu))⟩
  obtain ⟨hpc, hdeque⟩ := h hold.1
  have hsuffix := (hm.disturbs hold.2).deque
  rw [hdeque] at hsuffix
  exact ⟨(Function.update_of_ne (Ne.symm hold.2) _ _).trans hpc, List.suffix_nil.mp hsuffix⟩

end Moves

/-! ## Steps -/

section Steps

variable [DecidableEq P] [DecidableEq R] [Fintype P] {s s' : State q P R}

omit [DecidableEq P] [DecidableEq R] [Fintype P] in
/-- A worker's step replaces the buffer in its slot when it registers. -/
lemma State.follow_cases (s : State q P R) (i : q.Worker) (b : AffinityPool.State q P R) :
    ((s.follow i b).gen = s.gen ∧ (s.follow i b).old = s.old) ∨
      s.base.pc (.inl i) = .boot ∧
        (s.follow i b).gen = Function.update s.gen i (s.gen i + 1) ∧
        (s.follow i b).old = Function.update s.old i
          (Function.update (s.old i) (s.gen i) (s.base.mem.store.deques i)) := by
  unfold State.follow
  cases hpc : s.base.pc (.inl i)
  case boot => exact Or.inr ⟨rfl, rfl, rfl⟩
  all_goals exact Or.inl ⟨rfl, rfl⟩

omit [DecidableEq P] [DecidableEq R] [Fintype P] in
/-- A scan of a replaced buffer has loaded it earlier. -/
lemma State.stale_eq {i w : q.Worker} (h : s.stale i = some w) :
    (s.base.pc (.inl i)).guards = some w ∧ s.loaded i ≠ s.gen w := by
  unfold State.stale at h
  split at h
  · split at h
    · cases h
    · cases h
      exact ⟨‹_›, ‹_›⟩
  · cases h

/-- A step of a foreign thread keeps the invariant. -/
lemma Sound.step_foreign (h : Sound s) {p : P} {c : Choice q P R}
    {b : AffinityPool.State q P R} (hs : s.base.step (.inr p, c) = some b) :
    Sound { s with base := b } := by
  obtain ⟨m, pc, hm, rfl⟩ := State.step_cases hs
  refine ⟨hm.conserved_step (fun w hw => by cases hw) h.conserved, hm.pushed_nodup h.nodup,
    fun w => unregistered_step (h.unregistered w) hm, h.replaced, fun w hw => ?_⟩
  obtain ⟨r, hr⟩ := h.unwound w hw
  refine ⟨r, ?_⟩
  dsimp only
  rw [Function.update_of_ne Sum.inl_ne_inr, hr]

/-- A step of a worker on the present buffers keeps the invariant, if it registers over an
empty deque. -/
lemma Sound.step_follow (h : Sound s) {i : q.Worker} {c : Choice q P R}
    {b : AffinityPool.State q P R} (halive : s.unwinding i = false)
    (hboot : s.base.pc (.inl i) = .boot → s.base.mem.store.deques i = [])
    (hs : s.base.step (.inl i, c) = some b) : Sound (s.follow i b) := by
  obtain ⟨m, pc, hm, rfl⟩ := State.step_cases hs
  refine ⟨hm.conserved_step ?_ h.conserved, hm.pushed_nodup h.nodup,
    fun w => unregistered_step (h.unregistered w) hm, fun w g hg => ?_, fun w hw => ?_⟩
  · intro w hw hpc
    cases hw
    exact hboot hpc
  · rcases s.follow_cases i ⟨m, Function.update s.base.pc (.inl i) pc⟩ with ⟨hgen, hold⟩ |
      ⟨hpc, hgen, hold⟩
    · rw [hgen] at hg
      rw [hold]
      exact h.replaced w g hg
    · rw [hgen] at hg
      rw [hold]
      by_cases hw : w = i
      · subst hw
        rw [Function.update_self] at hg ⊢
        by_cases hlast : g = s.gen w
        · rw [hlast, Function.update_self]
          exact hboot hpc
        · rw [Function.update_of_ne hlast]
          exact h.replaced w g hlast
      · rw [Function.update_of_ne hw] at hg ⊢
        exact h.replaced w g hg
  · have hold : s.unwinding w = true := hw
    have hne : w ≠ i := by
      rintro rfl
      rw [halive] at hold
      cases hold
    obtain ⟨r, hr⟩ := h.unwound w hw
    exact ⟨r, (Function.update_of_ne (fun heq => hne (Sum.inl_injective heq)) _ _).trans hr⟩

/-- A step of a scan on a replaced buffer, which is empty, moves no runnable. -/
lemma Sound.putBack_eq (h : Sound s) {i w : q.Worker} {c : Choice q P R}
    {b : AffinityPool.State q P R} (hstale : s.stale i = some w)
    (hs : (State.withDeque s.base w (s.old w (s.loaded i))).step (.inl i, c) = some b) :
    ((s.putBack i w b).base.mem.pushed = s.base.mem.pushed ∧
      (s.putBack i w b).base.mem.returned = s.base.mem.returned) ∧
    ((s.putBack i w b).base.mem.store.injectors = s.base.mem.store.injectors ∧
      (s.putBack i w b).base.mem.store.deques = s.base.mem.store.deques ∧
      (s.putBack i w b).base.mem.store.stealers = s.base.mem.store.stealers) ∧
    (∀ u g, g ≠ s.gen u → (s.putBack i w b).old u g = []) ∧
    ∃ pc, (s.putBack i w b).base.pc = Function.update s.base.pc (.inl i) pc ∧
      (s.base.pc (.inl i)).inHand = 0 ∧ pc.inHand = 0 := by
  obtain ⟨hguards, hloaded⟩ := State.stale_eq hstale
  rw [h.replaced w _ hloaded] at hs
  obtain ⟨m, pc, hm, rfl⟩ := State.step_cases hs
  have hview : (State.withDeque s.base w []).mem.store.deques w = [] := Function.update_self _ _ _
  obtain ⟨⟨hinj, hdeques, hst⟩, ⟨hret, hpushed⟩, hhand, hhand'⟩ := guarding_eq hm hguards hview
  -- the present deque comes back as it was
  have hback : Function.update m.store.deques w (s.base.mem.store.deques w) =
      s.base.mem.store.deques := by
    rw [hdeques]
    funext u
    by_cases hu : u = w
    · subst hu
      rw [Function.update_self]
    · rw [Function.update_of_ne hu]
      exact Function.update_of_ne hu _ _
  refine ⟨⟨hpushed, hret⟩, ⟨hinj, hback, hst⟩, fun u g hg => ?_, pc, rfl, hhand, hhand'⟩
  have hlast : m.store.deques w = [] := by
    rw [hdeques]
    exact hview
  by_cases hu : u = w
  · subst hu
    simp only [State.putBack, Function.update_self, hlast]
    by_cases hgl : g = s.loaded i
    · rw [hgl, Function.update_self]
    · rw [Function.update_of_ne hgl]
      exact h.replaced u g hg
  · simp only [State.putBack, Function.update_of_ne hu]
    exact h.replaced u g hg

/-- A step of a scan on a replaced buffer keeps the invariant. -/
lemma Sound.step_putBack (h : Sound s) {i w : q.Worker} {c : Choice q P R}
    {b : AffinityPool.State q P R} (hstale : s.stale i = some w)
    (hs : (State.withDeque s.base w (s.old w (s.loaded i))).step (.inl i, c) = some b) :
    Sound (s.putBack i w b) := by
  obtain ⟨⟨hpushed, hret⟩, ⟨hinj, hdeques, hst⟩, hold, pc, hpc, hhand, hhand'⟩ :=
    h.putBack_eq hstale hs
  have hguards := (State.stale_eq hstale).1
  have hne : ∀ u, s.base.pc (.inl u) = .boot ∨ (∃ r, s.base.pc (.inl u) = .out (.running r)) →
      (Sum.inl u : Thread q P) ≠ .inl i := by
    rintro u hu heq
    rw [heq] at hu
    rcases hu with hu | ⟨r, hu⟩
    · rw [hu] at hguards
      cases hguards
    · rw [hu] at hguards
      cases hguards
  refine ⟨?_, ?_, fun u hu => ?_, hold, fun u hu => ?_⟩
  · have hhands := tally_update Pc.inHand s.base.pc (.inl i) pc
    rw [hhand, hhand', add_zero, add_zero] at hhands
    have hitems : (s.putBack i w b).base.mem.store.items = s.base.mem.store.items := by
      unfold Store.items
      rw [hinj, hdeques]
    rw [hpushed, hret, hitems, hpc, hhands]
    exact h.conserved
  · rw [hpushed]
    exact h.nodup
  · rw [hst] at hu
    obtain ⟨hboot, hdeque⟩ := h.unregistered u hu
    rw [hpc, hdeques, Function.update_of_ne (hne u (Or.inl hboot))]
    exact ⟨hboot, hdeque⟩
  · obtain ⟨r, hr⟩ := h.unwound u hu
    refine ⟨r, ?_⟩
    rw [hpc, Function.update_of_ne (hne u (Or.inr ⟨r, hr⟩)), hr]

/-- **Step lemma.**  A step in which no replacement registers over a filled deque keeps the
invariant. -/
theorem Sound.step (h : Sound s) {a : Action q P R} (hok : s.Spared a)
    (hs : s.step a = some s') : Sound s' := by
  cases a with
  | run t c =>
    simp only [State.step] at hs
    split at hs
    · rename_i halive
      cases t with
      | inr p =>
        obtain ⟨b, hb, rfl⟩ := Option.map_eq_some_iff.mp hs
        exact h.step_foreign hb
      | inl i =>
        simp only [State.run] at hs
        split at hs
        · obtain ⟨b, hb, rfl⟩ := Option.map_eq_some_iff.mp hs
          exact h.step_follow (by simpa [State.alive] using halive) hok hb
        · rename_i w hstale
          obtain ⟨b, hb, rfl⟩ := Option.map_eq_some_iff.mp hs
          exact h.step_putBack hstale hb
    · cases hs
  | unwind w =>
    simp only [State.step] at hs
    split at hs
    · rename_i r hpc
      split at hs
      · cases hs
      · cases hs
        refine ⟨h.conserved, h.nodup, h.unregistered, h.replaced, fun u hu => ?_⟩
        by_cases huw : u = w
        · subst huw
          exact ⟨r, hpc⟩
        · simp only [Function.update_of_ne huw] at hu
          exact h.unwound u hu
    · cases hs
  | respawn w =>
    simp only [State.step] at hs
    split at hs
    · rename_i hunwinding
      cases hs
      obtain ⟨r, hr⟩ := h.unwound w hunwinding
      have hhands := tally_update Pc.inHand s.base.pc (.inl w) .boot
      rw [hr] at hhands
      have hsame : tally Pc.inHand (Function.update s.base.pc (.inl w) .boot) =
          tally Pc.inHand s.base.pc := by simpa [Pc.inHand] using hhands
      refine ⟨?_, h.nodup, fun u hu => ?_, h.replaced, fun u hu => ?_⟩
      · dsimp only
        rw [hsame]
        exact h.conserved
      · obtain ⟨hboot, hdeque⟩ := h.unregistered u hu
        refine ⟨?_, hdeque⟩
        by_cases huw : u = w
        · subst huw
          exact Function.update_self _ _ _
        · exact (Function.update_of_ne (fun heq => huw (Sum.inl_injective heq)) _ _).trans hboot
      · by_cases huw : u = w
        · subst huw
          simp only [Function.update_self] at hu
          cases hu
        · simp only [Function.update_of_ne huw] at hu
          obtain ⟨x, hx⟩ := h.unwound u hu
          exact ⟨x, (Function.update_of_ne (fun heq => huw (Sum.inl_injective heq)) _ _).trans hx⟩
    · cases hs

/-- The invariant holds in every run in which no replacement registers over a filled deque. -/
theorem Sound.of_reach (h : (machine q P R).Reach State.Spared s) : Sound s := by
  refine h.invariant ?_ ?_
  · rintro _ rfl
    have hbase := Storage.of_reachable (q := q) (P := P) (R := R) (.of_init rfl)
    refine ⟨hbase.conserved, hbase.nodup, fun w _ => ⟨rfl, rfl⟩, fun w g _ => rfl, fun w hw => ?_⟩
    cases hw
  · intro s a s' _ hsound hok hs
    exact hsound.step hok hs

omit [DecidableEq P] [DecidableEq R] in
/-- Every pushed runnable is kept. -/
lemma Sound.kept (h : Sound s) {r : R} (hr : r ∈ s.base.mem.pushed) : s.Kept r := by
  have hmem : r ∈ (s.base.mem.pushed : Multiset R) := hr
  rw [h.conserved, Multiset.mem_add, Multiset.mem_add] at hmem
  rcases hmem with (hret | hitem) | hhand
  · exact Or.inl hret
  · obtain ⟨v, hv⟩ := Store.mem_items.mp hitem
    refine Or.inr (Or.inl ⟨v, ?_, hv⟩)
    rintro w rfl
    by_contra hst
    have hempty := (h.unregistered w (Bool.eq_false_iff.mpr hst)).2
    rw [Store.queue_peer, hempty] at hv
    cases hv
  · obtain ⟨t, -, ht⟩ := Multiset.mem_sum.mp hhand
    exact Or.inr (Or.inr ⟨t, ht⟩)

/-- A replacement that registers over a filled deque loses what is in it. -/
lemma Sound.not_kept (h : Sound s) {a : Action q P R} (hs : s.step a = some s')
    (hbad : ¬ s.Spared a) : ∃ r ∈ s'.base.mem.pushed, ¬ s'.Kept r := by
  obtain ⟨w, c, rfl⟩ : ∃ w c, a = .run (.inl w) c := by
    cases a with
    | run t c =>
      cases t with
      | inl w => exact ⟨w, c, rfl⟩
      | inr p => exact absurd trivial hbad
    | unwind w => exact absurd trivial hbad
    | respawn w => exact absurd trivial hbad
  obtain ⟨hboot, hfilled⟩ := Classical.not_imp.mp hbad
  obtain ⟨r, hr⟩ := List.exists_mem_of_ne_nil _ hfilled
  simp only [State.step] at hs
  split at hs
  · have hstale : s.stale w = none := by
      unfold State.stale
      rw [hboot]
      rfl
    simp only [State.run, hstale] at hs
    obtain ⟨b, hb, rfl⟩ := Option.map_eq_some_iff.mp hs
    obtain ⟨m, pc, hm, rfl⟩ := State.step_cases hb
    simp only [hboot] at hm
    generalize hpc : pc = pc' at hm
    cases hm
    rename_i u hu
    cases hu
    -- before the registration the runnable is in this deque and nowhere else
    have hcount := congrArg (Multiset.count r) h.conserved
    have hone := List.nodup_iff_count_le_one.mp h.nodup r
    have hset := congrArg (Multiset.count r) (s.base.mem.store.items_setQueue (.peer w) [])
    have hpos : 0 < Multiset.count r (s.base.mem.store.deques w : Multiset R) :=
      Multiset.count_pos.mpr hr
    simp only [Multiset.count_add, Multiset.coe_count, Store.queue_peer, Multiset.coe_nil,
      Multiset.count_zero] at hcount hset hpos
    have hpushed : r ∈ s.base.mem.pushed := List.count_pos_iff.mp (by omega)
    refine ⟨r, hpushed, ?_⟩
    rintro (hret | ⟨v, -, hv⟩ | ⟨t, ht⟩)
    · have hret' : 0 < List.count r s.base.mem.returned := List.count_pos_iff.mpr hret
      omega
    · have hitem := Multiset.count_pos.mpr (Store.mem_items.mpr ⟨v, hv⟩)
      have hitem' : 0 < Multiset.count r (s.base.mem.store.setQueue (.peer w) []).items := hitem
      omega
    · have hhand : r ∈ (s.base.pc t).inHand := by
        by_cases htw : t = .inl w
        · subst htw
          simp only [State.follow, Function.update_self] at ht
          cases ht
        · simpa only [State.follow, Function.update_of_ne htw] using ht
      have hhands : 0 < Multiset.count r (tally Pc.inHand s.base.pc) :=
        Multiset.count_pos.mpr (Multiset.mem_sum.mpr ⟨t, Finset.mem_univ t, hhand⟩)
      omega
  · cases hs

/-- **Respawn.**  In every run in which a replacement registers only when the deque in its slot
is empty, no pushed runnable is lost: it has been returned, is in an injector or in the deque
of a registered worker, or is about to be returned.  A replacement that registers earlier loses
a runnable. -/
theorem respawn_loses_nothing (h : (machine q P R).Reach State.Spared s) :
    (∀ r ∈ s.base.mem.pushed, s.Kept r) ∧
      ∀ a s', s.step a = some s' → ¬ s.Spared a → ∃ r ∈ s'.base.mem.pushed, ¬ s'.Kept r :=
  ⟨fun _ hr => (Sound.of_reach h).kept hr, fun _ _ hs hbad => (Sound.of_reach h).not_kept hs hbad⟩

end Steps

/-- Steps of the threads of the queue. -/
def runs (as : List (Thread q P × Choice q P R)) : List (Action q P R) :=
  as.map fun (t, c) => .run t c

/-- Worker `0` runs runnable 0, which spawns runnable 1, and unwinds.  Worker `1`, which has
loaded its slot before, steals runnable 1; then the replacement registers. -/
def rescueRun : List (Action duo Unit ℕ) :=
  runs ([(.inr (), .spawn 0 0 none)] ++ goes (.inr ()) 2 ++ goes (duo.worker 0 Nat.two_pos) 3 ++
    [(duo.worker 0 Nat.two_pos, .steal (.batch 1)), (duo.worker 0 Nat.two_pos, .spawn 1 0 none)] ++
    goes (duo.worker 0 Nat.two_pos) 2 ++ goes (duo.worker 1 Nat.one_lt_two) 4) ++
  [.unwind ⟨0, duo.numWorkers_pos⟩] ++
  runs (goes (duo.worker 1 Nat.one_lt_two) 1 ++
    [(duo.worker 1 Nat.one_lt_two, .steal (.batch 1))]) ++
  [.respawn ⟨0, duo.numWorkers_pos⟩] ++ runs (goes (duo.worker 0 Nat.two_pos) 1)

/-- The state after `rescueRun`. -/
def rescued : State duo Unit ℕ :=
  (machine duo Unit ℕ).final (.start duo Unit ℕ) rescueRun (by decide)

/-- Nothing is lost there. -/
theorem respawn_loses_nothing_rescued :
    rescued.base.mem.pushed = [0, 1] ∧ rescued.gen ⟨0, by decide⟩ = 2 ∧
      ∀ r ∈ rescued.base.mem.pushed, rescued.Kept r :=
  ⟨by decide, by decide, (respawn_loses_nothing (Reach.final rfl (by decide) _)).1⟩

/-- The only worker runs runnable 0, which spawns runnable 1, and unwinds; its replacement
registers. -/
def lossRun : List (Action solo Unit ℕ) :=
  runs ([(.inr (), .spawn 0 0 none)] ++ goes (.inr ()) 2 ++ goes solo.worker 3 ++
    [(solo.worker, .steal (.batch 1)), (solo.worker, .spawn 1 0 none)] ++ goes solo.worker 2) ++
  [.unwind ⟨0, solo.numWorkers_pos⟩, .respawn ⟨0, solo.numWorkers_pos⟩] ++ runs (goes solo.worker 1)

/-- The state after `lossRun`. -/
def lost : State solo Unit ℕ :=
  (machine solo Unit ℕ).final (.start solo Unit ℕ) lossRun (by decide)

/-- Runnable 1 is in a buffer that nothing reaches any more. -/
theorem lost_reachable :
    (machine solo Unit ℕ).Reachable lost ∧ 1 ∈ lost.base.mem.pushed ∧ ¬ lost.Kept 1 ∧
      lost.old ⟨0, by decide⟩ 1 = [1] ∧ ¬ lost.Handled ⟨0, by decide⟩ 1 := by
  refine ⟨.final rfl _, by decide, ?_, by decide, ?_⟩
  · rintro (h | ⟨s | w, -, h⟩ | ⟨w | p, h⟩)
    · revert h
      decide
    · revert s
      decide
    · revert w
      decide
    · revert w
      decide
    · revert p
      decide
  · rintro (h | ⟨i, h, -⟩)
    · revert h
      decide
    · revert i
      decide

end Respawn

end AffinityPool
