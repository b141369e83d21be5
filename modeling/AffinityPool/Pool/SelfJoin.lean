import AffinityPool.Pool.Drop
import AffinityPool.Pool.Recovery

/-!
# A drop on a worker of the pool

When `Threadpool::drop` runs on a worker of the pool, the list of the handles holds that worker's
own handle, and the drop comes to join its own thread (`self_join_reachable`).  It never comes to
that when no drop takes the handle of its own thread; and from every drop that does, there is a
run in which it joins itself (`no_self_join`).
-/

namespace AffinityPool

namespace Lifecycle

open Transition System

variable {s s' : State} {a : Action} {workers : ℕ}

/-- The executing thread is about to join its own handle. -/
def Dropper.JoinsItself : Dropper → Prop
  | .joining (some k) (h :: _) => h = k
  | _ => False

namespace State

/-- The handles are not taken by a worker whose own handle is among them. -/
def SparesItself (s : State) : Action → Prop
  | .drop => ∀ k ∈ s.data.threadHandles, s.dropper ≠ .shut (some k)
  | _ => True

instance SparesItself.decidable (s : State) : ∀ a, Decidable (s.SparesItself a)
  | .drop => inferInstanceAs (Decidable (∀ k ∈ s.data.threadHandles, s.dropper ≠ .shut (some k)))
  | .begin _ | .exit _ | .unwind _ | .advance _ => inferInstanceAs (Decidable True)

end State

/-- The executing worker is not among the threads it joins. -/
def Apart (s : State) : Prop := ∀ k hs, s.dropper = .joining (some k) hs → k ∉ hs

/-- **Step lemma.**  A step that takes no handle of its own keeps the executor apart. -/
theorem Apart.step (h : Apart s) (hok : s.SparesItself a) (hm : Move s a s') : Apart s' := by
  intro k hs hd
  cases hm with
  | drain hold =>
    injection hd with he hhandles
    rw [← hhandles]
    intro hmem
    rw [he] at hold
    exact hok k hmem hold
  | @join e m ms hold hself ht =>
    injection hd with he hms
    rw [he] at hold
    rw [← hms]
    exact fun hmem => h k _ hold (List.mem_cons_of_mem _ hmem)
  | begin | shutdown | panic | reset | release | abandon => cases hd
  | _ => exact h k hs hd

/-- **Run lemma.**  In a run in which no drop takes the handle of its own thread, the executor is
apart. -/
theorem Apart.of_reach (h : (machine workers).Reach State.SparesItself s) : Apart s := by
  refine h.invariant ?_ ?_
  · rintro _ rfl k hs hd
    cases hd
  · intro s a s' _ hs hok hstep
    exact hs.step hok (.of_step hstep)

/-- Worker `k` executes the drop and has its own handle left to join. -/
def HoldsOwn (k : ℕ) (s : State) : Prop := ∃ hs, s.dropper = .joining (some k) hs ∧ k ∈ hs

/-- **Step lemma.**  The worker keeps its own handle until it joins itself. -/
theorem HoldsOwn.step {k : ℕ} (h : HoldsOwn k s) (hm : Move s a s') :
    HoldsOwn k s' ∨ s.dropper.JoinsItself := by
  obtain ⟨hs, hd, hmem⟩ := h
  cases hm with
  | join hold hself ht =>
    rw [hd] at hold
    cases hold
    rcases List.mem_cons.mp hmem with rfl | hmem
    · exact absurd rfl hself
    · exact Or.inl ⟨_, rfl, hmem⟩
  | panic hold =>
    right
    rw [hold]
    rfl
  | reset hold =>
    rw [hd] at hold
    cases hold
    cases hmem
  | begin hold | shutdown hold | drain hold | release hold | abandon hold =>
    rw [hd] at hold
    cases hold
  | _ => exact Or.inl ⟨hs, hd, hmem⟩

/-- A worker that has its own handle left to join can come to join it: the pool comes to rest only
after that. -/
theorem HoldsOwn.leads {k : ℕ} (h : HoldsOwn k s) (hr : (machine workers).Reachable s) :
    ∃ t, (machine workers).Leads (fun _ _ => True) s t ∧ t.dropper.JoinsItself := by
  have hbegun : s.dropper ≠ .idle := by
    obtain ⟨hs, hd, -⟩ := h
    rw [hd]
    simp
  obtain ⟨t, hl, ht⟩ := exists_settled endWork_potential hr
  have hreleased := (released_of_settled (hr.leads hl.of_alone)
    (fun hidle => hbegun ((idle_of_alone hl).mpr hidle)) ht).1
  have hout : ¬ HoldsOwn k t := by
    rintro ⟨hs, hd, -⟩
    rw [hreleased] at hd
    cases hd
  obtain ⟨u, b, u', hu, hin, -, hstep, hleft⟩ := hl.of_alone.exists_exit h hout
  exact ⟨u, hu, (hin.step (.of_step hstep)).resolve_left hleft⟩

/-- **Self-join.**  When no worker takes its own handle for joining, no reached state has the drop
about to join its own thread; and every drop that takes its own handle can come to join it. -/
theorem no_self_join (workers : ℕ) :
    (∀ s, (machine workers).Reach State.SparesItself s → ¬ s.dropper.JoinsItself) ∧
      ∀ s a s', (machine workers).Reachable s → ¬ s.SparesItself a →
        (machine workers).step s a = some s' →
        ∃ t, (machine workers).Leads (fun _ _ => True) s' t ∧ t.dropper.JoinsItself := by
  constructor
  · intro s h hjoin
    unfold Dropper.JoinsItself at hjoin
    split at hjoin
    · rename_i k m hs hd
      exact Apart.of_reach h k _ hd (hjoin ▸ List.mem_cons_self)
    · exact hjoin
  · intro s a s' h hok hstep
    unfold State.SparesItself at hok
    split at hok
    · obtain ⟨k, hmem, hd⟩ := not_forall₂.mp hok
      rw [not_not] at hd
      have hholds : HoldsOwn k s' := by
        have hm : Move s .drop s' := .of_step hstep
        cases hm with
        | drain hold =>
          rw [hd] at hold
          cases hold
          exact ⟨_, rfl, hmem⟩
        | shutdown hold | join hold | panic hold | reset hold | release hold | abandon hold =>
          rw [hd] at hold
          cases hold
      exact hholds.leads (h.step trivial hstep)
    · exact absurd trivial hok

/-- A worker unwinds, its replacement executes the drop before its own handle is stored. -/
def unlisted : State :=
  (machine 1).final (.start 1)
    ([.unwind 0] ++ List.replicate 3 (.advance 0) ++ [.begin (some 1), .drop, .drop]) (by decide)

/-- The only worker executes the drop and shuts the queue down. -/
def shutting : State := (machine 1).final (.start 1) [.begin (some 0), .drop] (by decide)

/-- The drop of a replacement that is not on the list does not join its own thread; a worker on the
list can come to that. -/
theorem no_self_join_unlisted :
    (unlisted.dropper = .joining (some 1) [0] ∧ ¬ unlisted.dropper.JoinsItself) ∧
      ∃ t, (machine 1).Leads (fun _ _ => True) shutting t ∧ t.dropper.JoinsItself := by
  refine ⟨⟨rfl, (no_self_join 1).1 unlisted (Reach.final rfl (by decide) _)⟩, ?_⟩
  have hreach : (machine 1).Reachable shutting := .final rfl _
  have hstep : (machine 1).step shutting .drop = some _ := rfl
  obtain ⟨t, hl, ht⟩ := (no_self_join 1).2 shutting .drop _ hreach (by decide) hstep
  exact ⟨t, .trans (.tail .refl trivial hstep) hl, ht⟩

/-- The only worker executes the drop. -/
def selfish : State :=
  (machine 1).final (.start 1) [.begin (some 0), .drop, .drop] (by decide)

/-- A drop can come to join its own thread. -/
theorem self_join_reachable :
    selfish.dropper = .joining (some 0) [0] ∧
      ¬ ∀ (workers : ℕ) (s : State), (machine workers).Reachable s → ¬ s.dropper.JoinsItself := by
  refine ⟨rfl, fun hall => ?_⟩
  exact hall 1 selfish (Reachable.final rfl _) rfl

end Lifecycle

end AffinityPool
