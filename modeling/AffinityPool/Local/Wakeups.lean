import AffinityPool.Local.ParkToken

/-!
# Wake-ups of other parties during a drop

A return of `park` inside `block_on_cancel` takes the unparks of others together with its own.  An
unpark during the call outlives it in every further run exactly when it comes after the runnable
has stopped and while the thread is about to poll (`wake_survives`); that a cancellation is ready
as soon as its runnable is over is what `async-task` promises (`Parking.Prompt`).

The part of this that takes a wake-up away postpones the steps of the dropping thread: the others
go on without them, since what one thread is at does not matter to their steps (`Move.setAct`), and
the thread returns from `park` as the last one (`Postponed`).
-/

namespace AffinityPool

namespace Local

open Transition System

variable {q : Shape} {P R : Type}

/-! ## The steps of the other threads -/

section Others

variable [DecidableEq P] [DecidableEq R] {s s' : State q P R} {t u : Thread q P}
  {c : Choice q P R} {r : R}

omit [DecidableEq R] in
/-- The acts of two threads are replaced in either order. -/
lemma State.setAct_comm (s : State q P R) (hu : u ≠ t) (a b : Act R) :
    (s.setAct u b).setAct t a = (s.setAct t a).setAct u b := by
  simp only [setAct, Function.update_comm hu]

/-- **Frame.**  What a thread is at does not matter to the steps of the others. -/
theorem Move.setAct (hm : Move s u c s') (hu : u ≠ t) (a : Act R) :
    Move (s.setAct t a) u c (s'.setAct t a) := by
  have hact : (s.setAct t a).act u = s.act u := Function.update_of_ne hu _ _
  have hat : s.atCall u → (s.setAct t a).atCall u := fun h => ⟨hact.trans h.1, h.2⟩
  cases hm with
  | @queue c b hc hallows hb =>
    refine .queue hc ?_ hb
    cases c with
    | spawn r hash cell => exact absurd rfl (hc r hash cell)
    | close => exact hact.trans hallows
    | ret => exact ⟨hact.trans hallows.1, hallows.2⟩
    | _ => trivial
  | spawn hfree hn hb => exact .spawn (hact.trans hfree) hn hb
  | create hcall hn => exact .create (hat hcall) hn
  | schedule hcall hf hr hb =>
    rw [State.setAct_comm _ hu]
    exact .schedule ⟨hat hcall.1, hcall.2⟩ hf hr hb
  | poll hcall hf hr =>
    rw [State.setAct_comm _ hu]
    exact .poll ⟨hat hcall.1, hcall.2⟩ hf hr
  | ready ha hout hf ht he =>
    rw [State.setAct_comm _ hu]
    exact .ready (hact.trans ha) hout hf ht he
  | pending ha hout hf =>
    rw [State.setAct_comm _ hu]
    exact .pending (hact.trans ha) hout hf
  | discard hcall hf hr => exact .discard ⟨hat hcall.1, hcall.2⟩ hf hr
  | close hcall hf hr ht =>
    rw [State.setAct_comm _ hu]
    exact .close ⟨hat hcall.1, hcall.2⟩ hf hr ht
  | forget hcall hf hr ht => exact .forget ⟨hat hcall.1, hcall.2⟩ hf hr ht
  | stopped ha he =>
    rw [State.setAct_comm _ hu]
    exact .stopped (hact.trans ha) he
  | park ha =>
    rw [State.setAct_comm _ hu]
    exact .park (hact.trans ha)
  | unpark ha =>
    rw [State.setAct_comm _ hu]
    exact .unpark (hact.trans ha)
  | cancel hcall hj => exact .cancel (hat hcall) hj
  | skip hfree hr he hc => exact .skip (hact.trans hfree) hr he hc
  | enter hfree hr he hc => exact .enter (hact.trans hfree) hr he hc
  | finish hfree hr he => exact .finish (hact.trans hfree) hr he

/-- A future that is being dropped does not come back. -/
lemma Move.isEnded (hm : Move s u c s') (h : (s.task r).handle.isEnded = true) :
    (s'.task r).handle.isEnded = true := by
  have hset : ∀ {x : R} {j : Task}, (x = r → j.handle.isEnded = true) →
      (Function.update s.task x j r).handle.isEnded = true := by
    intro x j hj
    by_cases hx : r = x
    · subst hx
      rw [Function.update_self]
      exact hj rfl
    · rwa [Function.update_of_ne hx]
  have hopen : ∀ {x : R} {k : Handle} {j : Task}, (s.task x).handle = k → k.isEnded = false →
      x = r → j.handle.isEnded = true := by
    rintro x k j hk hopen rfl
    rw [hk, hopen] at h
    cases h
  cases hm with
  | queue | park | unpark => exact h
  | spawn hfree hn | create hcall hn => exact hset (hopen hn rfl)
  | schedule hcall hf | poll hcall hf => exact hset (hopen hf rfl)
  | ready ha hout hf | pending ha hout hf => exact hset (hopen hf rfl)
  | discard | close | forget | stopped => exact hset fun _ => rfl
  | cancel hcall hj => exact hset (hopen hj rfl)
  | skip | enter | finish => exact hset fun hx => hx ▸ h

/-- Tokens and wake-ups do not bring it back either. -/
lemma ended_kept {p p' : Parking q P R} {e : Parking.Event q P R} (hm : Parking.Move p e p')
    (h : (p.base.task r).handle.isEnded = true) : (p'.base.task r).handle.isEnded = true := by
  cases hm with
  | run htoken hs => exact (Move.of_step hs).isEnded h
  | _ => exact h

/-- A future that is being dropped is not dropped again. -/
lemma not_drop_of_ended {p p' : Parking q P R} {e : Parking.Event q P R}
    (hm : Parking.Move p e p') (h : (p.base.task r).handle.isEnded = true) :
    e ≠ .run t (.drop r) := by
  rintro rfl
  cases hm with
  | run htoken hs =>
    obtain ⟨f, hf⟩ := (Move.of_step hs).future_of_drop
    rw [hf] at h
    cases h

end Others

/-! ## The unparks of other parties -/

/-- The task that a thread inside `block_on_cancel` cancels. -/
def Act.cancels : Act R → Option R
  | .cancelling r _ => some r
  | _ => none

namespace Parking

/-- The cancellation of a runnable that is over is ready: a poll that reports `Pending` has found
the runnable not over. -/
def Prompt (p : Parking q P R) : Event q P R → Prop
  | .run t (.attempt false) => ∀ r ∈ (p.base.act t).cancels, (p.base.task r).exec.isOver = false
  | _ => True

instance Prompt.decidable [DecidableEq R] (p : Parking q P R) : ∀ e, Decidable (p.Prompt e)
  | .run t (.attempt false) => inferInstanceAs
      (Decidable (∀ r ∈ (p.base.act t).cancels, (p.base.task r).exec.isOver = false))
  | .run _ (.attempt true) | .run _ (.queue _) | .run _ (.create _) | .run _ (.poll _ _ _)
  | .run _ (.drop _) | .run _ .unpark | .run _ (.cancel _) | .run _ .begin | .run _ (.finish _)
  | .wake _ | .unpark _ | .park _ => inferInstanceAs (Decidable True)

/-- A thread inside `block_on_cancel` is about to poll a cancellation whose runnable is over. -/
def Heeds (p : Parking q P R) (t : Thread q P) : Prop :=
  ∀ r ∈ (p.base.act t).cancels,
    p.base.act t = .cancelling r false ∧ (p.base.task r).exec.isOver = true

instance [DecidableEq R] (p : Parking q P R) (t : Thread q P) : Decidable (p.Heeds t) :=
  inferInstanceAs (Decidable (∀ r ∈ (p.base.act t).cancels,
    p.base.act t = .cancelling r false ∧ (p.base.task r).exec.isOver = true))

/-- No other party unparks a thread inside `block_on_cancel` before the runnable has stopped, or
between a poll of the cancellation and the return of `park` after it. -/
def Timely (p : Parking q P R) : Event q P R → Prop
  | .unpark t => p.Heeds t
  | _ => True

instance Timely.decidable [DecidableEq R] (p : Parking q P R) : ∀ e, Decidable (p.Timely e)
  | .unpark t => inferInstanceAs (Decidable (p.Heeds t))
  | .run _ _ | .wake _ | .park _ => inferInstanceAs (Decidable True)

variable [DecidableEq P] [DecidableEq R]

/-- `block_on_cancel` returns on a thread: its poll of the cancellation reports `Ready`. -/
def Returns (p : Parking q P R) (t : Thread q P) (r : R) (p' : Parking q P R) : Prop :=
  p.base.act t = .cancelling r false ∧ p.step (.run t (.attempt true)) = some p'

end Parking

/-- Another party has unparked the thread since it last began to drop a future. -/
def noteAlarm [DecidableEq P] (l : Thread q P → Bool) (_ : Parking q P R)
    (e : Parking.Event q P R) (_ : Parking q P R) : Thread q P → Bool :=
  match e with
  | .run t (.drop _) => Function.update l t false
  | .unpark t => Function.update l t true
  | _ => l

/-- The pool with a record of the unparks of other parties. -/
def alarmed (q : Shape) (P R : Type) [DecidableEq P] [DecidableEq R] :
    System (Parking q P R × (Thread q P → Bool)) (Parking.Event q P R) :=
  (parking q P R).record (fun _ => false) noteAlarm

section Kept

variable [DecidableEq P] [DecidableEq R] {p p' : Parking q P R} {e : Parking.Event q P R}
  {t : Thread q P} {r : R}

/-- A thread inside `block_on_cancel` of `r` returns at its next poll, with its token set. -/
def Keeps (p : Parking q P R) (t : Thread q P) (r : R) : Prop :=
  ∀ parked, p.base.act t = .cancelling r parked →
    parked = false ∧ (p.base.task r).exec.isOver = true ∧ p.token t = true

/-- **Step lemma.**  The thread keeps its token until it drops `r` again. -/
theorem Keeps.step (h : Keeps p t r) (hm : Parking.Move p e p') (hprompt : p.Prompt e)
    (hdrop : e ≠ .run t (.drop r)) : Keeps p' t r := by
  intro parked hact
  cases hm with
  | @run u c s htoken hs =>
    have hm := Move.of_step hs
    rcases hm.cancelling_cases hact with ⟨b, hold⟩ | ⟨rfl, rfl, -⟩
    · obtain ⟨rfl, hover, hset⟩ := h b hold
      have hparked : parked = false := by
        refine Bool.eq_false_of_not_eq_true ?_
        rintro rfl
        rcases hm.parked_cases hact with ⟨hparked, -⟩ | ⟨rfl, rfl, -⟩
        · rw [hold] at hparked
          cases hparked
        · have hopen := hprompt r (by rw [hold]; rfl)
          rw [hover] at hopen
          cases hopen
      refine ⟨hparked, (hm.settled hover).1, ?_⟩
      refine (Parking.tokens_kept ?_).trans hset
      rintro rfl rfl
      cases hm with
      | unpark ha =>
        rw [hold] at ha
        cases ha
    · exact absurd rfl hdrop
  | wake ha hover =>
    obtain ⟨hparked, hover, hset⟩ := h parked hact
    exact ⟨hparked, hover, token_set hset⟩
  | unpark u =>
    obtain ⟨hparked, hover, hset⟩ := h parked hact
    exact ⟨hparked, hover, token_set hset⟩
  | @park u hcall htoken =>
    obtain ⟨hparked, hover, hset⟩ := h parked hact
    have ht : t ≠ u := by
      rintro rfl
      rw [hcall.1] at hact
      cases hact
    exact ⟨hparked, hover, (Function.update_of_ne ht _ _).trans hset⟩

/-- An unpark that the thread heeds leaves it with its token set. -/
lemma Parking.Heeds.keeps (h : p.Heeds t) (hm : Parking.Move p (.unpark t) p') : Keeps p' t r := by
  intro parked hact
  cases hm with
  | unpark =>
    have hact : p.base.act t = .cancelling r parked := hact
    obtain ⟨hnext, hover⟩ := h r (by rw [hact]; rfl)
    rw [hact] at hnext
    cases hnext
    exact ⟨rfl, hover, Function.update_self _ _ _⟩

/-- The return of `block_on_cancel` leaves the tokens as they are. -/
lemma Parking.Returns.token_eq (h : p.Returns t r p') : p'.token = p.token := by
  cases Parking.Move.of_step h.2 with
  | run htoken hs => rfl

/-- **Run lemma.**  In a run whose unparks are timely, the token of a thread inside
`block_on_cancel` that another party has unparked is kept. -/
theorem alarmed_kept {x : Parking q P R × (Thread q P → Bool)}
    (h : (alarmed q P R).Reach (fun x e => x.1.Prompt e ∧ x.1.Timely e) x) (t : Thread q P)
    (hx : x.2 t = true) (r : R) : Keeps x.1 t r := by
  revert t r
  refine h.invariant (I := fun x => ∀ t, x.2 t = true → ∀ r, Keeps x.1 t r) ?_ ?_
  · rintro ⟨p, l⟩ ⟨-, rfl⟩ t hl
    cases hl
  · rintro y e y' - hy ⟨hprompt, htimely⟩ hstep t hl r
    obtain ⟨hstep, hnote⟩ := record_step.mp hstep
    rw [hnote] at hl
    have hm := Parking.Move.of_step hstep
    have hold : y.2 t = true → e ≠ .run t (.drop r) → Keeps y'.1 t r := fun hset hdrop =>
      (hy t hset r).step hm hprompt hdrop
    cases e with
    | run u c =>
      cases c with
      | drop x =>
        rcases update_cases hl with ⟨-, hfalse⟩ | ⟨ht, hset⟩
        · cases hfalse
        · refine hold hset ?_
          rintro ⟨⟩
          exact ht rfl
      | _ => exact hold hl (by simp)
    | unpark u =>
      rcases update_cases hl with ⟨rfl, -⟩ | ⟨-, hset⟩
      · exact Parking.Heeds.keeps htimely hm
      · exact hold hset (by simp)
    | _ => exact hold hl (by simp)

end Kept

/-! ## A return of `park` that comes last -/

section Postponed

variable [DecidableEq P] [DecidableEq R] {u u' v p p' : Parking q P R} {e : Parking.Event q P R}
  {t : Thread q P} {r : R} {parked : Bool}

/-- `v` is `u` but that `t`, which cancels `r`, is parked with its token set; the awaiter of `r`
may be another one. -/
structure Postponed (t : Thread q P) (r : R) (u v : Parking q P R) : Prop where
  base : v.base = u.base.setAct t (.cancelling r true)
  token : v.token t = true
  tokens : ∀ w, w ≠ t → v.token w = u.token w
  awaiters : ∀ x, x ≠ r → v.awaiter x = u.awaiter x

namespace Postponed

omit [DecidableEq R] in
/-- The other threads are at the same place. -/
lemma act_eq (h : Postponed t r u v) {w : Thread q P} (hw : w ≠ t) :
    v.base.act w = u.base.act w := by
  rw [h.base]
  exact Function.update_of_ne hw _ _

/-- A step of another thread. -/
lemma run {w : Thread q P} {c : Choice q P R} {s : State q P R} (h : Postponed t r u v)
    (hw : w ≠ t) (hprompt : u.Prompt (.run w c)) (htoken : c = .unpark → u.token w = true)
    (hm : Move u.base w c s) :
    ∃ v', (parking q P R).Leads Parking.Prompt v v' ∧
      Postponed t r ⟨s, u.tokens w c, u.awaiters w c⟩ v' := by
  have hbase : v.base.step (w, c) = some (s.setAct t (.cancelling r true)) := by
    rw [h.base]
    exact (hm.setAct hw _).step
  have hstep : v.step (.run w c) = some
      ⟨s.setAct t (.cancelling r true), v.tokens w c, v.awaiters w c⟩ := by
    have hpark : ¬ (c = .unpark ∧ v.token w = false) := by
      rintro ⟨hc, hclear⟩
      rw [h.tokens w hw, htoken hc] at hclear
      cases hclear
    rw [Parking.step, if_neg hpark, hbase, Option.map_some]
  have hok : v.Prompt (.run w c) := by
    cases c with
    | attempt ready =>
      cases ready with
      | true => trivial
      | false =>
        intro x hx
        rw [h.act_eq hw] at hx
        have hx := hprompt x hx
        rwa [h.base]
    | _ => trivial
  refine ⟨_, .tail .refl hok hstep, rfl, ?_, ?_, ?_⟩
  · exact (Parking.tokens_kept fun hwt => absurd hwt hw).trans h.token
  · intro x hx
    by_cases hc : c = .unpark
    · simp only [Parking.tokens, if_pos hc]
      exact update_agree (h.tokens x hx) w false
    · simp only [Parking.tokens, if_neg hc]
      exact h.tokens x hx
  · intro x hx
    have hact := h.act_eq hw
    cases c with
    | attempt ready =>
      cases ready with
      | true => exact h.awaiters x hx
      | false =>
        simp only [Parking.awaiters, hact]
        cases u.base.act w with
        | cancelling y b =>
          exact update_agree (h.awaiters x hx) y (some w)
        | free | polling y => exact h.awaiters x hx
    | _ => exact h.awaiters x hx

/-- A step of the thread itself, which does not leave `block_on_cancel`: the polls and the returns
of `park` are left out. -/
lemma run_self {c : Choice q P R} {s : State q P R} (h : Postponed t r u v)
    (hold : u.base.act t = .cancelling r parked) (hm : Move u.base t c s) {b : Bool}
    (hact : s.act t = .cancelling r b) :
    ∃ v', (parking q P R).Leads Parking.Prompt v v' ∧
      Postponed t r ⟨s, u.tokens t c, u.awaiters t c⟩ v' := by
  have hbusy : u.base.act t ≠ .free := by
    rw [hold]
    simp
  cases hm with
  | @queue c b' hc hallows hb =>
    have hallows : v.base.allows t c := by
      cases c with
      | spawn x hash cell => exact absurd rfl (hc x hash cell)
      | close => exact absurd hallows hbusy
      | ret => exact absurd hallows.1 hbusy
      | _ => trivial
    have hb : v.base.base.step (t, c) = some b' := by
      rw [h.base]
      exact hb
    have hbase := (Move.queue hc hallows hb).step
    have hstep : v.step (.run t (.queue c)) = some
        ⟨{ v.base with base := b' }, v.tokens t (.queue c), v.awaiters t (.queue c)⟩ := by
      rw [Parking.step, if_neg (by simp), hbase, Option.map_some]
    refine ⟨_, .tail (a := .run t (.queue c)) .refl trivial hstep, ?_, h.token, h.tokens,
      h.awaiters⟩
    dsimp only
    rw [h.base]
    rfl
  | spawn hfree | skip hfree | enter hfree | finish hfree => exact absurd hfree hbusy
  | create hcall | cancel hcall => exact absurd hcall.1 hbusy
  | schedule hcall | poll hcall | discard hcall | close hcall | forget hcall =>
    exact absurd hcall.1.1 hbusy
  | ready ha | pending ha =>
    rw [hold] at ha
    cases ha
  | stopped ha he =>
    rcases update_cases hact with ⟨-, hself⟩ | ⟨hne, -⟩
    · cases hself
    · exact absurd rfl hne
  | park ha =>
    rw [hold] at ha
    cases ha
    refine ⟨v, .refl, ?_, h.token, h.tokens, fun x hx => ?_⟩
    · rw [h.base]
      simp only [State.setAct, Function.update_idem]
    · simp only [Parking.awaiters, hold, Function.update_of_ne hx]
      exact h.awaiters x hx
  | unpark ha =>
    rw [hold] at ha
    cases ha
    refine ⟨v, .refl, ?_, h.token, fun w hw => ?_, h.awaiters⟩
    · rw [h.base]
      simp only [State.setAct, Function.update_idem]
    · have hkept : u.tokens t .unpark w = u.token w :=
        Parking.tokens_kept fun hwt => absurd hwt.symm hw
      exact (h.tokens w hw).trans hkept.symm

omit [DecidableEq R] in
/-- An unpark, by whomever, that reaches the threads other than `t` in the same way. -/
lemma set_token {w : Thread q P} {f g : R → Option (Thread q P)} (h : Postponed t r u v)
    (hfg : ∀ x, x ≠ r → g x = f x) :
    Postponed t r { u with token := Function.update u.token w true, awaiter := f }
      { v with token := Function.update v.token w true, awaiter := g } := by
  exact ⟨h.base, token_set h.token, fun x hx => update_agree (h.tokens x hx) w true, hfg⟩

/-- **Step lemma.**  The others go on without the thread. -/
theorem step (h : Postponed t r u v) (hold : u.base.act t = .cancelling r parked)
    (hm : Parking.Move u e u') (hprompt : u.Prompt e) {b : Bool}
    (hact : u'.base.act t = .cancelling r b) :
    ∃ v', (parking q P R).Leads Parking.Prompt v v' ∧ Postponed t r u' v' := by
  cases hm with
  | @run w c s htoken hs =>
    by_cases hw : w = t
    · subst hw
      exact h.run_self hold (Move.of_step hs) hact
    · exact h.run hw hprompt htoken (Move.of_step hs)
  | @wake x w ha hover =>
    by_cases hx : x = r
    · subst hx
      -- the awaiter of `r` is unparked by another party
      have hstep : v.step (.unpark w) =
        some { v with token := Function.update v.token w true } := rfl
      refine ⟨_, .tail (a := .unpark w) .refl trivial hstep, h.set_token fun y hy => ?_⟩
      rw [Function.update_of_ne hy]
      exact h.awaiters y hy
    · have ha : v.awaiter x = some w := (h.awaiters x hx).trans ha
      have hover : (v.base.task x).exec.isOver = true := by
        rw [h.base]
        exact hover
      have hstep : v.step (.wake x) = some
          { v with
            token := Function.update v.token w true
            awaiter := Function.update v.awaiter x none } := by
        simp only [Parking.step, ha, if_pos hover]
      have hawaiters : ∀ y, y ≠ r →
          Function.update v.awaiter x none y = Function.update u.awaiter x none y := fun y hy =>
        update_agree (h.awaiters y hy) x none
      exact ⟨_, .tail (a := .wake x) .refl trivial hstep, h.set_token hawaiters⟩
  | unpark w =>
    have hstep : v.step (.unpark w) =
      some { v with token := Function.update v.token w true } := rfl
    exact ⟨_, .tail (a := .unpark w) .refl trivial hstep, h.set_token h.awaiters⟩
  | @park w hcall htoken =>
    have hw : w ≠ t := by
      rintro rfl
      rw [hcall.1] at hold
      cases hold
    have hcall : v.base.atCall w := by
      refine ⟨(h.act_eq hw).trans hcall.1, ?_⟩
      rw [h.base]
      exact hcall.2
    have hstep : v.step (.park w) =
        some { v with token := Function.update v.token w false } := by
      simp only [Parking.step, hcall, (h.tokens w hw).trans htoken, and_self, if_true]
    refine ⟨_, .tail (a := .park w) .refl trivial hstep, h.base, ?_, fun x hx => ?_, h.awaiters⟩
    · exact (Function.update_of_ne hw.symm _ _).trans h.token
    · exact update_agree (h.tokens x hx) w false

/-- The second run keeps pace with the first as long as the call of `block_on_cancel` goes on. -/
def KeepsPace (t : Thread q P) (r : R) (u v : Parking q P R) : Prop :=
  (u.base.task r).handle.isEnded = true ∧
    ∀ b, u.base.act t = .cancelling r b → Postponed t r u v

/-- **Run lemma.**  Whatever run leads the thread to the return of `block_on_cancel`, there is one
that differs only in that the thread is parked at its end, with its token set. -/
theorem leads {y : Parking q P R} (h : Postponed t r u v)
    (hended : (u.base.task r).handle.isEnded = true)
    (hl : (parking q P R).Leads Parking.Prompt u y) (hact : y.base.act t = .cancelling r parked) :
    ∃ v', (parking q P R).Leads Parking.Prompt v v' ∧ Postponed t r y v' := by
  suffices hpace : ∀ u e u' v, KeepsPace t r u v → Parking.Prompt u e →
      (parking q P R).step u e = some u' →
      ∃ v', (parking q P R).Leads Parking.Prompt v v' ∧ KeepsPace t r u' v' by
    obtain ⟨v', hv, -, hpost⟩ := hl.lift hpace ⟨hended, fun _ _ => h⟩
    exact ⟨v', hv, hpost _ hact⟩
  rintro u e u' v ⟨hended, hpost⟩ hprompt hstep
  have hm := Parking.Move.of_step hstep
  have hback : ∀ b, u'.base.act t = .cancelling r b →
      ∃ b', u.base.act t = .cancelling r b' := by
    intro b hb
    cases hm with
    | run htoken hs =>
      rcases (Move.of_step hs).cancelling_cases hb with hold | ⟨rfl, rfl, -⟩
      · exact hold
      · exact absurd rfl (not_drop_of_ended (.run htoken hs) hended)
    | _ => exact ⟨b, hb⟩
  have hended' := ended_kept hm hended
  by_cases hin : ∃ b, u'.base.act t = .cancelling r b
  · obtain ⟨b, hb⟩ := hin
    obtain ⟨b', hb'⟩ := hback b hb
    obtain ⟨v', hv, hpost'⟩ := (hpost b' hb').step hb' hm hprompt hb
    exact ⟨v', hv, hended', fun _ _ => hpost'⟩
  · exact ⟨v, .refl, hended', fun b hb => absurd ⟨b, hb⟩ hin⟩

/-- The parked thread takes its token and returns without it. -/
theorem returns {y y' : Parking q P R} (h : Postponed t r y v) (hreturns : y.Returns t r y') :
    ∃ z z', (parking q P R).Leads Parking.Prompt v z ∧ z.Returns t r z' ∧ z'.token t = false := by
  obtain ⟨hact, hstep⟩ := hreturns
  have hover : (v.base.task r).exec.isOver = true := by
    rw [h.base]
    cases Parking.Move.of_step hstep with
    | run htoken hs =>
      cases Move.of_step hs with
      | ready ha =>
        rw [hact] at ha
        cases ha
      | stopped ha he =>
        rw [hact] at ha
        cases ha
        exact he
  have hparked : v.base.act t = .cancelling r true := by
    rw [h.base]
    exact Function.update_self _ _ _
  have hpark : v.step (.run t .unpark) = some ⟨v.base.setAct t (.cancelling r false),
      v.tokens t .unpark, v.awaiters t .unpark⟩ := by
    rw [Parking.step, if_neg (by simp [h.token]), (Move.unpark hparked).step, Option.map_some]
  have hnext : (v.base.setAct t (.cancelling r false)).act t = .cancelling r false :=
    Function.update_self _ _ _
  obtain ⟨z', hreturn⟩ : ∃ z', Parking.step ⟨v.base.setAct t (.cancelling r false),
      v.tokens t .unpark, v.awaiters t .unpark⟩ (.run t (.attempt true)) = some z' := by
    rw [Parking.step, if_neg (by simp), (Move.stopped hnext hover).step, Option.map_some]
    exact ⟨_, rfl⟩
  have hlast : Parking.Returns _ t r z' := ⟨hnext, hreturn⟩
  refine ⟨_, z', .tail (a := .run t .unpark) .refl trivial hpark, hlast, ?_⟩
  rw [hlast.token_eq]
  simp only [Parking.tokens, if_true, Function.update_self]

/-- After an unpark that it does not heed, a thread can be parked with its token set. -/
theorem of_unpark (hact : p.base.act t = .cancelling r parked) (hlate : ¬ p.Heeds t)
    (hm : Parking.Move p (.unpark t) p') :
    ∃ v, (parking q P R).Leads Parking.Prompt p' v ∧ Postponed t r p' v := by
  cases hm with
  | unpark =>
    cases parked with
    | true =>
      refine ⟨_, .refl, ?_, Function.update_self _ _ _, fun _ _ => rfl, fun _ _ => rfl⟩
      simp only [State.setAct, ← hact, Function.update_eq_self]
    | false =>
      have hopen : (p.base.task r).exec.isOver = false := by
        refine Bool.eq_false_of_not_eq_true fun hover => hlate fun x hx => ?_
        rw [hact] at hx ⊢
        cases hx
        exact ⟨rfl, hover⟩
      have hstep : Parking.step { p with token := Function.update p.token t true }
          (.run t (.attempt false)) = some ⟨p.base.setAct t (.cancelling r true),
            Function.update p.token t true, Function.update p.awaiter r (some t)⟩ := by
        rw [Parking.step, if_neg (by simp), (Move.park hact).step, Option.map_some]
        simp only [Parking.tokens, Parking.awaiters, hact, reduceCtorEq, if_false]
      have hprompt : Parking.Prompt { p with token := Function.update p.token t true }
          (.run t (.attempt false)) := by
        intro x hx
        dsimp only at hx
        rw [hact] at hx
        cases hx
        exact hopen
      exact ⟨_, .tail .refl hprompt hstep, rfl, Function.update_self _ _ _, fun _ _ => rfl,
        fun x hx => Function.update_of_ne hx _ _⟩

end Postponed

end Postponed

/-! ## When a wake-up survives the drop -/

section Survives

variable [DecidableEq P] [DecidableEq R] {p p' : Parking q P R} {t : Thread q P} {r : R}
  {parked : Bool}

/-- An unpark that the thread heeds is kept until its `block_on_cancel` returns. -/
theorem survives_of_heeds [Fintype P] (hr : (parking q P R).Reachable p)
    (hact : p.base.act t = .cancelling r parked) (h : p.Heeds t)
    (hm : Parking.Move p (.unpark t) p') {y y' : Parking q P R}
    (hl : (parking q P R).Leads Parking.Prompt p' y) (hreturns : y.Returns t r y') :
    y'.token t = true := by
  have hsound := Sound.of_reachable (Parking.pool_reachable hr)
  have hended := ended_kept hm (hsound.cancelling t r parked hact).1
  have hkeeps : (y.base.task r).handle.isEnded = true ∧ Keeps y t r := by
    clear hreturns
    induction hl with
    | refl => exact ⟨hended, h.keeps hm⟩
    | @tail u v e _ hprompt hstep ih =>
      obtain ⟨hended, hkeeps⟩ := ih
      have hm := Parking.Move.of_step hstep
      exact ⟨ended_kept hm hended, hkeeps.step hm hprompt (not_drop_of_ended hm hended)⟩
  rw [hreturns.token_eq]
  exact (hkeeps.2 false hreturns.1).2.2

/-- **When a wake-up survives the drop.**  When no other party unparks a thread inside
`block_on_cancel` but after the runnable has stopped and while the thread is about to poll, its
token is set when the call returns, if another party has unparked it during the call.  Every other
unpark can be lost: there is a run from it in which the call returns with the token clear, unless
the call cannot return at all. -/
theorem wake_survives [Fintype P] :
    (∀ x t r p', (alarmed q P R).Reach (fun x e => x.1.Prompt e ∧ x.1.Timely e) x →
      x.1.Returns t r p' → x.2 t = true → p'.token t = true) ∧
    ∀ p t r parked p', (parking q P R).Reachable p → p.base.act t = .cancelling r parked →
      p.step (.unpark t) = some p' →
      (∃ y y', (parking q P R).Leads Parking.Prompt p' y ∧ y.Returns t r y') →
      ((∀ y y', (parking q P R).Leads Parking.Prompt p' y → y.Returns t r y' →
        y'.token t = true) ↔ p.Heeds t) := by
  constructor
  · intro x t r p' hr hreturns hx
    rw [hreturns.token_eq]
    exact (alarmed_kept hr t hx r false hreturns.1).2.2
  · intro p t r parked p' hr hact hstep ⟨y, y', hl, hreturns⟩
    have hm := Parking.Move.of_step hstep
    constructor
    · intro hall
      by_contra hlate
      obtain ⟨v, hv, hpost⟩ := Postponed.of_unpark hact hlate hm
      have hsound := Sound.of_reachable (Parking.pool_reachable hr)
      have hended := ended_kept hm (hsound.cancelling t r parked hact).1
      obtain ⟨w, hw, hpost⟩ := hpost.leads hended hl hreturns.1
      obtain ⟨z, z', hz, hlast, hclear⟩ := hpost.returns hreturns
      have hset := hall z z' ((hv.trans hw).trans hz) hlast
      rw [hclear] at hset
      cases hset
    · intro h y y' hl hreturns
      exact survives_of_heeds hr hact h hm hl hreturns

end Survives

/-! ## A foreign wake-up during a drop -/

/-- A run of the pool. -/
def Parking.runs (as : List (Thread q P × Choice q P R)) : List (Parking.Event q P R) :=
  as.map fun a => .run a.1 a.2

/-- A foreign thread polls a future once, drops it while the worker runs its closure, polls the
cancellation, which is pending, and parks. -/
def dropRun : List (Parking.Event solo Unit ℕ) :=
  Parking.runs ([(.inr (), .create 0), (.inr (), .poll 0 0 none)] ++ goes (.inr ()) 2 ++
    [(.inr (), .attempt false)] ++ goes solo.worker 3 ++
    [(solo.worker, .queue (.steal (.batch 1))), (solo.worker, .begin), (.inr (), .drop 0),
      (.inr (), .attempt false)])

/-- The closure returns, and its end wakes the thread. -/
def endRun : List (Parking.Event solo Unit ℕ) :=
  [.run solo.worker (.finish false), .wake 0, .run (.inr ()) .unpark]

/-- The state in which the thread is parked. -/
def asleep : Parking solo Unit ℕ :=
  (parking solo Unit ℕ).final (.start solo Unit ℕ) dropRun (by decide)

/-- Another party wakes the parked thread. -/
def jolted : Parking solo Unit ℕ :=
  { asleep with token := Function.update asleep.token (.inr ()) true }

/-- The thread polls again and parks, and then the closure returns. -/
def againRun : List (Parking.Event solo Unit ℕ) :=
  [.run (.inr ()) .unpark, .run (.inr ()) (.attempt false)] ++ endRun

/-- The same with the unparks of other parties on record. -/
def robbed : Parking solo Unit ℕ × (Thread solo Unit → Bool) :=
  (alarmed solo Unit ℕ).final (.start solo Unit ℕ, fun _ => false)
    (dropRun ++ .unpark (.inr ()) :: againRun) (by decide)

/-- Another party wakes the thread when the closure has returned and its end has woken it. -/
def woken : Parking solo Unit ℕ × (Thread solo Unit → Bool) :=
  (alarmed solo Unit ℕ).final (.start solo Unit ℕ, fun _ => false)
    (dropRun ++ endRun ++ [.unpark (.inr ())]) (by decide)

/-- The late wake-up is still there when `block_on_cancel` returns, and one of the parked thread
can be lost. -/
theorem wake_survives_woken :
    (∃ p', woken.1.Returns (.inr ()) 0 p' ∧ p'.token (.inr ()) = true) ∧
      ¬ ∀ y y', (parking solo Unit ℕ).Leads Parking.Prompt jolted y → y.Returns (.inr ()) 0 y' →
        y'.token (.inr ()) = true := by
  constructor
  · have hinit : (alarmed solo Unit ℕ).init (.start solo Unit ℕ, fun _ => false) := ⟨rfl, rfl⟩
    have hreach : (alarmed solo Unit ℕ).Reach (fun x e => x.1.Prompt e ∧ x.1.Timely e) woken :=
      .final hinit (by decide) _
    obtain ⟨p', hp⟩ := Option.isSome_iff_exists.mp
      (show (woken.1.step (.run (.inr ()) (.attempt true))).isSome by decide)
    have hreturns : woken.1.Returns (.inr ()) 0 p' := ⟨by decide, hp⟩
    exact ⟨p', hreturns, wake_survives.1 _ _ _ _ hreach hreturns (by decide)⟩
  · have hreach : (parking solo Unit ℕ).Reachable asleep := .final rfl _
    have hact : asleep.base.act (.inr ()) = .cancelling 0 true := by decide
    have hunpark : asleep.step (.unpark (.inr ())) = some jolted := rfl
    have hagain : (parking solo Unit ℕ).Leads Parking.Prompt jolted
        ((parking solo Unit ℕ).final jolted againRun (by decide)) :=
      .of_exec (by decide) (exec_final _ _ _)
    obtain ⟨y', hy⟩ := Option.isSome_iff_exists.mp
      (show (((parking solo Unit ℕ).final jolted againRun (by decide)).step
        (.run (.inr ()) (.attempt true))).isSome by decide)
    intro hall
    have hheeds := (wake_survives.2 _ _ _ _ _ hreach hact hunpark
      ⟨_, y', hagain, by decide, hy⟩).mp hall
    revert hheeds
    decide

/-- The foreign wake-up is gone when `block_on_cancel` returns. -/
theorem wake_swallowed :
    ¬ ∀ x t r p', (alarmed solo Unit ℕ).Reach (fun x e => x.1.Prompt e) x →
      x.1.Returns t r p' → x.2 t = true → p'.token t = true := by
  intro hall
  have hinit : (alarmed solo Unit ℕ).init (.start solo Unit ℕ, fun _ => false) := ⟨rfl, rfl⟩
  have hreach : (alarmed solo Unit ℕ).Reach (fun x e => x.1.Prompt e) robbed :=
    .final hinit (by decide) _
  have hstep : robbed.1.step (.run (.inr ()) (.attempt true)) = some
      ((robbed.1.step (.run (.inr ()) (.attempt true))).get (by decide)) :=
    (Option.some_get _).symm
  have hset := hall robbed (.inr ()) 0 _ hreach ⟨by decide, hstep⟩ (by decide)
  revert hset
  decide

end Local

end AffinityPool
