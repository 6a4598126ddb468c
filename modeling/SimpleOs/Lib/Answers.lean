import Mathlib

/-!
# Messages and answers

What has been sent may be received by anyone, at any later time, any number of times or never, and whoever
receives it may answer. If answers are not answered, there are never more of them than messages from
outside have been received.
-/

variable {M : Type}

structure Message (M : Type) where
  content : M
  isAnswer : Bool

/-- Everything that was sent, and how often a message from outside has been received. -/
structure Traffic (M : Type) where
  sent : List (Message M)
  received : Nat

namespace Traffic

def empty : Traffic M := ⟨[], 0⟩

def answered (s : Traffic M) : Nat := s.sent.countP (·.isAnswer)

/-- `answers m r` says that who receives `m` may react with `r`. -/
inductive Step (answers : M → Option M → Prop) : Traffic M → Traffic M → Prop where
  | outside (s : Traffic M) (m : M) : Step answers s ⟨s.sent ++ [⟨m, false⟩], s.received⟩
  | receive {s : Traffic M} {x : Message M} {r : Option M} (hx : x ∈ s.sent)
      (hr : answers x.content r) : Step answers s
        ⟨s.sent ++ (r.map fun a => ⟨a, true⟩).toList, s.received + (!x.isAnswer).toNat⟩

def Run (answers : M → Option M → Prop) : Traffic M → Traffic M → Prop :=
  Relation.ReflTransGen (Step answers)

/-- Every answer answers a message from outside. -/
structure Calm (answers : M → Option M → Prop) (s : Traffic M) : Prop where
  answered_le : s.answered ≤ s.received
  provoked : ∀ x ∈ s.sent, x.isAnswer = true →
    ∃ y ∈ s.sent, y.isAnswer = false ∧ answers y.content (some x.content)

variable {answers : M → Option M → Prop} {s s' : Traffic M}

theorem calm_empty : (empty : Traffic M).Calm answers :=
  ⟨le_rfl, fun _ hx => absurd hx List.not_mem_nil⟩

theorem answered_append (s : Traffic M) (new : List (Message M)) (n : Nat) :
    answered ⟨s.sent ++ new, n⟩ = s.answered + new.countP (·.isAnswer) := List.countP_append

/-- Messages that come with a message from outside, which provoked them. -/
theorem Calm.append (h : s.Calm answers) {new : List (Message M)} {n : Nat}
    (hcount : s.answered + new.countP (·.isAnswer) ≤ n)
    (hnew : ∀ x ∈ new, x.isAnswer = true →
      ∃ y ∈ s.sent, y.isAnswer = false ∧ answers y.content (some x.content)) :
    Calm answers ⟨s.sent ++ new, n⟩ where
  answered_le := (answered_append s new n).trans_le hcount
  provoked x hx hanswer := by
    obtain ⟨y, hy, hfirst⟩ : ∃ y ∈ s.sent, y.isAnswer = false ∧ answers y.content (some x.content) :=
      (List.mem_append.mp hx).elim (fun hold => h.provoked x hold hanswer) fun hx => hnew x hx hanswer
    exact ⟨y, List.mem_append_left new hy, hfirst⟩

theorem Calm.step (hquiet : ∀ m a r, answers m (some a) → answers a r → r = none)
    (h : s.Calm answers) (hstep : Step answers s s') : s'.Calm answers := by
  cases hstep with
  | outside m =>
      refine h.append h.answered_le fun x hx hanswer => ?_
      rw [List.mem_singleton.mp hx] at hanswer
      cases hanswer
  | @receive x r hx hr =>
      cases hanswer : x.isAnswer with
      | true =>
          obtain ⟨y, -, -, hprovoked⟩ := h.provoked x hx hanswer
          obtain rfl := hquiet _ _ _ hprovoked hr
          exact h.append h.answered_le fun x hx => absurd hx List.not_mem_nil
      | false =>
          cases r with
          | none =>
              exact h.append (h.answered_le.trans (Nat.le_succ _)) fun x hx => absurd hx List.not_mem_nil
          | some a =>
              refine h.append (Nat.succ_le_succ h.answered_le) fun z hz _ => ?_
              obtain rfl := List.mem_singleton.mp hz
              exact ⟨x, hx, hanswer, hr⟩

theorem Calm.run (hquiet : ∀ m a r, answers m (some a) → answers a r → r = none)
    (h : s.Calm answers) (hrun : Run answers s s') : s'.Calm answers := by
  induction hrun with
  | refl => exact h
  | tail _ hstep ih => exact ih.step hquiet hstep

end Traffic
