import PdmaXen.Machine

/-!
# First in, first out

A sequence that is pushed at its end, popped at its front and emptied at once, with
the history of the pushes and pops since it was last emptied.
-/

namespace PdmaXen.Fifo
set_option autoImplicit false
open Machine

universe u
variable {α : Type u}

inductive Call (α : Type u) where
  | init
  | push (a : α)
  | pop

/-- What waits; what was pushed and popped since the last `init`; the answer of every pop,
none where nothing waited. -/
structure State (α : Type u) where
  waiting : List α := []
  pushed : List α := []
  popped : List α := []
  answers : List (Option α) := []

def State.step (s : State α) : Call α → Option (State α)
  | .init => some { s with waiting := [], pushed := [], popped := [] }
  | .push a => some { s with waiting := s.waiting ++ [a], pushed := s.pushed ++ [a] }
  | .pop =>
    some { s with
      waiting := s.waiting.tail
      popped := s.popped ++ s.waiting.head?.toList
      answers := s.answers ++ [s.waiting.head?] }

/-- What is pushed does not wait already. -/
def Fresh (s : State α) : Call α → Prop
  | .push a => a ∉ s.waiting
  | _ => True

instance [DecidableEq α] (s : State α) (c : Call α) : Decidable (Fresh s c) := by
  cases c <;> unfold Fresh <;> infer_instance

namespace State
variable {s t : State α} {c : Call α} {calls : List (Call α)}

/-- What was pushed is what was popped, in that order, and what still waits. -/
def Conserved (s : State α) : Prop := s.pushed = s.popped ++ s.waiting

theorem Conserved.step (h : s.Conserved) (hstep : s.step c = some t) : t.Conserved := by
  cases c with
  | init =>
    cases hstep
    rfl
  | push a =>
    cases hstep
    simp only [Conserved] at h ⊢
    rw [h, List.append_assoc]
  | pop =>
    cases hstep
    simp only [Conserved] at h ⊢
    rw [h]
    cases s.waiting with
    | nil => simp
    | cons a rest => simp

theorem conserved (hrun : exec step {} calls = some t) : t.Conserved :=
  invariant (fun h hstep => h.step hstep) (s := ({} : State α)) rfl hrun

theorem Conserved.waiting_eq_nil (h : s.Conserved) : s.waiting = [] ↔ s.popped = s.pushed := by
  rw [h]
  constructor
  · intro hnil
    rw [hnil, List.append_nil]
  · intro heq
    exact List.append_right_eq_self.mp heq.symm

end State

end PdmaXen.Fifo
