import LeastSquares.Scalar

/-!
# Accepting steps

A step is judged by the decrease it achieves as a part of the decrease the
linear model predicted. The decrease is measured from the current cost and
also from a reference cost, with the model's predictions added up since the
reference was taken, and the better of the two counts. The reference is
moved when a number of steps in a row have brought no new minimum, so the
cost may rise for some steps as long as it falls in the long run. With that
number zero the reference is always the current cost.

## Main definitions

* `StepAcceptance` — the costs that a step is judged by.
* `StepAcceptance.quality` — the judgement.
* `StepAcceptance.accept` — the costs after an accepted step.
-/

namespace LeastSquares

/-- The costs that a step is judged by. -/
structure StepAcceptance (α : Type) where
  reference : α
  minimum : α
  current : α
  /-- The highest cost since the last minimum, the next reference. -/
  candidate : α
  /-- Predicted decrease since the reference was taken. -/
  referenceChange : α
  /-- Predicted decrease since the candidate was taken. -/
  candidateChange : α
  /-- Accepted steps since the last minimum. -/
  nonmonotonic : Nat
  /-- The number of such steps at which the reference is moved. -/
  limit : Nat
deriving Repr

namespace StepAcceptance

variable {α : Type} [Scalar α]

/-- At the initial cost. -/
def new (cost : α) (limit : Nat) : StepAcceptance α :=
  ⟨cost, cost, cost, cost, 0, 0, 0, limit⟩

/-- The quality of a step to a cost, with the predicted decrease. A step to
no usable cost has the lowest quality there is. -/
def quality (s : StepAcceptance α) (cost : Option α) (modelChange : α) : α :=
  match cost with
  | none => Scalar.lowest
  | some cost =>
      if Scalar.isFinite cost then
        Scalar.max ((s.current - cost) / modelChange)
          ((s.reference - cost) / (s.referenceChange + modelChange))
      else Scalar.lowest

/-- The costs once a step is taken, before the reference is looked at. -/
def take (s : StepAcceptance α) (cost modelChange : α) : StepAcceptance α :=
  let s :=
    { s with
      current := cost
      candidateChange := s.candidateChange + modelChange
      referenceChange := s.referenceChange + modelChange }
  if cost < s.minimum then
    { s with minimum := cost, nonmonotonic := 0, candidate := cost, candidateChange := 0 }
  else if s.candidate < cost then
    { s with nonmonotonic := s.nonmonotonic + 1, candidate := cost, candidateChange := 0 }
  else { s with nonmonotonic := s.nonmonotonic + 1 }

/-- The costs after an accepted step. -/
def accept (s : StepAcceptance α) (cost modelChange : α) : StepAcceptance α :=
  let s := s.take cost modelChange
  if s.nonmonotonic = s.limit then
    { s with reference := s.candidate, referenceChange := s.candidateChange }
  else s

end StepAcceptance

end LeastSquares
