import LeastSquares.Minimizer.Callbacks
import LeastSquares.Minimizer.Termination

/-!
# What a minimization comes to

While it runs, a minimization keeps a history: its records, and counts of
what it did. When it stops it hands over the history with the reason and the
state it recommends.

## Main definitions

* `History` — records and counts.
* `MinimizerSummary` — the result of a minimization.
* `lowestCost?` — the lowest cost in a list of records.
* `MinimizerSummary.finalState` — the state that a run ends with.
-/

namespace LeastSquares

variable {α : Type} [Scalar α]

/-- Records and counts of a minimization. Times are in nanoseconds. -/
structure History (α : Type) [Scalar α] where
  /-- The records, the newest in front. -/
  newestFirst : List (IterationRecord α) := []
  successfulSteps : Nat := 0
  unsuccessfulSteps : Nat := 0
  innerSteps : Nat := 0
  linearSolverTime : Nat := 0
  innerTime : Nat := 0
  counts : EvaluationCounts

namespace History

/-- The records in order. -/
def records (h : History α) : List (IterationRecord α) := h.newestFirst.reverse

/-- The history with one more record. The record of the initial point is no
step. -/
def add (h : History α) (r : IterationRecord α) : History α :=
  { h with
    newestFirst := r :: h.newestFirst
    successfulSteps :=
      if r.successful && 0 < r.iteration then h.successfulSteps + 1 else h.successfulSteps
    unsuccessfulSteps := if r.successful then h.unsuccessfulSteps else h.unsuccessfulSteps + 1 }

end History

/-- The result of a minimization. -/
structure MinimizerSummary (α : Type) [Scalar α] where
  reason : Reason α
  history : History α
  /-- The state that the minimizer recommends. -/
  best : Vec α
  initialCost : α

/-- The lowest cost in a list of records, the first of equals. -/
def lowestCost? : List (IterationRecord α) → Option α
  | [] => none
  | r :: rest =>
      some (rest.foldl (fun lowest r => if Scalar.totalLe lowest r.cost then lowest else r.cost)
        r.cost)

namespace MinimizerSummary

/-- How the minimization ended. -/
def termination (s : MinimizerSummary α) : Termination := s.reason.termination

/-- The lowest cost on record. -/
def finalCost? (s : MinimizerSummary α) : Option α := lowestCost? s.history.records

/-- The state that a run from `x` ends with: the recommended one, unless the
run ended in a way that does not allow it. -/
def finalState (s : MinimizerSummary α) (x : Vec α) : Vec α :=
  if s.termination.writesBack then s.best else x

end MinimizerSummary

/-- Why a decision stops a minimizer, if it does. -/
def Decision.reason? : Decision → Option (Reason α)
  | .continue => none
  | .abort => some .userAbort
  | .succeed => some .userSuccess

/-- A minimizer in the middle of a run either stops or goes on. -/
inductive Progress (ρ τ : Type) where
  | stop (result : ρ)
  | next (state : τ)

end LeastSquares
