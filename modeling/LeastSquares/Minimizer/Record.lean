import LeastSquares.Decimal.Text
import LeastSquares.Minimizer.Options

/-!
# Records of iterations

A minimizer keeps one record per iteration, the first for the initial point.
A record is also a line of a table, which has other columns for a trust
region than for a line search. Numbers are set to the right edge of their
columns, two blanks apart; times are in milliseconds.

## Main definitions

* `IterationRecord` — the record.
* `IterationRecord.header`, `IterationRecord.row` — the table.
-/

namespace LeastSquares

/-- What is known about an iteration. Times are in nanoseconds. -/
structure IterationRecord (α : Type) [Scalar α] where
  iteration : Nat := 0
  /-- The step was finite and promised a decrease. -/
  valid : Bool := false
  /-- The step was accepted although it raised the cost. -/
  nonmonotonic : Bool := false
  /-- The step was accepted. -/
  successful : Bool := false
  cost : α := 0
  /-- Decrease of the cost by the step. -/
  costChange : α := 0
  gradientMaxNorm : α := 0
  gradientNorm : α := 0
  stepNorm : α := 0
  /-- The decrease achieved, as a part of the decrease predicted. -/
  relativeDecrease : α := 0
  radius : α := 0
  stepSize : α := 0
  lineSearchEvaluations : Nat := 0
  linearIterations : Nat := 0
  iterationTime : Nat := 0
  cumulativeTime : Nat := 0

namespace IterationRecord

/-- Texts as columns of the given widths. -/
def columns (cells : List (Nat × String)) : String :=
  String.intercalate "  " (cells.map fun (width, text) => Decimal.padLeft width text)

/-- The head of the table of a minimizer. -/
def header : MinimizerKind → String
  | .trustRegion =>
      columns [(4, "iter"), (13, "cost"), (11, "cost_change"), (11, "|gradient|"), (11, "|step|"),
        (11, "tr_ratio"), (11, "tr_radius"), (7, "ls_iter"), (11, "iter_time"),
        (11, "total_time")]
  | .lineSearch =>
      columns [(4, "iter"), (13, "cost"), (11, "cost_change"), (11, "|gradient|"), (11, "|step|"),
        (11, "step_size"), (7, "ls_eval"), (11, "iter_time"), (11, "total_time")]

variable {α : Type} [Scalar α] [ScalarText α]

/-- A time in its column. -/
def timeCell (nanoseconds : Nat) : Nat × String :=
  (11, Decimal.padLeft 9 (Decimal.milliseconds 2 nanoseconds) ++ "ms")

/-- A number in a column of two digits after the point. -/
def shortCell (a : α) : Nat × String := (11, ScalarText.scientific 2 a)

/-- The columns that all tables share. -/
def leading (r : IterationRecord α) : List (Nat × String) :=
  [(4, toString r.iteration), (13, ScalarText.scientific 6 r.cost), shortCell r.costChange,
    shortCell r.gradientMaxNorm, shortCell r.stepNorm]

/-- The line of a record in the table of a minimizer. -/
def row (r : IterationRecord α) : MinimizerKind → String
  | .trustRegion =>
      columns (r.leading ++ [shortCell r.relativeDecrease, shortCell r.radius,
        (7, toString r.linearIterations), timeCell r.iterationTime, timeCell r.cumulativeTime])
  | .lineSearch =>
      columns (r.leading ++ [shortCell r.stepSize, (7, toString r.lineSearchEvaluations),
        timeCell r.iterationTime, timeCell r.cumulativeTime])

/-- The lines that a record adds to a table. The first record brings the
head. -/
def lines (r : IterationRecord α) (kind : MinimizerKind) : List String :=
  if r.iteration = 0 then [header kind, r.row kind] else [r.row kind]

end IterationRecord

end LeastSquares
