import LeastSquares.Solve.Options

/-!
# Summaries

A solve always returns a summary, also if it was turned down. The summary
holds what was asked for and what was used, the sizes of the problem before
and after reduction, costs, counts and times. Costs are minus one until they
are known.

## Main definitions

* `SolveSummary` — the summary.
* `SolveSummary.brief` — the summary on one line.
* `SolveSummary.report` — the summary in full.
-/

namespace LeastSquares

/-- Numbers of blocks and coordinates. -/
structure ProblemSize where
  blocks : Nat := 0
  parameters : Nat := 0
  effectiveParameters : Nat := 0
  residualBlocks : Nat := 0
  residuals : Nat := 0
deriving DecidableEq, Repr, Inhabited

/-- What a solve has to say for itself. Times are in nanoseconds. -/
structure SolveSummary (α : Type) [Scalar α] where
  minimizerKind : MinimizerKind
  strategy : StrategyKind
  dogleg : DoglegKind
  direction : DirectionKind
  sparseLibrary : SparseLibrary
  linearSolverGiven : LinearSolverKind
  linearSolverUsed : LinearSolverKind
  preconditionerGiven : PreconditionerKind
  preconditionerUsed : PreconditionerKind
  threadsGiven : Nat
  threadsUsed : Nat
  linearSolverThreadsGiven : Nat
  linearSolverThreadsUsed : Nat
  /-- Sizes of the groups of the caller's order, none if there was no order. -/
  orderGiven : List Nat
  orderUsed : List Nat := []
  innerGiven : Bool
  innerUsed : Bool := false
  innerOrderGiven : List Nat
  innerOrderUsed : List Nat := []
  full : ProblemSize := {}
  reduced : ProblemSize := {}
  initialCost : α := -1
  finalCost : α := -1
  /-- Cost of the residual blocks that read constant blocks only. -/
  fixedCost : α := 0
  records : List (IterationRecord α) := []
  successfulSteps : Nat := 0
  unsuccessfulSteps : Nat := 0
  innerSteps : Nat := 0
  counts : EvaluationCounts := {}
  preprocessorTime : Nat := 0
  minimizerTime : Nat := 0
  postprocessorTime : Nat := 0
  totalTime : Nat := 0
  linearSolverTime : Nat := 0
  innerTime : Nat := 0
  /-- Number of Jacobian blocks that failed a gradient check. -/
  mismatches : Nat := 0
  termination : Termination := .didNotRun
  message : String := ""
  /-- Why the solve was turned down, if it was. -/
  error : Option String := none

namespace SolveSummary

variable {α : Type} [Scalar α]

/-- The sizes of the groups of an order, if there is one. -/
def groupSizes (o : Option EliminationOrder) : List Nat :=
  match o with
  | some o => o.groupSizes
  | none => []

/-- The summary of a solve that has only been asked for. -/
def ofOptions (o : SolveOptions α) : SolveSummary α :=
  { minimizerKind := o.minimizerKind
    strategy := o.strategy
    dogleg := o.dogleg
    direction := o.direction
    sparseLibrary := o.sparseLibrary
    linearSolverGiven := o.linearSolver
    linearSolverUsed := o.linearSolver
    preconditionerGiven := o.preconditioner
    preconditionerUsed := o.preconditioner
    threadsGiven := o.threads
    threadsUsed := o.threads
    linearSolverThreadsGiven := o.linearSolverThreads
    linearSolverThreadsUsed := o.linearSolverThreads
    orderGiven := groupSizes o.eliminationOrder
    innerGiven := o.useInnerIterations
    innerOrderGiven := groupSizes o.innerOrder }

/-- Whether the problem holds a solution that can be used. -/
def isUsable (s : SolveSummary α) : Bool := s.error.isNone && s.termination.isUsable

/-- Number of iterations; the record of the initial point is none. -/
def numIterations (s : SolveSummary α) : Nat := s.records.length - 1

variable [ScalarText α]

/-- The summary on one line. -/
def brief (s : SolveSummary α) : String :=
  match s.error with
  | some e => "lsq-solver report: Error: " ++ e
  | none =>
      s!"lsq-solver report: Iterations: {s.numIterations}, Initial cost: " ++
        ScalarText.exponential s.initialCost ++ ", Final cost: " ++
        ScalarText.exponential s.finalCost ++ ", Termination: " ++ s.termination.name

/-! ## The report -/

/-- A line of three columns, the second and third of a width. -/
def tableLine (width : Nat) (label left right : String) : String :=
  Decimal.padRight 26 label ++ Decimal.padLeft width left ++ Decimal.padLeft width right

/-- A line that compares sizes. -/
def sizeLine (label : String) (full reduced : Nat) : String :=
  tableLine 14 label (toString full) (toString reduced)

/-- A line that compares what was given with what was used. -/
def usageLine (label given used : String) : String := tableLine 24 label given used

/-- A line of a label and a value. -/
def labelLine (label value : String) : String := Decimal.padRight 26 label ++ value

/-- Group sizes in words. -/
def groupText (sizes : List Nat) : String :=
  if sizes.isEmpty then "AUTOMATIC" else String.intercalate "," (sizes.map toString)

/-- A flag in words. -/
def flagText (flag : Bool) : String := if flag then "True" else "False"

/-- The lines on sizes. -/
def sizeLines (s : SolveSummary α) : List String :=
  [tableLine 14 "" "Original" "Reduced",
    sizeLine "Parameter blocks" s.full.blocks s.reduced.blocks,
    sizeLine "Parameters" s.full.parameters s.reduced.parameters] ++
  (if s.full.effectiveParameters ≠ s.full.parameters then
    [sizeLine "Effective parameters" s.full.effectiveParameters s.reduced.effectiveParameters]
  else []) ++
  [sizeLine "Residual blocks" s.full.residualBlocks s.reduced.residualBlocks,
    sizeLine "Residuals" s.full.residuals s.reduced.residuals]

/-- The lines on the minimizer. -/
def minimizerLines (s : SolveSummary α) : List String :=
  labelLine "Minimizer" s.minimizerKind.name ::
    match s.minimizerKind with
    | .trustRegion =>
        labelLine "Trust region strategy" s.strategy.label ::
          (match s.strategy with
          | .dogleg => [labelLine "Dogleg" s.dogleg.label]
          | .levenbergMarquardt => [])
    | .lineSearch => [labelLine "Line search direction" s.direction.label]

/-- The lines on what was given and what was used. -/
def usageLines (s : SolveSummary α) : List String :=
  [usageLine "" "Given" "Used",
    usageLine "Linear solver" s.linearSolverGiven.name s.linearSolverUsed.name] ++
  (if s.linearSolverGiven.isIterative || s.linearSolverUsed.isIterative then
    [usageLine "Preconditioner" s.preconditionerGiven.name s.preconditionerUsed.name]
  else []) ++
  [usageLine "Sparse linear algebra" s.sparseLibrary.name s.sparseLibrary.name,
    usageLine "Threads" (toString s.threadsGiven) (toString s.threadsUsed),
    usageLine "Linear solver threads" (toString s.linearSolverThreadsGiven)
      (toString s.linearSolverThreadsUsed),
    usageLine "Linear solver ordering" (groupText s.orderGiven) (groupText s.orderUsed)] ++
  (if s.innerGiven then
    [usageLine "Inner iterations" "True" (flagText s.innerUsed),
      usageLine "Inner iteration ordering" (groupText s.innerOrderGiven)
        (groupText s.innerOrderUsed)]
  else [])

/-- The lines on costs. -/
def costLines (s : SolveSummary α) : List String :=
  ["Cost:",
    "  Initial:   " ++ ScalarText.scientific 6 s.initialCost,
    "  Final:     " ++ ScalarText.scientific 6 s.finalCost,
    "  Change:    " ++ ScalarText.scientific 6 (s.initialCost - s.finalCost)] ++
  (if 0 < s.fixedCost then ["  Fixed:     " ++ ScalarText.scientific 6 s.fixedCost] else [])

/-- The lines on iterations. -/
def iterationLines (s : SolveSummary α) : List String :=
  ["Iterations:",
    s!"  Minimizer:          {s.numIterations}",
    s!"  Successful steps:   {s.successfulSteps}",
    s!"  Unsuccessful steps: {s.unsuccessfulSteps}"] ++
  (if s.innerUsed then [s!"  Inner iteration steps: {s.innerSteps}"] else [])

/-- The lines on times. -/
def timeLines (s : SolveSummary α) : List String :=
  ["Time (in seconds):",
    "  Preprocessor:        " ++ Decimal.seconds 6 s.preprocessorTime,
    "  Residual evaluation: " ++ Decimal.seconds 6 s.counts.residualTime ++
      s!" ({s.counts.residual} evaluations)",
    "  Jacobian evaluation: " ++ Decimal.seconds 6 s.counts.jacobianTime ++
      s!" ({s.counts.jacobian} evaluations)",
    "  Linear solver:       " ++ Decimal.seconds 6 s.linearSolverTime] ++
  (if s.innerUsed then ["  Inner iterations:    " ++ Decimal.seconds 6 s.innerTime] else []) ++
  ["  Minimizer:           " ++ Decimal.seconds 6 s.minimizerTime,
    "  Postprocessor:       " ++ Decimal.seconds 6 s.postprocessorTime,
    "  Total:               " ++ Decimal.seconds 6 s.totalTime]

/-- The lines on how the solve ended. -/
def endLines (s : SolveSummary α) : List String :=
  (if 0 < s.mismatches then [s!"Gradient check mismatches: {s.mismatches}"] else []) ++
  ["Termination: " ++ s.termination.name ++ " (" ++ s.message ++ ")"]

/-- The lines of the report. A solve that was turned down has nothing to say
after the error. -/
def reportLines (s : SolveSummary α) : List String :=
  ["Solver Summary", ""] ++ s.sizeLines ++ [""] ++ s.minimizerLines ++ [""] ++ s.usageLines ++
    [""] ++
    match s.error with
    | some e => ["Error: " ++ e, ""]
    | none =>
        s.costLines ++ [""] ++ s.iterationLines ++ [""] ++ s.timeLines ++ [""] ++ s.endLines

/-- The report. -/
def report (s : SolveSummary α) : String := String.intercalate "\n" s.reportLines

end SolveSummary

end LeastSquares
