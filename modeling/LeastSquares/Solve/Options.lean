import LeastSquares.Named
import LeastSquares.Solve.Error

/-!
# Options of a solve

Everything that a caller can decide about a solve. The defaults suit bundle
adjustment problems of medium size. Options are checked once, before
anything else happens; the check names the first option that is wrong.

An option that has to be positive is refused if it is not a number, and so
is one that must not be negative. The limit of time is the exception: a
limit that is not a number never ends a solve.

## Main definitions

* `SolveOptions` — the options.
* `SolveOptions.validate` — the check.
* `SolveOptions.minimizer` — the part that concerns a minimizer.
-/

namespace LeastSquares

/-- How much is shown while a solve runs. -/
inductive LoggingKind where
  | silent
  | perIteration
deriving DecidableEq, Repr, Inhabited

namespace LoggingKind

/-- Both, in the order in which they are listed to users. -/
def all : List LoggingKind := [silent, perIteration]

/-- The name in options. -/
def name : LoggingKind → String
  | silent => "SILENT"
  | perIteration => "PER_MINIMIZER_ITERATION"

instance : Named LoggingKind := ⟨all, name⟩

end LoggingKind

/-- The options of a solve. -/
structure SolveOptions (α : Type) [Scalar α] where
  minimizerKind : MinimizerKind := .trustRegion
  direction : DirectionKind := .lbfgs
  maxLbfgsRank : Nat := 20
  strategy : StrategyKind := .levenbergMarquardt
  dogleg : DoglegKind := .traditional
  useNonmonotonicSteps : Bool := false
  maxNonmonotonicSteps : Nat := 5
  maxIterations : Nat := 50
  /-- In seconds. -/
  maxTime : α := 1e9
  threads : Nat := 1
  linearSolverThreads : Nat := 1
  initialRadius : α := 1e4
  maxRadius : α := 1e16
  minRadius : α := 1e-32
  minRelativeDecrease : α := 1e-3
  minDiagonal : α := 1e-6
  maxDiagonal : α := 1e32
  maxInvalidSteps : Nat := 5
  functionTolerance : α := 1e-6
  gradientTolerance : α := 1e-10
  parameterTolerance : α := 1e-8
  linearSolver : LinearSolverKind := .sparseNormalCholesky
  preconditioner : PreconditionerKind := .jacobi
  sparseLibrary : SparseLibrary := .provided
  /-- In which order to eliminate, none to leave that open. -/
  eliminationOrder : Option EliminationOrder := none
  useInnerIterations : Bool := false
  /-- The groups of inner iterations, none to leave them open. -/
  innerOrder : Option EliminationOrder := none
  innerTolerance : α := 1e-3
  minLinearIterations : Nat := 1
  maxLinearIterations : Nat := 500
  eta : α := 1e-1
  jacobiScaling : Bool := true
  logging : LoggingKind := .perIteration
  progressToStdout : Bool := false
  /-- Where to write a table of the iterations. -/
  logPath : Option String := none
  checkGradients : Bool := false
  gradientCheckPrecision : α := 1e-8
  gradientCheckStep : α := 1e-6
  /-- Whether accepted states are written into the problem at once. -/
  updateEveryIteration : Bool := false

namespace SolveOptions

variable {α : Type} [Scalar α]

/-! ## Changing several options at once -/

/-- Allows steps that raise the cost, this many in a row before the reference
moves. -/
def withNonmonotonicSteps (o : SolveOptions α) (limit : Nat) : SolveOptions α :=
  { o with useNonmonotonicSteps := true, maxNonmonotonicSteps := limit }

/-- Uses one number of threads for evaluation and linear solver. -/
def withThreads (o : SolveOptions α) (threads : Nat) : SolveOptions α :=
  { o with threads, linearSolverThreads := threads }

/-- Sets initial, largest and smallest trust region radius. -/
def withRadius (o : SolveOptions α) (initial max min : α) : SolveOptions α :=
  { o with initialRadius := initial, maxRadius := max, minRadius := min }

/-- Sets the bounds of the regularizing diagonal. -/
def withDiagonalBounds (o : SolveOptions α) (min max : α) : SolveOptions α :=
  { o with minDiagonal := min, maxDiagonal := max }

/-- Sets the bounds on the iterations of a linear solver. -/
def withLinearIterations (o : SolveOptions α) (min max : Nat) : SolveOptions α :=
  { o with minLinearIterations := min, maxLinearIterations := max }

/-- Turns inner iterations on. -/
def withInnerIterations (o : SolveOptions α) (order : Option EliminationOrder) :
    SolveOptions α :=
  { o with useInnerIterations := true, innerOrder := order }

/-- Turns gradient checking on. -/
def withGradientCheck (o : SolveOptions α) (precision step : α) : SolveOptions α :=
  { o with checkGradients := true, gradientCheckPrecision := precision, gradientCheckStep := step }

/-! ## The check -/

/-- Whether a value is neither positive nor zero. -/
def isNegative (a : α) : Bool := Scalar.isNaN a || a < 0

/-- Whether a value is not positive. -/
def isUnpositive (a : α) : Bool := Scalar.isNaN a || a ≤ 0

/-- The options that must not be negative, with their names. -/
def nonnegative (o : SolveOptions α) : List (String × α) :=
  [("function_tolerance", o.functionTolerance), ("gradient_tolerance", o.gradientTolerance),
    ("parameter_tolerance", o.parameterTolerance),
    ("inner_iteration_tolerance", o.innerTolerance),
    ("min_relative_decrease", o.minRelativeDecrease)]

/-- What is wrong with the options that only a trust region reads. -/
def trustRegionFlaw? (o : SolveOptions α) : Option (OptionsError α) :=
  if isUnpositive o.initialRadius then some (.initialRadius o.initialRadius)
  else if o.initialRadius < o.minRadius || o.maxRadius < o.initialRadius then
    some (.radii o.minRadius o.initialRadius o.maxRadius)
  else if isUnpositive o.minDiagonal || o.maxDiagonal < o.minDiagonal then
    some (.diagonalBounds o.minDiagonal o.maxDiagonal)
  else if isUnpositive o.eta then some (.eta o.eta)
  else none

/-- What is wrong with the options that only a line search reads. -/
def lineSearchFlaw? (o : SolveOptions α) : Option (OptionsError α) :=
  if o.direction = .lbfgs ∧ o.maxLbfgsRank = 0 then some .lbfgsRank else none

/-- What is wrong with the options of a gradient check that is asked for. -/
def gradientCheckFlaw? (o : SolveOptions α) : Option (OptionsError α) :=
  if o.checkGradients &&
      (isUnpositive o.gradientCheckPrecision || isUnpositive o.gradientCheckStep) then
    some (.gradientCheck o.gradientCheckPrecision o.gradientCheckStep)
  else none

/-- What is wrong with the options of one kind of minimizer. -/
def minimizerFlaw? (o : SolveOptions α) : Option (OptionsError α) :=
  match o.minimizerKind with
  | .trustRegion => o.trustRegionFlaw?
  | .lineSearch => o.lineSearchFlaw?

/-- What is wrong with the options, the first flaw if there are several. -/
def flaw? (o : SolveOptions α) : Option (OptionsError α) :=
  if o.maxTime < 0 then some (.maxTime o.maxTime)
  else if o.threads = 0 ∨ o.linearSolverThreads = 0 then
    some (.threads o.threads o.linearSolverThreads)
  else
    match o.nonnegative.find? fun p => isNegative p.2 with
    | some (name, value) => some (.negative name value)
    | none => o.minimizerFlaw?.or o.gradientCheckFlaw?

/-- Checks ranges and relations of the options. -/
def validate (o : SolveOptions α) : Except (OptionsError α) Unit :=
  match o.flaw? with
  | some e => .error e
  | none => .ok ()

/-! ## Parts -/

/-- The options that a minimizer reads. -/
def minimizer (o : SolveOptions α) : MinimizerOptions α :=
  { maxIterations := o.maxIterations
    maxTime := o.maxTime
    functionTolerance := o.functionTolerance
    gradientTolerance := o.gradientTolerance
    parameterTolerance := o.parameterTolerance
    strategy := o.strategy
    dogleg := o.dogleg
    initialRadius := o.initialRadius
    maxRadius := o.maxRadius
    minRadius := o.minRadius
    minRelativeDecrease := o.minRelativeDecrease
    minDiagonal := o.minDiagonal
    maxDiagonal := o.maxDiagonal
    jacobiScaling := o.jacobiScaling
    useNonmonotonicSteps := o.useNonmonotonicSteps
    maxNonmonotonicSteps := o.maxNonmonotonicSteps
    maxInvalidSteps := o.maxInvalidSteps
    eta := o.eta
    innerTolerance := o.innerTolerance
    direction := o.direction
    maxLbfgsRank := o.maxLbfgsRank }

/-- The gradient check, if one is asked for. -/
def gradientCheck? (o : SolveOptions α) : Option (GradientCheck α) :=
  if o.checkGradients then some ⟨o.gradientCheckStep, o.gradientCheckPrecision⟩ else none

end SolveOptions

end LeastSquares
