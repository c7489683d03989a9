import LeastSquares.Named

/-!
# Kinds of errors

An error that the library reports has a kind and a detail. The kind tells a
program what to do about it, the detail tells a person what happened, and
the two together make the text. Each part of the library states its own
causes; this module holds the kinds that all of them share.

## Main definitions

* `ErrorKind` — the kinds.
* `ErrorKind.name` — the names of the kinds.
* `ErrorKind.describe` — the text of an error of a kind with a detail.
-/

namespace LeastSquares

/-- The kinds of reported errors. -/
inductive ErrorKind where
  /-- A parameter block handle is stale, unknown or misused. -/
  | parameterBlock
  /-- A residual block could not be built or found. -/
  | residualBlock
  /-- A cost function gave no usable values. -/
  | evaluation
  /-- An ordering does not fit what it is applied to. -/
  | ordering
  /-- Sizes of blocks, manifolds, costs or states disagree. -/
  | dimensionMismatch
  /-- A loss function got an unusable parameter. -/
  | lossFunction
  /-- An argument is out of range. -/
  | invalidInput
  /-- A matrix could not be factored. -/
  | factorizationFailed
  /-- A matrix is singular. -/
  | singularMatrix
  /-- A sparse matrix could not be built. -/
  | sparseMatrixCreation
  /-- A matrix could not be brought into another form. -/
  | matrixConversion
  /-- Sizes of matrices and vectors disagree. -/
  | linearDimensionMismatch
  /-- The options of a linear solver contradict each other. -/
  | invalidConfiguration
  /-- A requested backend or preconditioner does not exist. -/
  | missingCapability
  /-- The options of a minimizer are unusable. -/
  | minimizerParameters
  /-- An ordering cannot drive inner iterations. -/
  | innerIterationOrdering
  /-- A minimizer passes on an error of linear algebra. -/
  | minimizerLinear
  /-- A minimizer passes on an error of the problem. -/
  | minimizerProblem
  /-- The log file could not be opened. -/
  | logFileOpen
  /-- The options of a solve are unusable. -/
  | invalidOptions
deriving DecidableEq, Repr

namespace ErrorKind

/-- All kinds. -/
def all : List ErrorKind :=
  [parameterBlock, residualBlock, evaluation, ordering, dimensionMismatch, lossFunction,
    invalidInput, factorizationFailed, singularMatrix, sparseMatrixCreation, matrixConversion,
    linearDimensionMismatch, invalidConfiguration, missingCapability, minimizerParameters,
    innerIterationOrdering, minimizerLinear, minimizerProblem, logFileOpen, invalidOptions]

/-- The name of a kind, for programs. -/
def name : ErrorKind → String
  | parameterBlock => "ParameterBlock"
  | residualBlock => "ResidualBlock"
  | evaluation => "Evaluation"
  | ordering => "Ordering"
  | dimensionMismatch => "DimensionMismatch"
  | lossFunction => "LossFunction"
  | invalidInput => "InvalidInput"
  | factorizationFailed => "FactorizationFailed"
  | singularMatrix => "SingularMatrix"
  | sparseMatrixCreation => "SparseMatrixCreation"
  | matrixConversion => "MatrixConversion"
  | linearDimensionMismatch => "LinearDimensionMismatch"
  | invalidConfiguration => "InvalidConfiguration"
  | missingCapability => "MissingCapability"
  | minimizerParameters => "MinimizerParameters"
  | innerIterationOrdering => "InnerIterationOrdering"
  | minimizerLinear => "MinimizerLinear"
  | minimizerProblem => "MinimizerProblem"
  | logFileOpen => "LogFileOpen"
  | invalidOptions => "InvalidOptions"

/-- The words in front of the detail. A singular matrix needs no detail. -/
def heading : ErrorKind → String
  | parameterBlock => "Parameter block error: "
  | residualBlock => "Residual block error: "
  | evaluation => "Evaluation failed: "
  | ordering => "Invalid ordering: "
  | dimensionMismatch => "Dimension mismatch: "
  | lossFunction => "Loss function error: "
  | invalidInput => "Invalid input: "
  | factorizationFailed => "Matrix factorization failed: "
  | singularMatrix => "Singular matrix detected (matrix is not invertible)"
  | sparseMatrixCreation => "Failed to create sparse matrix: "
  | matrixConversion => "Matrix conversion failed: "
  | linearDimensionMismatch => "Dimension mismatch: "
  | invalidConfiguration => "Invalid linear solver configuration: "
  | missingCapability => "Missing capability: "
  | minimizerParameters => "Invalid optimization parameters: "
  | innerIterationOrdering => "Invalid inner iteration ordering: "
  | minimizerLinear => "Linear algebra error: "
  | minimizerProblem => "Problem error: "
  | logFileOpen => "Failed to open solver log "
  | invalidOptions => "Invalid solver options: "

/-- The text of an error. -/
def describe (kind : ErrorKind) (detail : String) : String :=
  match kind with
  | singularMatrix => kind.heading
  | _ => kind.heading ++ detail

/-- Whether another regularization of the same system cannot help. Only a
failed factorization and a singular matrix can be helped. -/
def isFatal : ErrorKind → Bool
  | factorizationFailed => false
  | singularMatrix => false
  | _ => true

instance : Named ErrorKind := ⟨all, name⟩

end ErrorKind

/-- The detail of a log file that could not be opened. -/
def logFileDetail (path reason : String) : String := s!"'{path}': {reason}"

/-- An error that a minimizer passes on: its own text, which repeats that of
the error behind it, and the text of the error behind it. -/
def passedOn (outer inner : ErrorKind) (detail : String) : List String :=
  [outer.describe (inner.describe detail), inner.describe detail]

/-- An error's text followed by the text of the error behind it, and so on,
one to a line. -/
def chainText (links : List String) : String := String.intercalate "\n  → " links

/-- The same on one line. -/
def compactText (links : List String) : String := String.intercalate " → " links

end LeastSquares
