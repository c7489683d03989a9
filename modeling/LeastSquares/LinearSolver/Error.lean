import LeastSquares.Error.Kind
import LeastSquares.Fault
import LeastSquares.LinearSolver.Kind

/-!
# Errors of linear solvers

A linear solver fails for a cause that this module lists. Two kinds of
failure leave room for another attempt with a stronger regularizer: a
factorization that broke down and a singular matrix. Every other kind is
fatal, because the same request will fail again.

## Main definitions

* `LinearError` — the causes.
* `LinearError.message` — their text.
* `LinearError.isFatal` — whether another attempt is pointless.
-/

namespace LeastSquares

/-- Why a linear solver, or the step built on it, has no result. -/
inductive LinearError where
  /-- There are fewer equations than unknowns. -/
  | underdetermined (rows columns : Nat)
  /-- The first search direction shows that the operator is not positive. -/
  | nonPositiveCurvature
  /-- The diagonal block of an eliminated parameter block has no factor. -/
  | indefiniteBlock (block : Nat)
  /-- The solution has an entry that is not a number. -/
  | nonFiniteStep
  /-- No regularization made the Gauss-Newton step finite. -/
  | gaussNewtonNonFinite
  /-- No regularization made the Gauss-Newton system solvable; the argument
  is the last failure. -/
  | gaussNewtonFailed (last : LinearError)
  | singular
  | rightHandSide (entries rows : Nat)
  | regularizer (entries columns : Nat)
  | tooManyEliminated (eliminated columns : Nat)
  | schurSizes (rows columns rightHandSide regularizer : Nat)
  /-- A row block reads more than one eliminated block. -/
  | coupledRow (row blocks : Nat)
  | unsuitedPreconditioner (preconditioner : PreconditionerKind)
  | iterationBounds (min max : Nat)
  | eliminationGroups (kind : LinearSolverKind) (groups : Nat)
  | missingSparseLibrary (kind : LinearSolverKind) (library : SparseLibrary)
  | missingClustering (preconditioner : PreconditionerKind)
deriving DecidableEq, Repr

namespace LinearError

/-- The kind of a failure. -/
def kind : LinearError → ErrorKind
  | underdetermined .. | nonPositiveCurvature | indefiniteBlock .. | nonFiniteStep
  | gaussNewtonNonFinite | gaussNewtonFailed .. => .factorizationFailed
  | singular => .singularMatrix
  | rightHandSide .. | regularizer .. | tooManyEliminated .. | schurSizes .. =>
      .linearDimensionMismatch
  | coupledRow .. | unsuitedPreconditioner .. | iterationBounds .. | eliminationGroups .. =>
      .invalidConfiguration
  | missingSparseLibrary .. | missingClustering .. => .missingCapability

/-- The strongest regularization of a Gauss-Newton system, as it is written
when even that one failed. -/
def strongestRegularization : String := "1.000e0"

/-- What happened, in words. -/
def detail : LinearError → String
  | underdetermined rows columns =>
      s!"least squares system with {rows} rows and {columns} columns is underdetermined"
  | nonPositiveCurvature => "conjugate gradients found a direction of non-positive curvature"
  | indefiniteBlock block => s!"eliminated block {block} is not positive definite"
  | nonFiniteStep => "linear solver produced a non-finite step"
  | gaussNewtonNonFinite =>
      s!"Gauss-Newton step failed with mu up to {strongestRegularization}: " ++
        "non-finite Gauss-Newton step"
  | gaussNewtonFailed last =>
      s!"Gauss-Newton step failed with mu up to {strongestRegularization}: " ++
        last.kind.describe last.detail
  | singular => ""
  | rightHandSide entries rows =>
      s!"right hand side has {entries} entries, matrix has {rows} rows"
  | regularizer entries columns =>
      s!"regularizer has {entries} entries, system has {columns} columns"
  | tooManyEliminated eliminated columns =>
      s!"cannot eliminate {eliminated} of {columns} column blocks"
  | schurSizes rows columns rhs reg =>
      s!"system is {rows}x{columns}, right hand side has {rhs} entries and regularizer {reg}"
  | coupledRow row blocks => s!"row block {row} depends on {blocks} eliminated blocks"
  | unsuitedPreconditioner preconditioner =>
      "CGNR supports only IDENTITY and JACOBI preconditioners, got " ++ preconditioner.name
  | iterationBounds min max =>
      s!"linear solver iterations must satisfy 0 < min ({min}) <= max ({max})"
  | eliminationGroups kind groups =>
      kind.name ++ s!" needs at least two elimination groups, got {groups}"
  | missingSparseLibrary kind library =>
      kind.name ++ " requires a sparse linear algebra library, but " ++ library.name ++
        " was selected"
  | missingClustering preconditioner =>
      preconditioner.name ++ " preconditioner requires visibility based clustering, which this " ++
        "build does not provide"

/-- The text of a failure. -/
def message (e : LinearError) : String := e.kind.describe e.detail

/-- Whether another regularization of the same system cannot help. -/
def isFatal (e : LinearError) : Bool := e.kind.isFatal

end LinearError

end LeastSquares
