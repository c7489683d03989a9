import LeastSquares.Cost.Manifold
import LeastSquares.Error.Kind
import LeastSquares.LinearSolver.Kind
import LeastSquares.Problem.Handle

/-!
# Errors of the problem

Everything that building, reading or reducing a problem can report. Each
cause holds what its text needs and nothing else.

## Main definitions

* `ModelError` — the causes.
* `ModelError.kind`, `ModelError.detail` — kind and words of a cause.
-/

namespace LeastSquares

/-- Why an operation on a problem, a program or an ordering has no result. -/
inductive ModelError where
  | unknownBlock (id : BlockId)
  | unknownResidual (id : ResidualId)
  /-- A cost function was given another number of blocks than it reads. -/
  | blockCount (expected given : Nat)
  | repeatedBlock (id : BlockId)
  | blockSize (id : BlockId) (size expected : Nat)
  | valueCount (id : BlockId) (size given : Nat)
  | manifoldSize (ambient : Nat) (id : BlockId) (size : Nat)
  | stateSize (entries parameters : Nat)
  | subset (e : SubsetError)
  /-- A residual block gave no usable values at the current point. -/
  | evaluationFailed (id : ResidualId)
  /-- The same while the cost of constant residual blocks was added up; the
  argument is the position of the block in its program. -/
  | fixedCostFailed (position : Nat)
  /-- A row of a Jacobian reads more than one eliminated block. -/
  | coupledRow (row : Nat)
  /-- A row of a Jacobian stands where elimination does not expect it. -/
  | misplacedRow (row : Nat)
  | emptyProblem (blocks residuals : Nat)
  | foreignMember (group : Nat) (id : BlockId)
  | foreignInnerMember (group : Nat) (id : BlockId)
  | orderingCoverage (elements blocks : Nat)
  | dependentFirstGroup (kind : LinearSolverKind) (group : Nat)
  | orderingSize (elements blocks : Nat)
  | notInProgram (id : BlockId) (group : Nat)
deriving DecidableEq, Repr

namespace ModelError

/-- The kind of a cause. -/
def kind : ModelError → ErrorKind
  | unknownBlock .. => .parameterBlock
  | unknownResidual .. | blockCount .. | repeatedBlock .. => .residualBlock
  | blockSize .. | valueCount .. | manifoldSize .. | stateSize .. => .dimensionMismatch
  | subset .. | coupledRow .. | misplacedRow .. | emptyProblem .. => .invalidInput
  | evaluationFailed .. | fixedCostFailed .. => .evaluation
  | foreignMember .. | foreignInnerMember .. | orderingCoverage .. | dependentFirstGroup ..
  | orderingSize .. | notInProgram .. => .ordering

/-- What happened, in words. -/
def detail : ModelError → String
  | unknownBlock id => s!"stale or unknown parameter block {id.name}"
  | unknownResidual id => s!"unknown residual block {id.name}"
  | blockCount expected given =>
      s!"cost function expects {expected} parameter blocks, {given} given"
  | repeatedBlock id => s!"parameter block {id.name} appears more than once in a residual block"
  | blockSize id size expected =>
      s!"parameter block {id.name} has size {size} but the cost function expects {expected}"
  | valueCount id size given => s!"parameter block {id.name} has size {size}, {given} values given"
  | manifoldSize ambient id size =>
      s!"manifold ambient size {ambient} does not match parameter block {id.name} of size {size}"
  | stateSize entries parameters =>
      s!"state vector has {entries} entries, program has {parameters} parameters"
  | subset e => e.detail
  | evaluationFailed id => s!"cost function of residual block {id.name} failed"
  | fixedCostFailed position =>
      s!"residual block {position} failed to evaluate while computing the fixed cost"
  | coupledRow row => s!"residual block {row} depends on more than one eliminated parameter block"
  | misplacedRow row => s!"residual block {row} is out of order for Schur elimination"
  | emptyProblem blocks residuals =>
      s!"problem is empty: {blocks} parameter blocks, {residuals} residual blocks"
  | foreignMember group id =>
      s!"group {group} contains parameter block {id.name}, which is not part of the problem"
  | foreignInnerMember group id =>
      s!"inner iteration group {group} contains parameter block {id.name}, " ++
        "which is not part of the problem"
  | orderingCoverage elements blocks =>
      s!"ordering has {elements} parameter blocks but the problem has {blocks}"
  | dependentFirstGroup solver group =>
      s!"{solver.name} needs the first elimination group to be an independent set, " ++
        s!"but group {group} is not"
  | orderingSize elements blocks =>
      s!"ordering has {elements} parameter blocks but the program has {blocks}"
  | notInProgram id group =>
      s!"parameter block {id.name} of group {group} is not part of the program"

/-- The text of a cause. -/
def message (e : ModelError) : String := e.kind.describe e.detail

end ModelError

end LeastSquares
