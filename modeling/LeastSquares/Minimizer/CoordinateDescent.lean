import LeastSquares.Minimizer.TrustRegion
import LeastSquares.Problem.EliminationOrder

/-!
# Coordinate descent

Inner iterations improve a state by optimizing one parameter block at a
time with all others held where they are. The blocks are visited in groups.
The blocks of a group all start from the same state and their improvements
are then put together, which is the same as one after the other if no
residual block reads two of them.

Each block is optimized by a few Levenberg-Marquardt iterations with the
default options, without scaling.

## Main definitions

* `CoordinateDescent.create` — the groups, from an elimination order.
* `CoordinateDescent.sweep` — one visit to all groups.
-/

namespace LeastSquares

/-- Why an order cannot drive inner iterations. -/
inductive InnerOrderError where
  /-- None of its blocks is being optimized. -/
  | nothingOptimized
  /-- A residual block reads two members of the group. -/
  | dependentGroup (group : Nat)
deriving DecidableEq, Repr

namespace InnerOrderError

/-- What happened, in words. -/
def detail : InnerOrderError → String
  | nothingOptimized => "no parameter block of the ordering is being optimized"
  | dependentGroup group => s!"group {group} is not an independent set"

/-- The text of the error. -/
def message (e : InnerOrderError) : String := ErrorKind.innerIterationOrdering.describe e.detail

end InnerOrderError

/-- Groups of free blocks of an evaluator, by their column blocks. -/
structure CoordinateDescent where
  groups : List (List Nat)
deriving DecidableEq, Repr

namespace CoordinateDescent

variable {α σ : Type} [Scalar α]

/-- The groups of an order, without blocks that the evaluator does not
optimize and without groups that are then empty. -/
def create (o : EliminationOrder) (e : Evaluator α σ) :
    Except InnerOrderError CoordinateDescent :=
  let groups := (o.groups.values.map fun members =>
    members.filterMap fun id => id.lastPlace? e.blockIds).filter fun group => !group.isEmpty
  if groups.isEmpty then .error .nothingOptimized else .ok ⟨groups⟩

/-- Number of groups. -/
def numGroups (c : CoordinateDescent) : Nat := c.groups.length

/-- The options for a single block. -/
def options : MinimizerOptions α := { maxIterations := 5, jacobiScaling := false }

/-- The linear solver for a single block. -/
def solver : LinearSolver :=
  { kind := .denseQR, preconditioner := .jacobi, minIterations := 1, maxIterations := 500,
    eliminated := 0 }

/-- Better values for one block, none if no step was taken. The state has to
reach the block and those it shares a term with. A block without residuals
needs no values of its own. -/
def solveBlock [ScalarText α] (e : Evaluator α σ) (x : Vec α) (column : Nat) :
    Run α σ (Option (Vec α)) := do
  let restricted ← Run.ofFault (e.restrictTo? column x)
  if restricted.numResiduals = 0 then pure none
  else if !e.reaches x.size column then Run.ofFault (.error .sizeMismatch)
  else
    match e.blocks[column]? with
    | none => pure none
    | some b =>
        let run : TrustRegion α σ :=
          { options, evaluator := restricted, inner := none, callbacks := {} }
        let summary ← run.minimize (.levenbergMarquardt (.new solver options)) {}
          (b.valuesIn x)
        if summary.termination.writesBack && 0 < summary.history.successfulSteps then
          pure (some summary.best)
        else pure none

/-- The state with better values for some blocks, and the number of these
blocks. -/
def apply (e : Evaluator α σ) : Nat × Vec α → List (Nat × Option (Vec α)) → Nat × Vec α
  | result, [] => result
  | result, (_, none) :: rest => apply e result rest
  | (updated, x), (column, some values) :: rest =>
      match e.blocks[column]? with
      | none => apply e (updated, x) rest
      | some b => apply e (updated + 1, x.splice b.stateOffset values) rest

/-- One group after the other. -/
def sweepGroups [ScalarText α] (e : Evaluator α σ) :
    List (List Nat) → Nat × Vec α → Run α σ (Nat × Vec α)
  | [], result => pure result
  | group :: rest, (updated, x) => do
      let better ← group.mapM (solveBlock e x)
      sweepGroups e rest (apply e (updated, x) (group.zip better))

/-- One visit to all groups: the number of blocks that got better values, and
the state with these values. -/
def sweep [ScalarText α] (c : CoordinateDescent) (e : Evaluator α σ) (x : Vec α) :
    Run α σ (Nat × Vec α) :=
  sweepGroups e c.groups (0, x)

end CoordinateDescent

end LeastSquares
