import LeastSquares.Solve.Options
import LeastSquares.Solve.Reduction

/-!
# Assembling a solve

From the options and a reduced program come the pieces of a solve: a linear
solver, an evaluator, and the groups of inner iterations.

## Main definitions

* `SolveOptions.linearSolverOptions`, `SolveOptions.createLinearSolver`
* `SolveOptions.createEvaluator`
* `SolveOptions.innerIterations`
-/

namespace LeastSquares

/-- Sizes of the elimination groups. A Schur solver that eliminates everything
is told of a second group, which is empty. -/
def ReducedProgram.eliminationGroups {α : Type} (r : ReducedProgram α) : List Nat :=
  match r.order.groupSizes with
  | [size] => if r.linearSolver.isSchur then [size, 0] else [size]
  | sizes => sizes

namespace SolveOptions

variable {α σ : Type} [Scalar α]

/-- The options of the linear solver for a reduced program. -/
def linearSolverOptions (o : SolveOptions α) (r : ReducedProgram α) :
    Except (OptionsError α) LinearSolverOptions :=
  if o.minimizerKind = .trustRegion ∧ o.strategy = .dogleg ∧ r.linearSolver.isIterative then
    .error (.doglegNeedsFactorization r.linearSolver)
  else if o.minLinearIterations = 0 ∨ o.maxLinearIterations < o.minLinearIterations then
    .error (.linearIterations o.minLinearIterations o.maxLinearIterations)
  else
    .ok
      { kind := r.linearSolver
        preconditioner := r.preconditioner
        sparseLibrary := o.sparseLibrary
        minIterations := o.minLinearIterations
        maxIterations := o.maxLinearIterations
        threads := o.linearSolverThreads
        eliminationGroups := r.eliminationGroups }

/-- The linear solver for a reduced program. -/
def createLinearSolver (o : SolveOptions α) (r : ReducedProgram α) :
    Except (SolveError α) LinearSolver :=
  match o.linearSolverOptions r with
  | .error e => .error (.options e)
  | .ok options => (LinearSolver.create? options).mapError .linear

/-- The evaluator for a reduced program. -/
def createEvaluator (p : Problem α σ) (r : ReducedProgram α) (check : Option (GradientCheck α)) :
    Except ModelError (Evaluator α σ) :=
  Evaluator.create p r.program r.linearSolver r.numEliminated check

/-- Why the groups that a caller gave for inner iterations cannot be used. -/
def innerOrderFlaw? (p : Problem α σ) (g : Program) :
    List (Nat × List BlockId) → Option (SolveError α)
  | [] => none
  | (group, members) :: rest =>
      match members.find? fun id => !p.contains id with
      | some id => some (.model (.foreignInnerMember group id))
      | none =>
          match g.isIndependent p members with
          | .error e => some (.model e)
          | .ok false => some (.innerOrder (.dependentGroup group))
          | .ok true => innerOrderFlaw? p g rest

/-- The order of inner iterations: the caller's, or independent sets peeled
off the graph, those peeled last in front. -/
def innerOrderFor (o : SolveOptions α) (p : Problem α σ) (r : ReducedProgram α) :
    Except (SolveError α) EliminationOrder :=
  match o.innerOrder with
  | some order =>
      match innerOrderFlaw? p r.program order.groups with
      | some e => .error e
      | none => .ok order
  | none =>
      match r.program.peeledOrder p with
      | .ok order => .ok order.reverse
      | .error e => .error (.model e)

/-- Inner iterations with their order, none if there is only one block. -/
def innerIterations (o : SolveOptions α) (p : Problem α σ) (r : ReducedProgram α)
    (e : Evaluator α σ) : Except (SolveError α) (Option (CoordinateDescent × EliminationOrder)) :=
  if r.program.blocks.length < 2 then .ok none
  else
    match o.innerOrderFor p r with
    | .error e => .error e
    | .ok order =>
        match CoordinateDescent.create order e with
        | .error e => .error (.innerOrder e)
        | .ok inner => .ok (some (inner, order))

end SolveOptions

end LeastSquares
