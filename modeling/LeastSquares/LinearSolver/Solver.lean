import LeastSquares.LinearSolver.ConjugateGradients

/-!
# Linear solvers

A linear solver is built from options that are checked once and then solves
any number of systems "minimize `|A x - b|² + |D x|²`". The only thing it
remembers from one system to the next is the analysis of a sparse pattern.

## Main definitions

* `LinearSolver.create?` — checking the options.
* `LinearSolver.solve` — one system.
-/

namespace LeastSquares

/-- A linear solver with checked options. -/
structure LinearSolver where
  kind : LinearSolverKind
  preconditioner : PreconditionerKind
  minIterations : Nat
  maxIterations : Nat
  /-- Number of column blocks a Schur solver eliminates. -/
  eliminated : Nat
  /-- The analysis that the last sparse factorization worked from. -/
  analysis : Option SparsityAnalysis := none
deriving DecidableEq, Repr

/-- What varies from system to system. -/
structure SolveSettings (α : Type) where
  /-- Diagonal of the regularizer, none for zero. -/
  regularizer : Option (Vec α) := none
  /-- Relative residual at which an iterative solver stops. -/
  tolerance : α

namespace LinearSolver

/-- The solver that the options describe. -/
def create? (o : LinearSolverOptions) : Except LinearError LinearSolver :=
  if o.kind.needsSparseLibrary && !o.sparseLibrary.isAvailable then
    .error (.missingSparseLibrary o.kind o.sparseLibrary)
  else if o.kind.isIterative && o.preconditioner.isCluster then
    .error (.missingClustering o.preconditioner)
  else if o.kind = .conjugateGradients && !o.preconditioner.suitsNormalEquations then
    .error (.unsuitedPreconditioner o.preconditioner)
  else if o.minIterations = 0 || o.maxIterations < o.minIterations then
    .error (.iterationBounds o.minIterations o.maxIterations)
  else if o.kind.isSchur && o.eliminationGroups.length < 2 then
    .error (.eliminationGroups o.kind o.eliminationGroups.length)
  else
    .ok { kind := o.kind
          preconditioner := o.preconditioner
          minIterations := o.minIterations
          maxIterations := o.maxIterations
          eliminated := o.eliminationGroups.headD 0 }

variable {α : Type} [Scalar α]

/-- The solution found by a factorization. -/
def direct (x : Vec α) : LinearSolution α := ⟨x, 1, true⟩

/-- The solution of one system, and the solver as it is afterwards. -/
def solve (s : LinearSolver) (a : BlockMatrix α) (b : Vec α) (settings : SolveSettings α) :
    Outcome LinearError (LinearSolution α) × LinearSolver :=
  let d := settings.regularizer
  match s.kind with
  | .denseNormalCholesky => ((denseNormal? a b d).map direct, s)
  | .denseQR => (Outcome.ofExcept ((denseReflections? a b d).map direct), s)
  | .sparseNormalCholesky =>
      let (x, analysis) := sparseNormal? s.analysis a b d
      (x.map direct, { s with analysis })
  | .denseSchur =>
      let (x, _) := schurDirect? false none s.eliminated a b d
      (x.map direct, s)
  | .sparseSchur =>
      let (x, analysis) := schurDirect? true s.analysis s.eliminated a b d
      (x.map direct, { s with analysis })
  | .iterativeSchur =>
      (Outcome.ofExcept (schurGradients? s.preconditioner s.minIterations s.maxIterations
        s.eliminated a b d settings.tolerance), s)
  | .conjugateGradients =>
      (Outcome.ofExcept (normalGradients? s.preconditioner s.minIterations s.maxIterations
        a b d settings.tolerance), s)

end LinearSolver

end LeastSquares
