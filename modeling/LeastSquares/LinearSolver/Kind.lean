import LeastSquares.Named

/-!
# Kinds of linear solvers

The step of a minimizer is the solution of a linear least squares problem
with a diagonal regularizer. Seven solvers are on offer, two of which need
a sparse factorization and three of which eliminate the first group of
parameter blocks before they start.

## Main definitions

* `LinearSolverKind`, `PreconditionerKind`, `SparseLibrary` — the choices.
* `LinearSolverOptions` — what a linear solver is built from.
-/

namespace LeastSquares

/-- The linear solvers. -/
inductive LinearSolverKind where
  | denseNormalCholesky
  | denseQR
  | sparseNormalCholesky
  | denseSchur
  | sparseSchur
  | iterativeSchur
  | conjugateGradients
deriving DecidableEq, Repr, Inhabited

namespace LinearSolverKind

/-- All linear solvers, in the order in which they are listed to users. -/
def all : List LinearSolverKind :=
  [denseNormalCholesky, denseQR, sparseNormalCholesky, denseSchur, sparseSchur,
    iterativeSchur, conjugateGradients]

/-- The name in options and reports. -/
def name : LinearSolverKind → String
  | denseNormalCholesky => "DENSE_NORMAL_CHOLESKY"
  | denseQR => "DENSE_QR"
  | sparseNormalCholesky => "SPARSE_NORMAL_CHOLESKY"
  | denseSchur => "DENSE_SCHUR"
  | sparseSchur => "SPARSE_SCHUR"
  | iterativeSchur => "ITERATIVE_SCHUR"
  | conjugateGradients => "CGNR"

/-- Whether the first elimination group is eliminated by a Schur complement. -/
def isSchur : LinearSolverKind → Bool
  | denseSchur | sparseSchur | iterativeSchur => true
  | _ => false

/-- Whether the solution is approached by iteration. -/
def isIterative : LinearSolverKind → Bool
  | iterativeSchur | conjugateGradients => true
  | _ => false

/-- Whether a sparse factorization is needed. -/
def needsSparseLibrary : LinearSolverKind → Bool
  | sparseNormalCholesky | sparseSchur => true
  | _ => false

/-- The solver that takes over when a Schur solver has nothing to eliminate. -/
def schurFallback? : LinearSolverKind → Option LinearSolverKind
  | sparseSchur => some sparseNormalCholesky
  | denseSchur => some denseQR
  | iterativeSchur => some conjugateGradients
  | _ => none

instance : Named LinearSolverKind := ⟨all, name⟩

end LinearSolverKind

/-- The approximate inverses that speed up an iterative solver. -/
inductive PreconditionerKind where
  | identity
  | jacobi
  | schurJacobi
  | clusterJacobi
  | clusterTridiagonal
deriving DecidableEq, Repr, Inhabited

namespace PreconditionerKind

/-- All preconditioners, in the order in which they are listed to users. -/
def all : List PreconditionerKind :=
  [identity, jacobi, schurJacobi, clusterJacobi, clusterTridiagonal]

/-- The name in options and reports. -/
def name : PreconditionerKind → String
  | identity => "IDENTITY"
  | jacobi => "JACOBI"
  | schurJacobi => "SCHUR_JACOBI"
  | clusterJacobi => "CLUSTER_JACOBI"
  | clusterTridiagonal => "CLUSTER_TRIDIAGONAL"

/-- Whether the parameter blocks would have to be clustered first. -/
def isCluster : PreconditionerKind → Bool
  | clusterJacobi | clusterTridiagonal => true
  | _ => false

/-- Whether the preconditioner makes sense for the normal equations. -/
def suitsNormalEquations : PreconditionerKind → Bool
  | identity | jacobi => true
  | _ => false

instance : Named PreconditionerKind := ⟨all, name⟩

end PreconditionerKind

/-- The providers of sparse factorizations. -/
inductive SparseLibrary where
  | provided
  | absent
deriving DecidableEq, Repr, Inhabited

namespace SparseLibrary

/-- Both providers, in the order in which they are listed to users. -/
def all : List SparseLibrary := [provided, absent]

/-- The name in options and reports. -/
def name : SparseLibrary → String
  | provided => "FAER"
  | absent => "NO_SPARSE"

/-- Whether a sparse factorization can be had. -/
def isAvailable : SparseLibrary → Bool
  | provided => true
  | absent => false

instance : Named SparseLibrary := ⟨all, name⟩

end SparseLibrary

/-- What a linear solver is built from. -/
structure LinearSolverOptions where
  kind : LinearSolverKind := .sparseNormalCholesky
  preconditioner : PreconditionerKind := .jacobi
  sparseLibrary : SparseLibrary := .provided
  minIterations : Nat := 1
  maxIterations : Nat := 500
  threads : Nat := 1
  /-- Sizes of the elimination groups in the order of elimination. -/
  eliminationGroups : List Nat := []
deriving DecidableEq, Repr, Inhabited

end LeastSquares
