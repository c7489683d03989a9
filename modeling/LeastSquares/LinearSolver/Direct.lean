import LeastSquares.Linear.BlockMatrix
import LeastSquares.Linear.Cholesky
import LeastSquares.Linear.Householder
import LeastSquares.LinearSolver.Error

/-!
# Dense linear solvers

Two solvers of the regularized problem "minimize `|A x - b|² + |D x|²`" that
factor a dense matrix once. One factors the normal matrix `AᵀA + D²`, the
other turns `A` stacked on `D` into triangular form.

## Main definitions

* `normalMatrix` — the matrix of the normal equations.
* `denseNormal?`, `denseReflections?` — the solvers.
-/

namespace LeastSquares

variable {α : Type} [Scalar α]

/-- The squares of the regularizer's entries; no regularizer counts as zero. -/
def regularizerSquared (d : Option (Vec α)) (n : Nat) : Except LinearError (Vec α) :=
  match d with
  | none => .ok (Vec.zeros n)
  | some d => if d.size = n then .ok (d.mulEntries d) else .error (.regularizer d.size n)

/-- A square matrix with a vector added to its diagonal. -/
def addDiagonal (h : Mat α) (d : Vec α) : Mat α :=
  Mat.ofFn h.rows h.cols fun i j => if i = j then h.get i j + d.get i else h.get i j

/-- The normal matrix `AᵀA + D²`. -/
def normalMatrix (a : BlockMatrix α) (d2 : Vec α) : Mat α :=
  let dense := a.toDense
  addDiagonal (dense.tMul dense) d2

/-- The solution of the normal equations by a dense factorization. The
right-hand side has to have an entry for every row. -/
def denseNormal? (a : BlockMatrix α) (b : Vec α) (d : Option (Vec α)) :
    Outcome LinearError (Vec α) := do
  let d2 ← Outcome.ofExcept (regularizerSquared d a.numCols)
  if b.size ≠ a.numRows then throw (.fault .sizeMismatch)
  match Cholesky.factor? .quotient (normalMatrix a d2) with
  | none => throw (.error .singular)
  | some c => pure (c.solve (a.toDense.tMulVec b))

/-- The matrix stacked on the diagonal regularizer. -/
def stackRegularizer (a : Mat α) (d : Vec α) : Mat α :=
  Mat.ofFn (a.rows + d.size) a.cols fun i j =>
    if i < a.rows then a.get i j else if i - a.rows = j then d.get j else 0

/-- The solution by reflections of the stacked system. -/
def denseReflections? (a : BlockMatrix α) (b : Vec α) (d : Option (Vec α)) :
    Except LinearError (Vec α) := do
  let m := a.numRows
  let n := a.numCols
  if b.size ≠ m then throw (.rightHandSide b.size m)
  let (stacked, rhs) ← match d with
    | none => pure (a.toDense, b)
    | some d =>
        if d.size ≠ n then throw (.regularizer d.size n)
        pure (stackRegularizer a.toDense d, Vec.concat [b, Vec.zeros n])
  if stacked.rows < n then throw (.underdetermined stacked.rows n)
  match leastSquares? stacked rhs with
  | none => throw .singular
  | some x => if x.isFinite then pure x else throw .singular

end LeastSquares
