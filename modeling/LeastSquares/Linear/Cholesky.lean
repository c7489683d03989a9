import LeastSquares.Linear.Mat

/-!
# Cholesky factorization

A symmetric positive definite matrix is split by its first row and column:
the root of the corner, the column below it divided by that root, and what
remains of the trailing block after subtracting the column's outer product.
The factor is the list of these columns, and a solve walks the list once,
eliminating on the way in and substituting on the way out.

The factorization stops where a corner has no usable root: at zero, below
zero, and at a NaN. Only the lower triangle of the matrix is read.

A division by a root can be one division or a product with the reciprocal.
The two differ in the last place, which decides between a pivot of zero and
one barely above it, so a factor remembers which of them it was made with.

## Main definitions

* `Cholesky.factor?` — the factor, if every corner has a root.
* `Cholesky.solve`, `Cholesky.inverse` — what a factor is for.
-/

namespace LeastSquares

/-- How to divide by the root of a pivot. -/
inductive RootDivision where
  | quotient
  | reciprocal
deriving DecidableEq, Repr, Inhabited

/-- The division of `a` by `root`. -/
def RootDivision.divide {α : Type} [Scalar α] (division : RootDivision) (a root : α) : α :=
  match division with
  | quotient => a / root
  | reciprocal => a * (1 / root)

/-- A factor, column by column: the root on the diagonal and the entries
below it. -/
structure Cholesky (α : Type) where
  columns : List (α × Vec α)
  division : RootDivision
deriving Repr

namespace Cholesky

variable {α : Type} [Scalar α]

/-- Whether a pivot has a root to divide by. -/
def isPivot (a : α) : Bool := !(a == 0) && 0 ≤ a

/-- The columns of the factor of the leading block of size `n`. -/
def columns? (division : RootDivision) : Nat → Mat α → Option (List (α × Vec α))
  | 0, _ => some []
  | n + 1, a =>
      let corner := a.get 0 0
      if isPivot corner then
        let root := Scalar.sqrt corner
        let below := Vec.ofFn n fun i => division.divide (a.get (i + 1) 0) root
        let trailing :=
          Mat.ofFn n n fun i j => a.get (i + 1) (j + 1) - below.get j * below.get i
        (columns? division n trailing).map ((root, below) :: ·)
      else none

/-- The factor of a square matrix. -/
def factor? (division : RootDivision) (a : Mat α) : Option (Cholesky α) :=
  (columns? division a.rows a).map fun columns => ⟨columns, division⟩

/-- The solution of the factored system, entry by entry from the last. -/
def solveList (division : RootDivision) : List (α × Vec α) → Vec α → List α
  | [], _ => []
  | (root, below) :: columns, b =>
      let y := division.divide (b.get 0) root
      let rest := Vec.ofFn below.size fun i => b.get (i + 1) - below.get i * y
      let x := Vec.ofList (solveList division columns rest)
      division.divide (y - below.dot x) root :: x.toList

/-- The solution of the factored system. -/
def solve (c : Cholesky α) (b : Vec α) : Vec α :=
  Vec.ofList (solveList c.division c.columns b)

/-- The size of the factored matrix. -/
def size (c : Cholesky α) : Nat := c.columns.length

/-- The inverse of the factored matrix, column by column. -/
def inverse (c : Cholesky α) : Mat α :=
  let columns := (Array.range c.size).map fun j => c.solve (Vec.unit c.size j)
  Mat.ofFn c.size c.size fun i j => (columns.getD j default).get i

end Cholesky

end LeastSquares
