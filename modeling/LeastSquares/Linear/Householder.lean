import LeastSquares.Linear.Mat

/-!
# Least squares by reflections

The first column of a matrix is turned onto its first axis by a reflection,
which is applied to the other columns as well. What lies below the first
row is a smaller matrix to treat in the same way. The columns that end on
the axes make an upper triangle, and undoing the reflections on the axes
makes an orthonormal basis of the columns' span; the matrix is the product
of the two. A least squares problem is then solved by the coordinates of
its right-hand side in that basis and substitution in the triangle. No
normal equations are formed, so nothing is squared.

A column that is already zero cannot be turned, and the problem then has no
unique solution.

## Main definitions

* `Reflection.ofColumn?` — the reflection that turns a column.
* `OrthogonalFactors.ofColumns?` — basis and triangle of a matrix.
* `leastSquares?` — the minimizer of `|A x - b|`, for a matrix with at least
  as many rows as columns and full rank.
-/

namespace LeastSquares

variable {α : Type} [Scalar α]

/-- The reflection at the plane through zero that is orthogonal to a unit
axis, followed by a change of sign where that is needed to turn its column
onto the positive half of the first axis. There the column has the entry
`corner`. -/
structure Reflection (α : Type) where
  axis : Vec α
  sign : α
  corner : α
deriving Repr

namespace Reflection

/-- The reflection that turns a column onto the first axis. The axis is
built on the side on which nothing cancels, and the change of sign makes up
for that. -/
def ofColumn? (c : Vec α) : Option (Reflection α) :=
  let normSq := c.normSq
  let norm := Scalar.sqrt normSq
  let head := c.get 0
  let (modulus, sign) : α × α := if 0 ≤ head then (head, 1) else (-head, -1)
  let factor := (normSq + modulus * norm) * 2.0
  if factor == 0 then none
  else
    let axis := (c.set 0 (head + sign * norm)).map fun a => a / Scalar.sqrt factor
    let length := axis.norm
    some ⟨axis.map fun a => a / length, -sign, norm⟩

/-- Where a vector is turned to. -/
def apply (r : Reflection α) (v : Vec α) : Vec α :=
  let factor := r.axis.dot v * (r.sign * -2.0)
  Vec.ofFn v.size fun i => factor * r.axis.get i + r.sign * v.get i

end Reflection

/-- An orthonormal basis of the columns of a matrix, and the upper triangle
of their coordinates in it. A row of the triangle is its entry on the
diagonal and the entries after that. -/
structure OrthogonalFactors (α : Type) where
  basis : List (Vec α)
  triangle : List (α × List α)
deriving Repr

namespace OrthogonalFactors

/-- The factors of the matrix with the given columns, if no column is a
combination of earlier ones. -/
def ofColumns? : List (Vec α) → Option (OrthogonalFactors α)
  | [] => some ⟨[], []⟩
  | c :: columns =>
      match Reflection.ofColumn? c with
      | none => none
      | some r =>
          match ofColumns? (columns.map fun v => (r.apply v).tail) with
          | none => none
          | some below =>
              some
                { basis := (Vec.unit c.size 0 :: below.basis.map (Vec.cons 0)).map r.apply
                  triangle :=
                    (r.corner, columns.map fun v => (r.apply v).get 0) :: below.triangle }
termination_by columns => columns.length

/-- The solution of a triangular system, if no entry of the diagonal is
zero. The known terms of a row are taken off from the last to the first. -/
def substitute? : List (α × List α) → List α → Option (List α)
  | (corner, row) :: triangle, y :: ys =>
      match substitute? triangle ys with
      | none => none
      | some x =>
          if corner == 0 then none
          else
            let rest := (x.zip row).foldr (fun (x, a) rest => -x * a + rest) y
            some (rest / corner :: x)
  | _, _ => some []

/-- The minimizer of `|A x - b|` for the matrix `A` with these factors. -/
def solve? (f : OrthogonalFactors α) (b : Vec α) : Option (List α) :=
  substitute? f.triangle (f.basis.map fun q => q.dot b)

end OrthogonalFactors

/-- The minimizer of `|a x - b|`, if the columns of `a` are independent. -/
def leastSquares? (a : Mat α) (b : Vec α) : Option (Vec α) :=
  match OrthogonalFactors.ofColumns? ((List.range a.cols).map a.col) with
  | none => none
  | some f => (f.solve? b).map Vec.ofList

end LeastSquares
