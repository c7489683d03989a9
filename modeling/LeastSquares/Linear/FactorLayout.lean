import LeastSquares.Ascending
import LeastSquares.Linear.Relabelling
import LeastSquares.Total

/-!
# Layouts of a sparse factor

The factor of a sparse matrix is stored column by column, each column with
one slot for every row at which it can hold something, one column after the
other. Which rows these are follows from the pattern of the matrix alone: a
column holds the rows of the matrix itself and, for every earlier column that
holds it, the later rows of that column.

The first row below the diagonal of a column is its *parent*. The columns
that a row of the factor meets are found by climbing from the entries of the
matrix in that row, from parent to parent, until the row is reached. A
climb that never gets there shows that the layout was made for a matrix of
another pattern.

## Main definitions

* `lowerTriangle` — the positions of a pattern by new labels.
* `FactorLayout.ofTriangle` — the layout for a matrix with these positions.
* `FactorLayout.reach?` — the columns that a row meets.
-/

namespace LeastSquares

/-- The positions of a symmetric pattern on and below the diagonal by new
labels, as column and row. They keep the order of the pattern. -/
def lowerTriangle {n : Nat} (r : Relabelling n) (pattern : List (Nat × Nat)) :
    List (Nat × Nat) :=
  pattern.filterMap fun (k, l) =>
    if k ≤ l then
      some (Nat.min (r.label k) (r.label l), Nat.max (r.label k) (r.label l))
    else none

/-- The rows at which the columns of a factor have slots, in ascending order
from the diagonal on. -/
structure FactorLayout where
  /-- The rows of all slots, column after column. -/
  rows : Array Nat
  /-- The first slot of each column, and the end of the last one. -/
  starts : Array Nat
deriving DecidableEq, Repr

namespace FactorLayout

/-- The layout with the given rows in its columns. -/
def ofColumns (columns : List (List Nat)) : FactorLayout where
  rows := columns.flatten.toArray
  starts := Array.ofFn fun k : Fin (columns.length + 1) =>
    total ((columns.take k).map List.length)

/-- The layout for a matrix of dimension `n` with the given positions on and
below the diagonal. A column takes over the rows of the columns whose parent
it is; they have those of all others. -/
def ofTriangle (n : Nat) (triangle : List (Nat × Nat)) : FactorLayout :=
  .ofColumns <| (List.range n).foldl
    (fun columns k =>
      let direct := triangle.filterMap fun (column, row) => if column = k then some row else none
      let filled := columns.flatMap fun rows =>
        if rows[1]? = some k then rows.drop 2 else []
      columns ++ [Ascending.ofList (k :: direct ++ filled)])
    []

variable (layout : FactorLayout)

/-- Number of columns. -/
def size : Nat := layout.starts.size - 1

/-- The first slot of a column. -/
def start (k : Nat) : Nat := layout.starts.getD k 0

/-- Number of slots of a column. -/
def count (k : Nat) : Nat := layout.start (k + 1) - layout.start k

/-- The slots from one place to before another, as slot and row. -/
def span (first stop : Nat) : List (Nat × Nat) :=
  (List.range' first (stop - first)).map fun p => (p, layout.rows.getD p 0)

/-- The slots of a column below the diagonal. -/
def below (k : Nat) : List (Nat × Nat) :=
  layout.span (layout.start k + 1) (layout.start (k + 1))

/-- Whether a column has a slot for a row. -/
def holds (k row : Nat) : Bool :=
  (layout.span (layout.start k) (layout.start (k + 1))).any fun (_, i) => i == row

/-- The first row below the diagonal of a column. -/
def parent? (k : Nat) : Option Nat :=
  if 1 < layout.count k then layout.rows[layout.start k + 1]? else none

/-- The columns on the climb from column `j` to one of the given ones, none
if it misses them all. -/
def climb? (goals : List Nat) : Nat → Nat → Option (List Nat)
  | 0, _ => none
  | fuel + 1, j =>
      if goals.contains j then some []
      else
        match layout.parent? j with
        | none => none
        | some parent => (climb? goals fuel parent).map (j :: ·)

/-- The columns that row `k` meets, each after those below it in the tree of
parents, given the columns in which the matrix has an entry in that row.
None if a climb misses the row. -/
def reach? (k : Nat) : List Nat → List Nat → Option (List Nat)
  | [], found => some found
  | j :: rest, found =>
      if k ≤ j then reach? k rest found
      else
        match layout.climb? (k :: found) (layout.size + 1) j with
        | none => none
        | some path => reach? k rest (path ++ found)

end FactorLayout

end LeastSquares
