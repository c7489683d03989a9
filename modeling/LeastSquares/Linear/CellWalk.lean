import LeastSquares.Linear.BlockMatrix

/-!
# Walking through the cells

The cells of a block-sparse matrix are stored row by row, and this is the order
in which they are visited: a walk takes the cells of the first row from left to
right, then those of the second row, and carries a result along. A cell knows
the range of its row block and that of its column block. What it adds to a
vector or copies into a matrix goes to the places of these ranges, in a result
that has its full size from the start.

Block by block the same results are put together in `BlockMatrix`, where they
are easier to reason about.

## Main definitions

* `BlockMatrix.walk` — the cells in order.
* `BlockMatrix.walkRight?`, `BlockMatrix.walkLeft?` — products with a vector.
* `BlockMatrix.walkNorms`, `BlockMatrix.walkDense` — lengths of the columns,
  and the dense form.
* `BlockMatrix.triplets` — the stored entries.
-/

namespace LeastSquares

variable {α : Type} [Scalar α]

/-- The vector with another one added to its entries from `start` on. -/
def Vec.addAt (v : Vec α) (start : Nat) (w : Vec α) : Vec α :=
  ofFn v.size fun i =>
    if start ≤ i ∧ i < start + w.size then v.get i + w.get (i - start) else v.get i

/-- The matrix with another one copied into it from a row and a column on. -/
def Mat.copyAt (a : Mat α) (row column : Nat) (m : Mat α) : Mat α :=
  ofFn a.rows a.cols fun i j =>
    if (row ≤ i ∧ i < row + m.rows) ∧ column ≤ j ∧ j < column + m.cols then
      m.get (i - row) (j - column)
    else a.get i j

namespace BlockMatrix

/-- Visits the cells row by row. A visit gets the row block, the column block
and the values of the cell. -/
def walk {β : Type} (a : BlockMatrix α) (visit : β → Block → Block → Mat α → β) (start : β) : β :=
  a.rows.foldl
    (fun acc row => row.cells.foldl
      (fun acc cell => visit acc row.block (a.column cell.column) cell.values) acc)
    start

/-- The matrix times a vector: a cell adds to the entries of its row block. -/
def walkRight (a : BlockMatrix α) (x : Vec α) : Vec α :=
  a.walk
    (fun y row column values =>
      y.addAt row.position (values.mulVec (x.slice column.position column.size)))
    (Vec.zeros a.numRows)

/-- The transpose times a vector: a cell adds to the entries of its column
block. -/
def walkLeft (a : BlockMatrix α) (y : Vec α) : Vec α :=
  a.walk
    (fun x row column values =>
      x.addAt column.position (values.tMulVec (y.slice row.position row.size)))
    (Vec.zeros a.numCols)

/-- The matrix times a vector that has to reach every column in use. -/
def walkRight? (a : BlockMatrix α) (x : Vec α) : Except Fault (Vec α) :=
  if a.fitsRight x.size then .ok (a.walkRight x) else .error .sizeMismatch

/-- The transpose times a vector that has to reach every row. -/
def walkLeft? (a : BlockMatrix α) (y : Vec α) : Except Fault (Vec α) :=
  if a.fitsLeft y.size then .ok (a.walkLeft y) else .error .sizeMismatch

/-- The squared Euclidean length of every column: a cell adds the squared
lengths of its own columns. -/
def walkNorms (a : BlockMatrix α) : Vec α :=
  a.walk
    (fun norms _ column values =>
      norms.addAt column.position (Vec.ofFn column.size fun j => (values.col j).normSq))
    (Vec.zeros a.numCols)

/-- The dense form: a cell is copied to where its row and column blocks meet. -/
def walkDense (a : BlockMatrix α) : Mat α :=
  a.walk (fun dense row column values => dense.copyAt row.position column.position values)
    (Mat.zeros a.numRows a.numCols)

/-- The stored entries as row, column and value, cell by cell and in each cell
row by row, as they are handed over to be sorted into columns. A stored zero is
listed. -/
def triplets (a : BlockMatrix α) : List (Nat × Nat × α) :=
  a.walk
    (fun entries row column values =>
      entries ++ (List.range row.size).flatMap fun i => (List.range column.size).map fun j =>
        (row.position + i, column.position + j, values.get i j))
    []

end BlockMatrix

end LeastSquares
