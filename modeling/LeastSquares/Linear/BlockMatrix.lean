import LeastSquares.Ascending
import LeastSquares.Fault
import LeastSquares.Linear.Mat
import LeastSquares.Total

/-!
# Block-sparse matrices

The Jacobian of a least squares problem has a row block for every residual
block and a column block for every parameter block. It is zero outside the
cells where a residual block reads a parameter block, so only these cells
are stored, each as a dense matrix. The cells of a row stand in ascending
order of their column block.

Products are defined block by block: a row block of `A x` is a sum over its
cells, a column block of `Aᵀ y` is a sum over the rows that have a cell in
that column.

## Main definitions

* `BlockMatrix.ofStructure` — the zero matrix with given cells.
* `BlockMatrix.rightMultiply`, `BlockMatrix.leftMultiply` — the products
  with a vector.
* `BlockMatrix.toDense` — the matrix it stands for.
* `BlockMatrix.entries` — the stored entries, column by column.
-/

namespace LeastSquares

/-- A range of consecutive indices. -/
structure Block where
  size : Nat
  position : Nat
deriving DecidableEq, Repr, Inhabited

namespace Block

/-- The first index after the block. -/
def stop (b : Block) : Nat := b.position + b.size

/-- Blocks of the given sizes, one after the other from `start` on. -/
def layoutFrom (start : Nat) : List Nat → List Block
  | [] => []
  | size :: sizes => ⟨size, start⟩ :: layoutFrom (start + size) sizes

/-- Blocks of the given sizes, one after the other. -/
def layout (sizes : List Nat) : List Block := layoutFrom 0 sizes

end Block

/-- A stored part of a row block. -/
structure Cell (α : Type) where
  /-- Index of the column block. -/
  column : Nat
  values : Mat α
deriving Repr

/-- A row block with its cells. -/
structure BlockRow (α : Type) where
  block : Block
  cells : List (Cell α)
deriving Repr

namespace BlockRow

variable {α : Type}

/-- The cell in a column block. -/
def cell? (row : BlockRow α) (column : Nat) : Option (Mat α) :=
  (row.cells.find? fun c => c.column == column).map Cell.values

/-- The row with other values in a cell it has. -/
def setCell (row : BlockRow α) (column : Nat) (values : Mat α) : BlockRow α :=
  { row with
    cells := row.cells.map fun c => if c.column == column then ⟨column, values⟩ else c }

end BlockRow

/-- A matrix stored by row blocks and cells. -/
structure BlockMatrix (α : Type) where
  columns : List Block
  rows : List (BlockRow α)
deriving Repr

namespace BlockMatrix

variable {α : Type}

/-- Number of rows. -/
def numRows (a : BlockMatrix α) : Nat := total (a.rows.map fun row => row.block.size)

/-- Number of columns. -/
def numCols (a : BlockMatrix α) : Nat := total (a.columns.map Block.size)

/-- The column block of the given index. -/
def column (a : BlockMatrix α) (k : Nat) : Block := a.columns.getD k default

/-- Number of stored entries. -/
def numStored (a : BlockMatrix α) : Nat :=
  total (a.rows.map fun row => total (row.cells.map fun c => c.values.rows * c.values.cols))

variable [Scalar α]

/-- The zero matrix with column blocks of the given sizes and, for every row
block, its size and the column blocks in which it has a cell. The column
blocks may be listed in any order and more than once. -/
def ofStructure (columnSizes : List Nat) (rows : List (Nat × List Nat)) : BlockMatrix α :=
  let columns := Block.layout columnSizes
  let blocks := Block.layout (rows.map Prod.fst)
  { columns
    rows := (blocks.zip rows).map fun (block, _, cells) =>
      { block
        cells := (Ascending.ofList cells).map fun k =>
          ⟨k, Mat.zeros block.size (columns.getD k default).size⟩ } }

/-- The matrix with other values in one cell. -/
def setCell (a : BlockMatrix α) (row column : Nat) (values : Mat α) : BlockMatrix α :=
  { a with rows := a.rows.modify row fun r => r.setCell column values }

/-- The matrix with every stored entry transformed; the function gets the
cell's column block. -/
def mapCells (a : BlockMatrix α) (f : Block → Mat α → Mat α) : BlockMatrix α :=
  { a with
    rows := a.rows.map fun row =>
      { row with cells := row.cells.map fun c => ⟨c.column, f (a.column c.column) c.values⟩ } }

/-- The matrix with the same cells and zeros in them. -/
def setZero (a : BlockMatrix α) : BlockMatrix α :=
  a.mapCells fun _ values => Mat.zeros values.rows values.cols

/-! ## Products -/

/-- The matrix times a vector. -/
def rightMultiply (a : BlockMatrix α) (x : Vec α) : Vec α :=
  Vec.concat <| a.rows.map fun row =>
    row.cells.foldl
      (fun acc c =>
        let b := a.column c.column
        acc + c.values.mulVec (x.slice b.position b.size))
      (Vec.zeros row.block.size)

/-- The transpose times a vector. -/
def leftMultiply (a : BlockMatrix α) (y : Vec α) : Vec α :=
  Vec.concat <| a.columns.mapIdx fun k b =>
    a.rows.foldl
      (fun acc row =>
        match row.cell? k with
        | some values => acc + values.tMulVec (y.slice row.block.position row.block.size)
        | none => acc)
      (Vec.zeros b.size)

/-- Whether a vector of size `n` has every entry that `rightMultiply` reads. -/
def fitsRight (a : BlockMatrix α) (n : Nat) : Bool :=
  a.rows.all fun row => row.cells.all fun c => (a.column c.column).stop ≤ n

/-- Whether a vector of size `n` has every entry that `leftMultiply` reads. -/
def fitsLeft (a : BlockMatrix α) (n : Nat) : Bool :=
  a.rows.all fun row => row.block.stop ≤ n

/-- The matrix times a vector that has to reach every column in use. -/
def rightMultiply? (a : BlockMatrix α) (x : Vec α) : Except Fault (Vec α) :=
  if a.fitsRight x.size then .ok (a.rightMultiply x) else .error .sizeMismatch

/-- The transpose times a vector that has to reach every row. -/
def leftMultiply? (a : BlockMatrix α) (y : Vec α) : Except Fault (Vec α) :=
  if a.fitsLeft y.size then .ok (a.leftMultiply y) else .error .sizeMismatch

/-- The squared Euclidean length of every column. -/
def squaredColumnNorms (a : BlockMatrix α) : Vec α :=
  Vec.concat <| a.columns.mapIdx fun k b =>
    a.rows.foldl
      (fun acc row =>
        match row.cell? k with
        | some values => acc + Vec.ofFn b.size fun j => (values.col j).normSq
        | none => acc)
      (Vec.zeros b.size)

/-! ## Scaling -/

/-- The matrix with column `j` multiplied by the `j`-th entry of a vector. -/
def scaleColumns (a : BlockMatrix α) (c : Vec α) : BlockMatrix α :=
  a.mapCells fun b values => values.scaleCols fun j => c.get (b.position + j)

/-- Whether a vector of size `n` has a factor for every column of a row's
cells. A cell without columns needs none, wherever it stands. -/
def fitsScaling (a : BlockMatrix α) (n : Nat) (row : BlockRow α) : Bool :=
  row.cells.all fun cell =>
    let b := a.column cell.column
    b.size == 0 || b.stop ≤ n

/-- Scaling by a vector that may be too short. The rows are scaled in order;
the first row that reaches past the vector is scaled as far as the vector
goes, and nothing after it. -/
def scaleColumns? (a : BlockMatrix α) (c : Vec α) : Except Fault Unit × BlockMatrix α :=
  if a.rows.all (a.fitsScaling c.size) then (.ok (), a.scaleColumns c)
  else
    let before := a.rows.takeWhile (a.fitsScaling c.size)
    let partly := fun row : BlockRow α =>
      { row with
        cells := row.cells.map fun cell =>
          let b := a.column cell.column
          ⟨cell.column, cell.values.scaleCols fun j =>
            if b.position + j < c.size then c.get (b.position + j) else 1⟩ }
    let scaled := match a.rows.drop before.length with
      | [] => []
      | row :: rest => partly row :: rest
    (.error .sizeMismatch,
      { a with rows := ({ a with rows := before }.scaleColumns c).rows ++ scaled })

/-! ## Other forms -/

/-- The dense form. -/
def toDense (a : BlockMatrix α) : Mat α :=
  let rowOf := fun (row : BlockRow α) (i : Nat) =>
    (Vec.concat <| a.columns.mapIdx fun k b =>
      match row.cell? k with
      | some values => Vec.ofFn b.size fun j => values.get i j
      | none => Vec.zeros b.size).entries
  { rows := a.numRows
    cols := a.numCols
    data := (a.rows.flatMap fun row => (List.range row.block.size).map (rowOf row)).toArray }

/-- The stored entries as row, column and value, column by column and from
the top down within a column. A stored zero is listed. -/
def entries (a : BlockMatrix α) : List (Nat × Nat × α) :=
  (a.columns.mapIdx fun k b =>
    (List.range b.size).flatMap fun j =>
      a.rows.flatMap fun row =>
        match row.cell? k with
        | some values =>
            (List.range row.block.size).map fun i =>
              (row.block.position + i, b.position + j, values.get i j)
        | none => []).flatten

/-- The positions at which the normal matrix `AᵀA + D` can hold something,
judged by the cells alone. -/
def normalPattern (a : BlockMatrix α) : List (Nat × Nat) :=
  let couples := fun (k l : Nat) =>
    a.rows.any fun row => row.block.size != 0 && (row.cell? k).isSome && (row.cell? l).isSome
  (a.columns.mapIdx fun k b =>
    (List.range b.size).flatMap fun i =>
      (a.columns.mapIdx fun l c =>
        if couples k l then (List.range c.size).map fun j => (b.position + i, c.position + j)
        else if k = l then [(b.position + i, b.position + i)]
        else []).flatten).flatten

end BlockMatrix

end LeastSquares
