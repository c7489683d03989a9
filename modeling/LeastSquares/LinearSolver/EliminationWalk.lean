import LeastSquares.Ascending
import LeastSquares.Linear.CellWalk
import LeastSquares.LinearSolver.Schur

/-!
# Walking through an elimination

The reduced system of an elimination is accumulated in the order in which its
parts are stored: first what the rows have for it, row by row and cell by cell,
then what is taken off for every eliminated block, coupling by coupling. The
blocks of the reduced matrix are collected in a table by their row and column,
in which a block that no part contributes to does not appear. From the table the
matrix is assembled, either densely or as a list of entries.

`Elimination` puts the same together block by block, where it is easier to
reason about.

## Main definitions

* `BlockKey`, `ReducedBlocks` — blocks by their place.
* `Elimination.gather` — the table of the blocks, or of those on the diagonal.
* `Elimination.assembleDense`, `Elimination.assembleSparse` — the matrix from the
  table.
* `Elimination.walkRhs`, `Elimination.walkReduced` — the right-hand side, and the
  product with a vector.
-/

namespace LeastSquares

variable {α : Type} [Scalar α]

/-! ## Tables of blocks -/

/-- The place of a block: its block row and its block column. -/
structure BlockKey where
  row : Nat
  column : Nat
deriving DecidableEq, Repr

/-- Row by row, and in a row from left to right. -/
instance : LT BlockKey := ⟨fun a b => a.row < b.row ∨ a.row = b.row ∧ a.column < b.column⟩

instance : DecidableLT BlockKey := fun a b =>
  inferInstanceAs (Decidable (a.row < b.row ∨ a.row = b.row ∧ a.column < b.column))

/-- The blocks of a matrix that are not zero, by their places. -/
abbrev ReducedBlocks (α : Type) := Table BlockKey (Mat α)

/-- The table with something added to a block, which appears if it did not. -/
def ReducedBlocks.add (t : ReducedBlocks α) (key : BlockKey) (m : Mat α) : ReducedBlocks α :=
  Table.put key (match Table.find? key t with
    | some n => n + m
    | none => m) t

/-- The vector with another one subtracted from its entries from `start` on. -/
def Vec.subAt (v : Vec α) (start : Nat) (w : Vec α) : Vec α :=
  ofFn v.size fun i =>
    if start ≤ i ∧ i < start + w.size then v.get i - w.get (i - start) else v.get i

namespace Elimination

variable (s : Elimination α)

/-- The cells of a row that stand in remaining blocks. -/
def keptCells (row : BlockRow α) : List (Cell α) := row.cells.filter fun c => s.count ≤ c.column

/-- The remaining block with the given number. -/
def keptBlock (k : Nat) : Block := s.remaining.getD k default

/-! ## The blocks of the reduced matrix -/

/-- The regularizer in place. -/
def startBlocks : ReducedBlocks α :=
  (s.remaining.mapIdx fun k b => (k, b)).foldl
    (fun t (k, b) => Table.put ⟨k, k⟩ (Mat.diagonal (s.regularizerOf b)) t) []

/-- The products of the cells of a row added. -/
def addRow (diagonalOnly : Bool) (t : ReducedBlocks α) (row : BlockRow α) : ReducedBlocks α :=
  (s.keptCells row).foldl
    (fun t c => (s.keptCells row).foldl
      (fun t d =>
        if diagonalOnly && c.column != d.column then t
        else t.add ⟨c.column - s.count, d.column - s.count⟩ (c.values.tMul d.values)) t)
    t

/-- What goes through an eliminated block taken off. -/
def addEliminated (diagonalOnly : Bool) (t : ReducedBlocks α) (e : EliminatedBlock α) :
    ReducedBlocks α :=
  e.couplings.foldl
    (fun t (l, d) =>
      let image := e.inverse.mul d
      e.couplings.foldl
        (fun t (k, c) =>
          if diagonalOnly && k != l then t else t.add ⟨k, l⟩ (-(c.tMul image))) t)
    t

/-- The blocks of the reduced matrix, or only those on its diagonal. -/
def gather (diagonalOnly : Bool) : ReducedBlocks α :=
  s.eliminated.foldl (addEliminated diagonalOnly)
    (s.matrix.rows.foldl (s.addRow diagonalOnly) s.startBlocks)

/-! ## Assembling -/

/-- The matrix with its blocks copied into place. -/
def assembleDense (t : ReducedBlocks α) : Mat α :=
  t.foldl
    (fun dense (key, m) =>
      dense.copyAt (s.keptBlock key.row).position (s.keptBlock key.column).position m)
    (Mat.zeros s.dimension s.dimension)

/-- The entries of the blocks as row, column and value, as they are handed over
to be sorted into columns. -/
def assembleSparse (t : ReducedBlocks α) : List (Nat × Nat × α) :=
  t.foldl
    (fun entries (key, m) =>
      let b := s.keptBlock key.row
      let c := s.keptBlock key.column
      entries ++ (List.range b.size).flatMap fun i => (List.range c.size).map fun j =>
        (b.position + i, c.position + j, m.get i j))
    []

/-! ## Vectors -/

/-- A vector to which every cell adds its transpose times a vector of its row, and
from which every coupling takes off its transpose times a vector of its
eliminated block. -/
def spread (start : Vec α) (ofRow : BlockRow α → Vec α) (ofEliminated : EliminatedBlock α → Vec α) :
    Vec α :=
  let direct := s.matrix.rows.foldl
    (fun out row => (s.keptCells row).foldl
      (fun out c => out.addAt (s.keptBlock (c.column - s.count)).position
        (c.values.tMulVec (ofRow row))) out)
    start
  s.eliminated.foldl
    (fun out e => e.couplings.foldl
      (fun out (k, c) => out.subAt (s.keptBlock k).position (c.tMulVec (ofEliminated e))) out)
    direct

/-- The right-hand side of the reduced system. -/
def walkRhs : Vec α :=
  s.spread (Vec.zeros s.dimension) (fun row => part s.rhs row.block)
    fun e => e.inverse.mulVec e.gradient

/-- A row of the remaining columns times a vector. -/
def walkImage (y : Vec α) (row : BlockRow α) : Vec α :=
  (s.keptCells row).foldl
    (fun image c => image + c.values.mulVec (part y (s.keptBlock (c.column - s.count))))
    (Vec.zeros row.block.size)

/-- The weight with which an eliminated block answers to a vector. -/
def walkWeight (y : Vec α) (e : EliminatedBlock α) : Vec α :=
  e.inverse.mulVec (e.couplings.foldl (fun sum (k, c) => sum + c.mulVec (part y (s.keptBlock k)))
    (Vec.zeros e.inverse.rows))

/-- The reduced matrix times a vector, without forming the matrix. -/
def walkReduced (y : Vec α) : Vec α :=
  s.spread ((s.d2.slice s.offset s.dimension).mulEntries y) (s.walkImage y) (s.walkWeight y)

end Elimination

end LeastSquares
