import LeastSquares.LinearSolver.Sparse

/-!
# Schur complements

Let the first column blocks of `A` be such that no row block reads two of
them. They are eliminated: with `E` their columns and `F` the others, the
unknowns of the other blocks solve the reduced system

  `S = FᵀF + D_f² - FᵀE (EᵀE + D_e²)⁻¹ EᵀF`,
  `S y = Fᵀb - FᵀE (EᵀE + D_e²)⁻¹ Eᵀb`,

and every eliminated block follows from `y` by itself, since `EᵀE` is block
diagonal. The reduced matrix is available block by block, assembled, and as
a product with a vector that never forms it.

## Main definitions

* `Elimination.new?` — the elimination of one system.
* `Elimination.reducedBlock?`, `Elimination.applyReduced` — the reduced
  matrix, by blocks and as an operator.
* `Elimination.reducedRhs`, `Elimination.backSubstitute` — into the reduced
  system and back.
* `schurDirect?` — the solution by a factorization of the reduced matrix.
-/

namespace LeastSquares

/-- What the elimination of one column block leaves behind. -/
structure EliminatedBlock (α : Type) where
  /-- `(EᵀE + D_e²)⁻¹` -/
  inverse : Mat α
  /-- `Eᵀb` -/
  gradient : Vec α
  /-- `EᵀF_k` for every remaining block `k` that shares a row with the
  eliminated one, in ascending order of `k`. -/
  couplings : List (Nat × Mat α)
deriving Repr

/-- A system with its first column blocks eliminated. -/
structure Elimination (α : Type) where
  matrix : BlockMatrix α
  rhs : Vec α
  /-- The squares of the regularizer. -/
  d2 : Vec α
  /-- Number of eliminated column blocks. -/
  count : Nat
  eliminated : List (EliminatedBlock α)
deriving Repr

variable {α : Type} [Scalar α]

/-- The sum of some matrices, none if there are none. -/
def sumMats : List (Mat α) → Option (Mat α)
  | [] => none
  | m :: ms => some (ms.foldl (· + ·) m)

namespace EliminatedBlock

/-- The coupling with a remaining block. -/
def coupling? (e : EliminatedBlock α) (k : Nat) : Option (Mat α) :=
  (e.couplings.find? fun c => c.1 == k).map Prod.snd

end EliminatedBlock

namespace Elimination

/-- The part of a vector that belongs to a block. -/
def part (v : Vec α) (b : Block) : Vec α := v.slice b.position b.size

/-- The elimination of column block `e`, given how many are eliminated. -/
def eliminateBlock? (a : BlockMatrix α) (b d2 : Vec α) (count e : Nat) :
    Except LinearError (EliminatedBlock α) :=
  let column := a.column e
  let rows := a.rows.filterMap fun row => (row.cell? e).map fun cell => (row, cell)
  let ete := rows.foldl (fun acc (_, cell) => acc + cell.tMul cell)
    (Mat.diagonal (part d2 column))
  let gradient := rows.foldl (fun acc (row, cell) => acc + cell.tMulVec (part b row.block))
    (Vec.zeros column.size)
  let couplings := (List.range (a.columns.length - count)).filterMap fun k =>
    (sumMats (rows.filterMap fun (row, cell) =>
      (row.cell? (count + k)).map fun other => cell.tMul other)).map fun m => (k, m)
  match Cholesky.factor? .quotient ete with
  | none => .error (.indefiniteBlock e)
  | some c => .ok ⟨c.inverse, gradient, couplings⟩

/-- The first row block that reads more than one of the first `count` column
blocks, and how many it reads. -/
def coupledRow? (a : BlockMatrix α) (count : Nat) : Option (Nat × Nat) :=
  (a.rows.mapIdx fun i row =>
    (i, (row.cells.takeWhile fun c => c.column < count).length)).find? fun p => 1 < p.2

/-- The elimination of the first `count` column blocks. -/
def new? (a : BlockMatrix α) (b d2 : Vec α) (count : Nat) :
    Except LinearError (Elimination α) := do
  if a.columns.length < count then
    throw (.tooManyEliminated count a.columns.length)
  if b.size ≠ a.numRows ∨ d2.size ≠ a.numCols then
    throw (.schurSizes a.numRows a.numCols b.size d2.size)
  match coupledRow? a count with
  | some (row, blocks) => throw (.coupledRow row blocks)
  | none =>
      let eliminated ← (List.range count).mapM fun e => eliminateBlock? a b d2 count e
      pure ⟨a, b, d2, count, eliminated⟩

variable (s : Elimination α)

/-- Number of eliminated columns. -/
def offset : Nat := total ((s.matrix.columns.take s.count).map Block.size)

/-- Number of remaining columns. -/
def dimension : Nat := s.matrix.numCols - s.offset

/-- The remaining column blocks, with positions in the reduced system. -/
def remaining : List Block :=
  (s.matrix.columns.drop s.count).map fun b => ⟨b.size, b.position - s.offset⟩

/-- The regularizer of a remaining block. -/
def regularizerOf (b : Block) : Vec α := s.d2.slice (s.offset + b.position) b.size

/-- The cell of a row in a remaining block. -/
def remainingCell? (row : BlockRow α) (k : Nat) : Option (Mat α) := row.cell? (s.count + k)

/-- The right-hand side of the reduced system. -/
def reducedRhs : Vec α :=
  Vec.concat <| s.remaining.mapIdx fun k b =>
    let direct := s.matrix.rows.foldl
      (fun acc row =>
        match s.remainingCell? row k with
        | some cell => acc + cell.tMulVec (part s.rhs row.block)
        | none => acc)
      (Vec.zeros b.size)
    s.eliminated.foldl
      (fun acc e =>
        match e.coupling? k with
        | some c => acc - c.tMulVec (e.inverse.mulVec e.gradient)
        | none => acc)
      direct

/-- The block of the reduced matrix in the given block row and column, none
if nothing contributes to it. -/
def reducedBlock? (k l : Nat) : Option (Mat α) :=
  let diagonal :=
    if k = l then
      match s.remaining[k]? with
      | some b => [Mat.diagonal (s.regularizerOf b)]
      | none => []
    else []
  let direct := s.matrix.rows.filterMap fun row =>
    match s.remainingCell? row k, s.remainingCell? row l with
    | some c, some d => some (c.tMul d)
    | _, _ => none
  let through := s.eliminated.filterMap fun e =>
    match e.coupling? k, e.coupling? l with
    | some c, some d => some (-(c.tMul (e.inverse.mul d)))
    | _, _ => none
  sumMats (diagonal ++ direct ++ through)

/-- The reduced matrix by blocks: for every block row, its block columns. -/
def reducedBlocks : List (List (Option (Mat α))) :=
  let n := s.remaining.length
  (List.range n).map fun k => (List.range n).map fun l => s.reducedBlock? k l

/-- The diagonal blocks of the reduced matrix. -/
def diagonalBlocks : List (Block × Mat α) :=
  s.remaining.mapIdx fun k b => (b, (s.reducedBlock? k k).getD (Mat.zeros b.size b.size))

/-- The assembled reduced matrix. -/
def assemble : Mat α :=
  let blocks := s.reducedBlocks
  let n := s.dimension
  let rowOf := fun (row : List (Option (Mat α))) (i : Nat) =>
    (Vec.concat <| (row.zip s.remaining).map fun (values, b) =>
      match values with
      | some m => Vec.ofFn b.size fun j => m.get i j
      | none => Vec.zeros b.size).entries
  { rows := n
    cols := n
    data := ((blocks.zip s.remaining).flatMap fun (row, b) =>
      (List.range b.size).map (rowOf row)).toArray }

/-- The positions at which the reduced matrix can hold something. -/
def reducedPattern : List (Nat × Nat) :=
  (s.reducedBlocks.zip s.remaining).flatMap fun (blocks, b) =>
    (List.range b.size).flatMap fun i =>
      (blocks.zip s.remaining).flatMap fun (values, c) =>
        if values.isSome then
          (List.range c.size).map fun j => (b.position + i, c.position + j)
        else []

/-- The reduced matrix times a vector, without forming the matrix. -/
def applyReduced (y : Vec α) : Vec α :=
  let blocks := s.remaining
  let images := s.matrix.rows.map fun row =>
    (row, (blocks.mapIdx fun k b => (k, b)).foldl
      (fun acc (k, b) =>
        match s.remainingCell? row k with
        | some cell => acc + cell.mulVec (part y b)
        | none => acc)
      (Vec.zeros row.block.size))
  let weights := s.eliminated.map fun e =>
    (e, e.inverse.mulVec (e.couplings.foldl
      (fun acc (k, c) => acc + c.mulVec (part y (blocks.getD k default)))
      (Vec.zeros e.inverse.rows)))
  Vec.concat <| blocks.mapIdx fun k b =>
    let direct := images.foldl
      (fun acc (row, image) =>
        match s.remainingCell? row k with
        | some cell => acc + cell.tMulVec image
        | none => acc)
      ((s.regularizerOf b).mulEntries (part y b))
    weights.foldl
      (fun acc (e, weight) =>
        match e.coupling? k with
        | some c => acc - c.tMulVec weight
        | none => acc)
      direct

/-- The solution of the whole system from that of the reduced one. -/
def backSubstitute (y : Vec α) : Vec α :=
  let blocks := s.remaining
  let eliminated := s.eliminated.map fun e =>
    e.inverse.mulVec (e.couplings.foldl
      (fun acc (k, c) => acc - c.mulVec (part y (blocks.getD k default))) e.gradient)
  Vec.concat (eliminated ++ [y])

end Elimination

/-- The solution by a factorization of the reduced matrix. With `kept` the
factorization is sparse and works from an analysis, which is also returned;
the flag tells the two apart. -/
def schurDirect? (sparse : Bool) (kept : Option SparsityAnalysis) (count : Nat)
    (a : BlockMatrix α) (b : Vec α) (d : Option (Vec α)) :
    Outcome LinearError (Vec α) × Option SparsityAnalysis :=
  match (do
    let d2 ← regularizerSquared d a.numCols
    Elimination.new? a b d2 count : Except LinearError (Elimination α)) with
  | .error e => (.error (.error e), kept)
  | .ok s =>
      let finish := fun y : Vec α =>
        let x := s.backSubstitute y
        if x.isFinite then Except.ok x else Except.error (Stop.error LinearError.singular)
      if s.dimension = 0 then (finish (Vec.zeros 0), kept)
      else if sparse then
        let pattern := s.reducedPattern
        let analysis := SparsityAnalysis.reuse kept s.dimension pattern
        ((analysis.solve? pattern s.assemble s.reducedRhs).bind finish, some analysis)
      else
        match Cholesky.factor? .quotient s.assemble with
        | none => (.error (.error .singular), kept)
        | some c => (finish (c.solve s.reducedRhs), kept)

end LeastSquares
