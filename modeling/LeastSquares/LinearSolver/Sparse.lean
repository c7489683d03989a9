import LeastSquares.Linear.MinimumDegree
import LeastSquares.Linear.PanelLayout
import LeastSquares.LinearSolver.Direct

/-!
# Sparse linear solvers

A sparse factorization looks at the pattern of its matrix before it looks at
the numbers. The analysis chooses the order of the eliminations and with it
the layout of the factor. It is kept for the next system and is used again
whenever that system has the same dimension.

For a matrix of the analysed pattern the layout has exactly the slots that
the factor needs, and the result is the Cholesky factor of the relabelled
matrix. A matrix of another pattern is still factored into the places that
there are, and an entry without a place is a fault.

How that goes depends on how the factor is stored, in slots or in panels. In
slots it is built row by row. Entries of a column take its slots in turn, and
every slot counts for the row that the layout has given it, so the result
need not be a factor of the matrix at all. A panel is built at once, with
every entry at its own row, so a matrix that fits is factored correctly.

## Main definitions

* `SparsityAnalysis.reuse` — which analysis a factorization works from.
* `SparsityAnalysis.hasPanels` — how the factor is stored.
* `SlotFactor.row?`, `SlotFactor.solve` — a factor in the slots of a layout.
* `panelFactor?` — a factor in the panels of a layout.
* `SparsityAnalysis.solve?` — the solution of a symmetric system.
* `sparseNormal?` — the solution of the normal equations.
-/

namespace LeastSquares

/-- What a sparse factorization knows about a matrix before it sees the
numbers: the positions that can hold something, and the order in which the
columns are eliminated. -/
structure SparsityAnalysis where
  dimension : Nat
  pattern : List (Nat × Nat)
  plan : EliminationPlan dimension
deriving DecidableEq, Repr

namespace SparsityAnalysis

/-- The analysis of a pattern. -/
def ofPattern (n : Nat) (pattern : List (Nat × Nat)) : SparsityAnalysis :=
  ⟨n, pattern, minimumDegree n pattern⟩

/-- The analysis from which a matrix of dimension `n` is factored: the kept
one if its dimension is the same, a new one otherwise. -/
def reuse (kept : Option SparsityAnalysis) (n : Nat) (pattern : List (Nat × Nat)) :
    SparsityAnalysis :=
  match kept with
  | some analysis => if analysis.dimension = n then analysis else ofPattern n pattern
  | none => ofPattern n pattern

/-- The order in which the columns are eliminated. -/
def order (s : SparsityAnalysis) : Relabelling s.dimension := s.plan.order

/-- The layout of the factor. -/
def layout (s : SparsityAnalysis) : FactorLayout :=
  .ofTriangle s.dimension (lowerTriangle s.order s.pattern)

/-- Whether the factor is stored in panels: it is if the elimination takes
more than forty operations for every slot. -/
def hasPanels (s : SparsityAnalysis) : Bool := 80 * s.layout.rows.size < s.plan.work

end SparsityAnalysis

/-! ## Factors in slots -/

/-- A factor in the slots of a layout. -/
structure SlotFactor (α : Type) where
  slots : Vec α
  /-- The slot that the next entry of each column takes. -/
  next : List Nat
  /-- The row in progress. What an earlier row has left behind is still
  there, and the entries of the next row are added to it. -/
  row : Vec α
deriving Repr

namespace SlotFactor

variable {α : Type} [Scalar α] (layout : FactorLayout)

/-- Nothing is factored yet. -/
def start : SlotFactor α where
  slots := Vec.zeros layout.rows.size
  next := (List.range layout.size).map fun k => layout.start k + 1
  row := Vec.zeros layout.size

/-- The elimination of column `j` from the row in progress; `pivot` is what
is left of the diagonal entry. -/
def eliminate (f : SlotFactor α) (pivot : α) (j : Nat) : Except Fault (SlotFactor α × α) :=
  let entry := RootDivision.reciprocal.divide (f.row.get j) (f.slots.get (layout.start j))
  let slot := f.next.getD j 0
  let filled := layout.span (layout.start j + 1) slot
  if slot < f.slots.size then
    .ok
      ({ slots := f.slots.set slot entry
         next := f.next.set j (slot + 1)
         row := filled.foldl
          (fun row (p, i) => row.set i (row.get i - f.slots.get p * entry)) (f.row.set j 0) },
        pivot - entry * entry)
  else .error .patternMismatch

/-- The elimination of some columns, one after the other. -/
def eliminateAll (f : SlotFactor α) (pivot : α) : List Nat → Except Fault (SlotFactor α × α)
  | [] => .ok (f, pivot)
  | j :: rest =>
      match f.eliminate layout pivot j with
      | .error e => .error e
      | .ok (f, pivot) => f.eliminateAll pivot rest

/-- Row `k` of the factor, given the entries of the matrix in that row by
their columns. -/
def row? (f : SlotFactor α) (k : Nat) (entries : List (Nat × α)) :
    Outcome LinearError (SlotFactor α) := do
  match layout.reach? k (entries.map Prod.fst) [] with
  | none => throw (.fault .patternMismatch)
  | some columns =>
      let row := entries.foldl (fun row (j, a) => row.set j (row.get j + a)) f.row
      let (f, pivot) ← Outcome.ofFault
        ({ f with row := row.set k 0 }.eliminateAll layout (row.get k) columns)
      if Cholesky.isPivot pivot then
        pure { f with slots := f.slots.set (layout.start k) (Scalar.sqrt pivot) }
      else throw (.error .singular)

/-- The rows of the factor from `k` on. -/
def rows? (entriesOf : Nat → List (Nat × α)) :
    List Nat → SlotFactor α → Outcome LinearError (SlotFactor α)
  | [], f => .ok f
  | k :: rest, f =>
      match f.row? layout k (entriesOf k) with
      | .error e => .error e
      | .ok f => rows? entriesOf rest f

/-- The solution of the factored system. -/
def solve (f : SlotFactor α) (b : Vec α) : Vec α :=
  let columns := List.range layout.size
  let divide := fun (a : α) (k : Nat) =>
    RootDivision.reciprocal.divide a (f.slots.get (layout.start k))
  let y := columns.foldl
    (fun y k =>
      let a := divide (y.get k) k
      (layout.below k).foldl (fun y (p, i) => y.set i (y.get i - f.slots.get p * a))
        (y.set k a))
    b
  columns.foldr
    (fun k x =>
      let known := (layout.below k).foldl (fun sum (p, i) => sum + f.slots.get p * x.get i) 0
      x.set k (divide (x.get k - known) k))
    y

end SlotFactor

/-! ## Factors in panels -/

variable {α : Type} [Scalar α]

/-- The factor of a matrix in the panels of a layout, given the positions of
its entries on and below the diagonal. A misfit shows when the columns before
its panel are factored. -/
def panelFactor? (layout : FactorLayout) (triangle : List (Nat × Nat)) (h : Mat α) :
    Outcome LinearError (Cholesky α) := do
  match layout.misfit? triangle with
  | none =>
      match Cholesky.factor? .reciprocal h with
      | none => throw (.error .singular)
      | some c => pure c
  | some p =>
      match Cholesky.columns? .reciprocal p.first h with
      | none => throw (.error .singular)
      | some _ => throw (.fault .patternMismatch)

/-! ## Solving -/

namespace SparsityAnalysis

/-- The solution of a relabelled system whose matrix has another pattern than
the analysed one. There is room for as many entries as the analysed matrix
has. -/
def solveOther? (s : SparsityAnalysis) (pattern : List (Nat × Nat)) (h : Mat α) (rhs : Vec α) :
    Outcome LinearError (Vec α) := do
  let layout := s.layout
  let triangle := lowerTriangle s.order pattern
  if s.pattern.length < triangle.length then throw (.fault .patternMismatch)
  if s.hasPanels then
    let c ← panelFactor? layout triangle h
    return c.solve rhs
  let entriesOf := fun k => triangle.filterMap fun (column, row) =>
    if row = k then some (column, h.get row column) else none
  let f ← SlotFactor.rows? layout entriesOf (List.range s.dimension) (.start layout)
  pure (f.solve layout rhs)

/-- The solution of a symmetric system with a matrix of the given pattern.
Every unusable result is reported as a singular matrix. -/
def solve? (s : SparsityAnalysis) (pattern : List (Nat × Nat)) (h : Mat α) (rhs : Vec α) :
    Outcome LinearError (Vec α) := do
  let matrix := h.relabel s.order
  let b := rhs.relabel s.order
  let y ←
    if s.pattern = pattern then
      match Cholesky.factor? .reciprocal matrix with
      | none => throw (.error .singular)
      | some c => pure (c.solve b)
    else s.solveOther? pattern matrix b
  let x := y.unlabel s.order
  if x.isFinite then pure x else throw (.error .singular)

end SparsityAnalysis

/-- The solution of the normal equations by a sparse factorization, and the
analysis to keep. The right-hand side has to reach every row. -/
def sparseNormal? (kept : Option SparsityAnalysis) (a : BlockMatrix α) (b : Vec α)
    (d : Option (Vec α)) : Outcome LinearError (Vec α) × Option SparsityAnalysis :=
  match regularizerSquared d a.numCols with
  | .error e => (.error (.error e), kept)
  | .ok d2 =>
      match a.leftMultiply? b with
      | .error f => (.error (.fault f), kept)
      | .ok rhs =>
          let pattern := a.normalPattern
          let analysis := SparsityAnalysis.reuse kept a.numCols pattern
          (analysis.solve? pattern (normalMatrix a d2) rhs, some analysis)

end LeastSquares
