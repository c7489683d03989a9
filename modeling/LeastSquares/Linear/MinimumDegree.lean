import LeastSquares.Ascending
import LeastSquares.Linear.Relabelling
import LeastSquares.Total

/-!
# Minimum degree orders

Eliminating a column of a symmetric matrix couples all columns it was
coupled with. How much of the factor fills up therefore depends on the order
of the eliminations, and a good rule is to eliminate next the column with
the fewest columns left to couple.

The couplings are never written out. An eliminated column leaves a *front*,
the list of the columns it has coupled, and an open column knows the fronts
it belongs to and those of its first neighbours that it shares no front
with. Three observations keep the graph small:

* a front inside a newer front says nothing new and is absorbed;
* an open column whose couplings all lie in the newest front couples
  nothing when it is eliminated, so it is eliminated at once;
* open columns with the same fronts and neighbours stay alike for good, so
  one of them stands for all.

The degree of an open column is a bound: columns it meets in two fronts are
counted twice. Among columns of the same degree, the one whose degree was
set last comes first.

Two kinds of columns are never opened. One that is coupled with nothing is
eliminated at once, and one that is coupled with nearly everything would
only slow down the search: it is deferred to the end of the order.

A front is finished before the front that absorbs it, and the order lists
it that way: what a front has absorbed, its own columns, and then the rest.

The graph also keeps count of the arithmetic that a factorization in this
order takes, which decides how the factor is stored.

## Main definitions

* `EliminationGraph` — the fronts and the open columns.
* `EliminationGraph.eliminate` — the next elimination.
* `EliminationPlan`, `minimumDegree` — the order and its cost, for a pattern.
-/

namespace LeastSquares

/-- A column that is still to be eliminated. -/
structure OpenColumn where
  index : Nat
  /-- The columns it stands for, apart from itself. -/
  alike : List Nat
  /-- The fronts it belongs to, by their pivots. -/
  fronts : List Nat
  /-- The neighbours it shares no front with. -/
  neighbours : List Nat
  /-- A bound on the number of columns it is coupled with. -/
  degree : Nat
deriving DecidableEq, Repr

namespace OpenColumn

/-- Number of columns it stands for. -/
def weight (c : OpenColumn) : Nat := c.alike.length + 1

/-- All columns it stands for. -/
def all (c : OpenColumn) : List Nat := c.index :: c.alike

/-- Whether two columns have the same fronts and neighbours. -/
def isLike (c d : OpenColumn) : Bool :=
  c.fronts.isPerm d.fronts && c.neighbours.isPerm d.neighbours

/-- The columns without those that are like a later one, which stands for
them. -/
def merge : List OpenColumn → List OpenColumn
  | [] => []
  | c :: rest =>
      let merged := merge rest
      if merged.any c.isLike then
        merged.map fun d => if c.isLike d then { d with alike := d.alike ++ c.all } else d
      else c :: merged

end OpenColumn

/-- What an elimination leaves behind. -/
structure Front where
  /-- The open columns that it has coupled. -/
  members : List Nat
  /-- Number of columns it eliminated and coupled. -/
  size : Nat
  /-- The columns eliminated by it and by the fronts it has absorbed, in
  their order. -/
  sequence : List Nat
deriving DecidableEq, Repr

/-- A partly eliminated matrix. -/
structure EliminationGraph where
  /-- The open columns, those with the latest degrees first. -/
  columns : List OpenColumn
  /-- The fronts that have members, by their pivots. -/
  fronts : Table Nat Front
  /-- The sequences of the fronts without members, by their pivots. -/
  finished : Table Nat (List Nat)
  /-- The columns that come last. -/
  deferred : List Nat
  /-- Twice the number of operations so far. -/
  work : Nat
deriving DecidableEq, Repr

/-- Twice the number of operations that it takes to eliminate `inner` columns
coupled with each other and with `outer` more: one for every division and
one for every product that is subtracted on or below the diagonal. -/
def eliminationWork (inner outer : Nat) : Nat :=
  3 * (inner * outer + (inner - 1) * inner / 2)
    + (inner * outer * outer + outer * (inner - 1) * inner
      + (inner - 1) * inner * (2 * inner - 1) / 6)

namespace EliminationGraph

/-- Whether a column is deferred for being coupled with so many of `n`
columns: with more than sixteen and with more than ten times the root of
`n`. -/
def isCrowded (n degree : Nat) : Bool := 16 < degree && 100 * n < degree * degree

/-- Nothing is eliminated yet but the columns without neighbours. -/
def start (n : Nat) (pattern : List (Nat × Nat)) : EliminationGraph :=
  let neighbours := (List.range n).map fun i => Ascending.ofList <| pattern.filterMap fun (k, l) =>
    if k = i && l != i then some l else none
  let columns := neighbours.mapIdx fun i l => (⟨i, [], [], l, l.length⟩ : OpenColumn)
  let deferred := (columns.filter fun c => isCrowded n c.degree).map OpenColumn.index
  { columns := (columns.filter fun c => c.degree != 0 && !isCrowded n c.degree).reverse
    fronts := []
    finished := (columns.filter fun c => c.degree == 0).map fun c => (c.index, [c.index])
    deferred
    work := eliminationWork deferred.length 0 }

/-- The open column of an index. -/
def column? (g : EliminationGraph) (i : Nat) : Option OpenColumn :=
  g.columns.find? fun c => c.index == i

/-- Number of columns that some open columns stand for. -/
def weightOf (columns : List OpenColumn) : Nat := total (columns.map OpenColumn.weight)

/-- The open columns coupled with a column, those through its fronts first. -/
def coupled (g : EliminationGraph) (c : OpenColumn) : List OpenColumn :=
  let through := (c.fronts.filterMap fun f => Table.find? f g.fronts).flatMap Front.members
  ((through ++ c.neighbours).eraseDups.filter fun i => i != c.index).filterMap g.column?

/-- The column to eliminate next. -/
def next? (g : EliminationGraph) : Option OpenColumn :=
  match g.columns with
  | [] => none
  | c :: rest => some (rest.foldl (fun best d => if d.degree < best.degree then d else best) c)

/-- The sequences of absorbed fronts. The largest front comes last, and the
last of several. -/
def absorb (fronts : Table Nat Front) : List Nat :=
  let size := fronts.foldl (fun m f => Nat.max m f.2.size) 0
  match fronts.reverse.find? fun f => f.2.size == size with
  | none => []
  | some largest =>
      ((fronts.filter fun f => f.1 != largest.1) ++ [largest]).flatMap fun f => f.2.sequence

/-- The graph after the elimination of an open column. -/
def eliminate (g : EliminationGraph) (pivot : OpenColumn) : EliminationGraph :=
  let met := g.coupled pivot
  let isMet := fun i => met.any fun c => c.index == i
  let others := g.columns.filter fun c => c.index != pivot.index && !isMet c.index
  let outside := fun f : Front => weightOf (others.filter fun c => f.members.contains c.index)
  let isAbsorbed := fun f : Nat × Front => pivot.fronts.contains f.1 || outside f.2 == 0
  let fronts := g.fronts.filter fun f => !isAbsorbed f
  let updated := met.map fun c =>
    let mine := fronts.filter fun f => c.fronts.contains f.1
    let neighbours := others.filter fun d => c.neighbours.contains d.index
    { c with
      fronts := c.fronts.filter fun f => mine.any fun m => m.1 == f
      neighbours := c.neighbours.filter fun i => neighbours.any fun d => d.index == i
      degree := Nat.min c.degree (total (mine.map fun f => outside f.2) + weightOf neighbours) }
  let isInside := fun c : OpenColumn => c.fronts.isEmpty && c.neighbours.isEmpty
  let members := OpenColumn.merge (updated.filter fun c => !isInside c)
  let remaining := members.map fun c =>
    { c with
      fronts := pivot.index :: c.fronts.rotateLeft
      neighbours := c.neighbours.rotateLeft
      degree := Nat.min (c.degree + weightOf members - c.weight)
        (weightOf others + weightOf members - c.weight) }
  let own := pivot.alike ++ (updated.filter isInside).flatMap OpenColumn.all
  let front : Front :=
    { members := members.map OpenColumn.index
      size := pivot.weight + weightOf met
      sequence := absorb (g.fronts.filter isAbsorbed) ++ Ascending.ofList own ++ [pivot.index] }
  let outer := weightOf members + g.deferred.length
  let after :=
    { g with
      columns := remaining.reverse ++ others
      work := g.work + eliminationWork (own.length + 1) outer }
  if members.isEmpty then
    { after with fronts, finished := Table.put pivot.index front.sequence g.finished }
  else { after with fronts := Table.put pivot.index front fronts }

/-- The graph after so many eliminations, or after the last one. -/
def run : Nat → EliminationGraph → EliminationGraph
  | 0, g => g
  | fuel + 1, g =>
      match g.next? with
      | none => g
      | some pivot => run fuel (g.eliminate pivot)

/-- The columns in the order of their elimination, once none is open. -/
def order (g : EliminationGraph) : List Nat := g.finished.values.flatten ++ g.deferred

end EliminationGraph

/-- An order in which to eliminate the columns of a symmetric matrix of
dimension `n`, and what that takes. -/
structure EliminationPlan (n : Nat) where
  order : Relabelling n
  /-- Twice the number of operations. -/
  work : Nat
deriving DecidableEq, Repr

/-- The elimination of a symmetric matrix of dimension `n`, given the
positions at which it can hold something. -/
def minimumDegree (n : Nat) (pattern : List (Nat × Nat)) : EliminationPlan n :=
  let g := EliminationGraph.run n (.start n pattern)
  ⟨.ofList n g.order, g.work⟩

end LeastSquares
