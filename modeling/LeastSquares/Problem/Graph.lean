import LeastSquares.Problem.EliminationOrder
import LeastSquares.Problem.Program

/-!
# The graph of parameter blocks

Two parameter blocks are adjacent if some residual block reads both. A set
of blocks no two of which are adjacent can be eliminated block by block, and
its blocks can be optimized at the same time, so elimination orders are made
of independent sets of this graph.

## Main definitions

* `Graph` — undirected graphs of parameter blocks.
* `Graph.colour` — choosing vertices whose neighbours are then ruled out.
* `Graph.independentOrder` — a maximal independent set and the rest.
* `Program.graph`, `Program.isIndependent` — the graph of a program, and
  independence judged by the program itself.
* `Program.peeledOrder` — a division of all blocks into independent sets.
-/

namespace LeastSquares

/-- An undirected graph. Vertices and neighbours stand in handle order. -/
structure Graph where
  vertices : List BlockId := []
  neighbours : Table BlockId (List BlockId) := []
deriving DecidableEq, Repr, Inhabited

namespace Graph

/-- The graph without vertices. -/
def empty : Graph := {}

/-- Whether a block is a vertex. -/
def hasVertex (g : Graph) (v : BlockId) : Bool := g.vertices.contains v

/-- The neighbours of a vertex. -/
def neighboursOf (g : Graph) (v : BlockId) : List BlockId := (g.neighbours.find? v).getD []

/-- The number of neighbours. -/
def degree (g : Graph) (v : BlockId) : Nat := (g.neighboursOf v).length

/-- The number of vertices. -/
def numVertices (g : Graph) : Nat := g.vertices.length

/-- Adds a vertex without neighbours, unless it is there already. -/
def addVertex (g : Graph) (v : BlockId) : Graph :=
  if g.hasVertex v then g
  else ⟨Ascending.insert v g.vertices, g.neighbours.put v []⟩

/-- Lists the second block among the neighbours of the first. -/
def link (a b : BlockId) (neighbours : Table BlockId (List BlockId)) :
    Table BlockId (List BlockId) :=
  neighbours.put a (Ascending.insert b ((neighbours.find? a).getD []))

/-- Joins two distinct vertices. -/
def addEdge (g : Graph) (a b : BlockId) : Graph :=
  if a = b || !g.hasVertex a || !g.hasVertex b then g
  else { g with neighbours := link b a (link a b g.neighbours) }

/-- Takes a block off the neighbours of another one. -/
def unlink (v : BlockId) (neighbours : Table BlockId (List BlockId)) (n : BlockId) :
    Table BlockId (List BlockId) :=
  match neighbours.find? n with
  | none => neighbours
  | some ns => neighbours.put n (Ascending.erase v ns)

/-- Removes a vertex. It is taken off the lists of its own neighbours, which
are the only ones that can have it. -/
def removeVertex (g : Graph) (v : BlockId) : Graph :=
  if g.hasVertex v then
    { vertices := Ascending.erase v g.vertices
      neighbours := (g.neighboursOf v).foldl (unlink v) (g.neighbours.erase v) }
  else g

/-! ## Independent sets -/

/-- The vertices by degree, those of one degree by handle. -/
def byDegree (g : Graph) : List BlockId :=
  g.vertices.mergeSort fun a b => g.degree a ≤ g.degree b

/-- What has become of a vertex: nothing yet, a neighbour of it was chosen, or
it was chosen itself. -/
inductive Colour where
  | white
  | grey
  | black
deriving DecidableEq, Repr, Inhabited

/-- Rules a vertex out, unless it is settled. -/
def ruleOut (colours : Table BlockId Colour) (v : BlockId) : Table BlockId Colour :=
  if colours.find? v = some .white then colours.put v .grey else colours

/-- Goes through vertices and chooses those that are not settled. A choice
rules the neighbours out. -/
def colour (g : Graph) (colours : Table BlockId Colour) :
    List BlockId → List BlockId × Table BlockId Colour
  | [] => ([], colours)
  | v :: rest =>
      if colours.find? v = some .white then
        let (chosen, colours) :=
          g.colour ((g.neighboursOf v).foldl ruleOut (colours.put v .black)) rest
        (v :: chosen, colours)
      else g.colour colours rest

/-- All vertices and the size of an independent set that stands in front. Both
the set and the others stand by degree. -/
def independentOrder (g : Graph) : List BlockId × Nat :=
  let order := g.byDegree
  let (chosen, colours) := g.colour (order.foldl (fun t v => t.put v .white) []) order
  (chosen ++ order.filter fun v => colours.find? v ≠ some .black, chosen.length)

/-- The independent set that takes vertices of low degree first. -/
def independentSet (g : Graph) : List BlockId :=
  let (order, size) := g.independentOrder
  order.take size

/-- The order that peels independent sets off the graph, one group after the
other, in at most `rounds` rounds. -/
def peel : Nat → Nat → Graph → EliminationOrder → EliminationOrder
  | 0, _, _, o => o
  | rounds + 1, group, g, o =>
      if g.vertices.isEmpty then o
      else
        let chosen := g.independentSet
        peel rounds (group + 1) (chosen.foldl removeVertex g)
          (chosen.foldl (fun o v => o.add v group) o)

end Graph

namespace Program

variable {α σ : Type} [Scalar α]

/-- All pairs of a list, the earlier member first. -/
def pairs {β : Type} : List β → List (β × β)
  | [] => []
  | a :: rest => rest.map (fun b => (a, b)) ++ pairs rest

/-- The graph of the parameter blocks that are not held constant. -/
def graph (g : Program) (p : Problem α σ) : Except ModelError Graph := do
  let blocks ← g.blocks.mapM fun id => (p.block id).map fun b => (id, b.constant)
  let vertices := (blocks.filter fun b => !b.2).foldl (fun g b => g.addVertex b.1) Graph.empty
  let residuals ← g.residuals.mapM p.residual
  pure ((residuals.flatMap fun r => pairs r.blocks).foldl (fun g (a, b) => g.addEdge a b) vertices)

/-- Whether no residual block among these reads two members of a set. -/
def isIndependentIn (p : Problem α σ) (set : List BlockId) :
    List ResidualId → Except ModelError Bool
  | [] => .ok true
  | r :: rest =>
      match p.residual r with
      | .error e => .error e
      | .ok block =>
          if 1 < (block.blocks.filter set.contains).length then .ok false
          else isIndependentIn p set rest

/-- Whether no residual block of the program reads two members of a set. -/
def isIndependent (g : Program) (p : Problem α σ) (set : List BlockId) : Except ModelError Bool :=
  isIndependentIn p set g.residuals

/-- A division of the blocks that are not held constant into independent
sets. Each round removes at least one vertex, so there are no more rounds
than vertices. -/
def peeledOrder (g : Program) (p : Problem α σ) : Except ModelError EliminationOrder :=
  (g.graph p).map fun graph => Graph.peel graph.numVertices 0 graph .empty

end Program

end LeastSquares
