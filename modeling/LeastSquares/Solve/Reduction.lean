import LeastSquares.Problem.Graph
import LeastSquares.Solve.ResidualOrder

/-!
# Reducing a program

A minimizer works on the part of a problem that can change. Residual blocks
that read only constant parameter blocks are evaluated once and their cost
is set aside; parameter blocks that are constant, or that no other residual
block reads, are dropped. What is left is arranged for the linear solver:
parameter blocks in elimination order, and for a Schur solver the residual
blocks by the eliminated block they read.

A Schur solver needs something to eliminate. If the caller has put all
blocks into one group, the group to eliminate is found as an independent
set. If the caller's first group was dropped altogether, the closest solver
that eliminates nothing takes over.

## Main definitions

* `Program.dropFixed`, `Program.removeFixed` — setting constant parts aside,
  in place and as a result.
* `Program.checkOrder`, `Program.reorderBlocks`, `Program.applyOrder` —
  whether an order fits, and arranging blocks by it.
* `ReducedProgram.ofProgram`, `ReducedProgram.create` — the whole reduction, the
  second with the places of the blocks written into the problem.
-/

namespace LeastSquares

/-- A program without its constant part. -/
structure Removal (α : Type) where
  program : Program
  /-- The parameter blocks that were dropped. -/
  dropped : List BlockId
  /-- Cost of the residual blocks that were dropped. -/
  fixedCost : α
deriving Repr

/-- An order without some blocks. -/
def EliminationOrder.removeAll (o : EliminationOrder) (ids : List BlockId) : EliminationOrder :=
  ids.foldl EliminationOrder.remove o

namespace Program

variable {α σ : Type} [Scalar α]

/-! ## Constant parts -/

/-- The blocks that a residual block reads and that are not held constant. -/
def freeBlocksOf (p : Problem α σ) (r : ResidualId) : Except ModelError (List BlockId) := do
  let block ← p.residual r
  let blocks ← block.blocks.mapM fun id => (p.block id).map fun b => (id, b.constant)
  pure ((blocks.filter fun b => !b.2).map Prod.fst)

/-- The cost of a residual block that reads constant blocks only. Whatever
goes wrong, the error names the position of the block. -/
def fixedCostOf (p : Problem α σ) (position : Nat) (r : ResidualId) :
    ExceptT ModelError (Calls σ) α :=
  ExceptT.mk do
    match ← (p.evaluateResidual r true false).run with
    | .ok evaluation => pure (.ok evaluation.cost)
    | .error _ => pure (.error (.fixedCostFailed position))

/-- Separates residual blocks: the cost of those that read constant blocks
only, on top of a cost, and the others with the free blocks they read. -/
def separate (p : Problem α σ) (position : Nat) (cost : α) :
    List ResidualId → ExceptT ModelError (Calls σ) (α × List (ResidualId × List BlockId))
  | [] => pure (cost, [])
  | r :: rest => do
      let free ← ExceptT.mk (pure (freeBlocksOf p r))
      if free.isEmpty then
        let fixed ← fixedCostOf p position r
        separate p (position + 1) (cost + fixed) rest
      else
        let (cost, kept) ← separate p (position + 1) cost rest
        pure (cost, (r, free) :: kept)

/-- Takes the constant part out of the program, and the parameter blocks that
are dropped out of an order if there is one, and answers the cost of what was
taken out. A program that is left with blocks of one kind and none of the
other is a fault. -/
def dropFixed (g : Program) (o : Option EliminationOrder) (p : Problem α σ) :
    Calls σ (InPlace (Stop ModelError) α (Program × Option EliminationOrder)) := do
  match ← (separate p 0 0 g.residuals).run with
  | .error e => pure (.error (.error e), g, o)
  | .ok (fixedCost, kept) =>
      let used := kept.flatMap Prod.snd
      let blocks := g.blocks.filter used.contains
      let dropped := g.blocks.filter fun id => !used.contains id
      let left := (⟨blocks, kept.map Prod.fst⟩, o.map (·.removeAll dropped))
      if kept.isEmpty == blocks.isEmpty then pure (.ok fixedCost, left)
      else pure (.error (.fault .unbalancedProgram), left)

/-- The program without its constant part. -/
def removeFixed (g : Program) (p : Problem α σ) : ExceptT ModelError (Calls σ) (Removal α) :=
  ExceptT.mk do
    match (← g.dropFixed none p).result with
    | .ok (fixedCost, left, _) =>
        pure (.ok ⟨left, g.blocks.filter fun id => !left.blocks.contains id, fixedCost⟩)
    | .error (.error e) => pure (.error e)
    | .error (.fault f) => throw f

/-! ## Elimination orders -/

/-- The first member of a group for which a test fails, with the group. -/
def firstMember? (test : BlockId → Bool) (o : EliminationOrder) : Option (Nat × BlockId) :=
  o.groups.findSome? fun (group, members) =>
    (members.find? fun id => !test id).map fun id => (group, id)

/-- Whether an order has all blocks of the problem and no others, and whether
a Schur solver can eliminate its first group. -/
def checkOrder (g : Program) (p : Problem α σ) (o : EliminationOrder)
    (kind : LinearSolverKind) : Except ModelError Unit :=
  match firstMember? p.contains o with
  | some (group, id) => .error (.foreignMember group id)
  | none =>
      if o.numElements ≠ p.numBlocks then
        .error (.orderingCoverage o.numElements p.numBlocks)
      else
        match kind.isSchur, o.groups with
        | true, (group, members) :: _ :: _ =>
            match g.isIndependent p members with
            | .error e => .error e
            | .ok true => .ok ()
            | .ok false => .error (.dependentFirstGroup kind group)
        | _, _ => .ok ()

/-- Puts the parameter blocks in the order of an order that has exactly these
blocks. -/
def reorderBlocks (g : Program) (o : EliminationOrder) : InPlace ModelError Unit Program :=
  if o.numElements ≠ g.blocks.length then
    (.error (.orderingSize o.numElements g.blocks.length), g)
  else
    match firstMember? g.blocks.contains o with
    | some (group, id) => (.error (.notInProgram id group), g)
    | none => (.ok (), { g with blocks := o.toList })

/-- The program with its parameter blocks in the order of an order that has
exactly these blocks. -/
def applyOrder (g : Program) (o : EliminationOrder) : Except ModelError Program :=
  (g.reorderBlocks o).result.map Prod.snd

/-- The order that eliminates an independent set and keeps the rest. -/
def schurOrder (g : Program) (p : Problem α σ) : Except ModelError EliminationOrder :=
  (g.graph p).map fun graph =>
    let chosen := graph.independentSet
    EliminationOrder.ofList
      (graph.independentOrder.1.map fun id => (id, if chosen.contains id then 0 else 1))

end Program

/-- The solver and preconditioner that take over from a Schur solver with
nothing to eliminate. -/
def withoutSchur (kind : LinearSolverKind) (preconditioner : PreconditionerKind) :
    LinearSolverKind × PreconditionerKind :=
  match kind.schurFallback? with
  | none => (kind, preconditioner)
  | some fallback =>
      if fallback = .conjugateGradients && !preconditioner.suitsNormalEquations then
        (fallback, .jacobi)
      else (fallback, preconditioner)

/-- A program arranged for a linear solver. -/
structure ReducedProgram (α : Type) where
  program : Program
  /-- Cost of the residual blocks that were set aside. -/
  fixedCost : α
  linearSolver : LinearSolverKind
  preconditioner : PreconditionerKind
  /-- Elimination order of the parameter blocks of the program. -/
  order : EliminationOrder
deriving Repr

namespace ReducedProgram

variable {α σ : Type} [Scalar α]

/-- Number of blocks that the linear solver eliminates. -/
def numEliminated (r : ReducedProgram α) : Nat :=
  if r.linearSolver.isSchur then r.order.firstGroupSize else 0

/-- Solver and preconditioner for what is left of an order whose first group
had the given number. -/
def chooseSolver (kind : LinearSolverKind) (preconditioner : PreconditionerKind)
    (firstGroup : Option Nat) (o : EliminationOrder) : LinearSolverKind × PreconditionerKind :=
  if kind.isSchur && firstGroup.any fun group => o.groupSize group == 0 then
    withoutSchur kind preconditioner
  else (kind, preconditioner)

/-- The order for a linear solver: a single group does not tell a Schur solver
what to eliminate. -/
def chooseOrder (p : Problem α σ) (g : Program) (kind : LinearSolverKind)
    (o : EliminationOrder) : Except ModelError EliminationOrder :=
  if kind.isSchur && o.numGroups ≤ 1 then g.schurOrder p else .ok o

/-- The residual blocks of an arranged program in the order that the solver
needs. -/
def chooseRows (p : Problem α σ) (g : Program) (kind : LinearSolverKind)
    (o : EliminationOrder) : Outcome ModelError Program :=
  if kind.isSchur then (g.orderResiduals p o.firstGroupSize).map Prod.snd else .ok g

/-- Arranges a program that is not empty. -/
def arrange (p : Problem α σ) (removal : Removal α) (kind : LinearSolverKind)
    (preconditioner : PreconditionerKind) (firstGroup : Option Nat) (o : EliminationOrder) :
    Outcome ModelError (ReducedProgram α) := do
  let (linearSolver, preconditioner) := chooseSolver kind preconditioner firstGroup o
  let order ← Outcome.ofExcept (chooseOrder p removal.program linearSolver o)
  let arranged ← Outcome.ofExcept (removal.program.applyOrder order)
  let program ← chooseRows p arranged linearSolver order
  pure ⟨program, removal.fixedCost, linearSolver, preconditioner, order⟩

/-- An outcome as a step of a computation that calls users' functions. -/
def liftOutcome {β : Type} : Outcome ModelError β → ExceptT ModelError (Calls σ) β
  | .ok b => pure b
  | .error (.error e) => throw e
  | .error (.fault f) => ExceptT.lift (throw f)

/-- What is left of a program without its constant part, arranged for a linear
solver. The order has the blocks of the program. -/
def ofProgram (p : Problem α σ) (g : Program) (o : EliminationOrder) (kind : LinearSolverKind)
    (preconditioner : PreconditionerKind) : ExceptT ModelError (Calls σ) (ReducedProgram α) := do
  let removal ← g.removeFixed p
  let remaining := o.removeAll removal.dropped
  if removal.program.blocks.isEmpty then
    pure ⟨removal.program, removal.fixedCost, kind, preconditioner, remaining⟩
  else
    let firstGroup := o.groups.head?.map Prod.fst
    liftOutcome (arrange p removal kind preconditioner firstGroup remaining)

/-- Reduces a program and arranges it for a linear solver, and writes the
places of the blocks that are left into the problem. -/
def create (p : Problem α σ) (g : Program) (o : EliminationOrder) (kind : LinearSolverKind)
    (preconditioner : PreconditionerKind) :
    Calls σ (InPlace ModelError (ReducedProgram α) (Problem α σ)) := do
  match ← (ofProgram p g o kind preconditioner).run with
  | .error e => pure (.error e, p)
  | .ok reduced =>
      let (noted, p) := reduced.program.setOffsets p
      pure (noted.map fun _ => reduced, p)

end ReducedProgram

end LeastSquares
