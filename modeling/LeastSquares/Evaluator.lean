import LeastSquares.Linear.BlockMatrix
import LeastSquares.Problem.Program

/-!
# Evaluators

An evaluator turns a state vector into cost, residuals, gradient and
Jacobian. It takes what it needs from the problem when it is built: the cost
functions, losses and manifolds, and the values of blocks that the program
leaves out, which it holds at these values for good. So the problem may
change while the evaluator is in use.

Jacobians have one column block for every block of the program, of the size
of its tangent space: the derivative by coordinates is multiplied by the
derivative of the manifold.

All cost functions are called, in the order of the program, before the first
failure is looked for. That order can be observed by cost functions that
keep a state.

## Main definitions

* `Evaluator.create` — the evaluator of a program.
* `Evaluator.evaluate` — one evaluation.
* `Evaluator.plus` — moving a state by a step, block by block.
* `Evaluator.restrictTo`, `Evaluator.restrictTo?` — the evaluator in which
  only one block moves, the second for a state that may be too short.
-/

namespace LeastSquares

/-- What the order of the rows of a Jacobian promises. -/
inductive JacobianLayout where
  /-- Nothing. -/
  | general
  /-- Rows that read one of the first `eliminated` column blocks come first,
  in ascending order of that block, and each reads only one of them. -/
  | schur (eliminated : Nat)
deriving DecidableEq, Repr, Inhabited

namespace JacobianLayout

/-- The layout that a linear solver needs. -/
def ofSolver (kind : LinearSolverKind) (eliminated : Nat) : JacobianLayout :=
  if kind.isSchur && 0 < eliminated then .schur eliminated else .general

/-- The first row out of place, and why. The rows are given by the column
blocks they read, `last` is the eliminated block of the row before, and the
flag says that a row without one has been seen. -/
def misfit? (eliminated : Nat) (row : Nat) (last : Option Nat) (seenFree : Bool) :
    List (List Nat) → Option ModelError
  | [] => none
  | columns :: rest =>
      match columns.filter (· < eliminated) with
      | [] => misfit? eliminated (row + 1) last true rest
      | e :: others =>
          if !others.isEmpty then some (.coupledRow row)
          else if seenFree || last.any (e < ·) then some (.misplacedRow row)
          else misfit? eliminated (row + 1) (some e) seenFree rest

/-- Why rows do not have this layout. -/
def misfitOf? (layout : JacobianLayout) (rows : List (List Nat)) : Option ModelError :=
  match layout with
  | general => none
  | schur eliminated => misfit? eliminated 0 none false rows

end JacobianLayout

/-- A parameter block as part of the state. -/
structure FreeBlock (α : Type) [Scalar α] where
  id : BlockId
  stateOffset : Nat
  size : Nat
  deltaOffset : Nat
  localSize : Nat
  manifold : Option (Manifold α)

namespace FreeBlock

variable {α : Type} [Scalar α]

/-- The values of the block in a state. -/
def valuesIn (b : FreeBlock α) (x : Vec α) : Vec α := x.slice b.stateOffset b.size

/-- The values after a step. -/
def plus (b : FreeBlock α) (values delta : Vec α) : Except Fault (Vec α) :=
  match b.manifold with
  | some m => m.plus values delta
  | none => .ok (values + delta)

/-- A derivative by coordinates as a derivative by the tangent space. -/
def project (b : FreeBlock α) (values : Vec α) (jacobian : Mat α) : Except Fault (Mat α) :=
  match b.manifold with
  | some m => (m.plusJacobian values).map jacobian.mul
  | none => .ok jacobian

end FreeBlock

/-- Where a cost function finds the values of a block: in the state, as its
free block of the given index, or nowhere but here. -/
inductive BlockSource (α : Type) where
  | free (column : Nat)
  | constant (values : Vec α)
deriving Repr

/-- A residual block as the evaluator sees it. -/
structure ResidualTerm (α σ : Type) where
  id : ResidualId
  cost : CostFunction α σ
  loss : Option (Loss α)
  sources : List (BlockSource α)

namespace ResidualTerm

variable {α σ : Type}

/-- The column blocks that the term reads. -/
def columns (t : ResidualTerm α σ) : List Nat :=
  t.sources.filterMap fun
    | .free k => some k
    | .constant _ => none

end ResidualTerm

/-- The counts of evaluations that succeeded, with the time they took in
nanoseconds. -/
structure EvaluationCounts where
  residual : Nat := 0
  jacobian : Nat := 0
  residualTime : Nat := 0
  jacobianTime : Nat := 0
deriving DecidableEq, Repr, Inhabited

namespace EvaluationCounts

/-- One more evaluation. -/
def record (c : EvaluationCounts) (withJacobian : Bool) (time : Nat) : EvaluationCounts :=
  if withJacobian then
    { c with jacobian := c.jacobian + 1, jacobianTime := c.jacobianTime + time }
  else
    { c with residual := c.residual + 1, residualTime := c.residualTime + time }

end EvaluationCounts

/-- A program ready for evaluation. -/
structure Evaluator (α σ : Type) [Scalar α] where
  blocks : List (FreeBlock α)
  terms : List (ResidualTerm α σ)
  layout : JacobianLayout
  check : Option (GradientCheck α)
  /-- The Jacobian with zeros in all its cells. -/
  template : BlockMatrix α

/-- The result of an evaluation. -/
structure Evaluation (α : Type) where
  cost : α
  residuals : Vec α
  /-- The derivative of the cost by the step vector. -/
  gradient : Option (Vec α)
  jacobian : Option (BlockMatrix α)
deriving Repr

/-- The contribution of one term: cost, residuals, and the cells of its
Jacobian row with their column blocks. -/
structure TermEvaluation (α : Type) where
  cost : α
  residuals : Vec α
  cells : List (Cell α)
deriving Repr

namespace Evaluator

variable {α σ : Type} [Scalar α]

/-- Size of the state vector. -/
def numParameters (e : Evaluator α σ) : Nat := total (e.blocks.map FreeBlock.size)

/-- Size of the step vector. -/
def numEffectiveParameters (e : Evaluator α σ) : Nat := total (e.blocks.map FreeBlock.localSize)

/-- Number of residuals. -/
def numResiduals (e : Evaluator α σ) : Nat := total (e.terms.map fun t => t.cost.numResiduals)

/-- Sizes of the column blocks. -/
def localSizes (e : Evaluator α σ) : List Nat := e.blocks.map FreeBlock.localSize

/-- Handles of the free blocks. -/
def blockIds (e : Evaluator α σ) : List BlockId := e.blocks.map FreeBlock.id

/-! ## Building an evaluator -/

/-- The free blocks of a program, laid out from the given offsets on. -/
def freeBlocks (p : Problem α σ) (stateOffset deltaOffset : Nat) :
    List BlockId → Except ModelError (List (FreeBlock α))
  | [] => .ok []
  | id :: rest =>
      match p.block id with
      | .error e => .error e
      | .ok b =>
          (freeBlocks p (stateOffset + b.size) (deltaOffset + b.localSize) rest).map
            (⟨id, stateOffset, b.size, deltaOffset, b.localSize, b.manifold⟩ :: ·)

/-- The source of a block's values: its column if the program has it. -/
def source (p : Problem α σ) (blocks : List BlockId) (id : BlockId) :
    Except ModelError (BlockSource α) :=
  match id.lastPlace? blocks with
  | some k => .ok (.free k)
  | none => (p.values id).map .constant

/-- The term of a residual block. -/
def term (p : Problem α σ) (blocks : List BlockId) (id : ResidualId) :
    Except ModelError (ResidualTerm α σ) := do
  let r ← p.residual id
  let sources ← r.blocks.mapM (source p blocks)
  pure ⟨id, r.cost, r.loss, sources⟩

/-- The Jacobian of some terms with zeros in all its cells. -/
def templateOf (localSizes : List Nat) (terms : List (ResidualTerm α σ)) : BlockMatrix α :=
  BlockMatrix.ofStructure localSizes (terms.map fun t => (t.cost.numResiduals, t.columns))

/-- The evaluator of a program, with the layout that a linear solver needs. -/
def create (p : Problem α σ) (g : Program) (kind : LinearSolverKind) (eliminated : Nat)
    (check : Option (GradientCheck α)) : Except ModelError (Evaluator α σ) := do
  let blocks ← freeBlocks p 0 0 g.blocks
  let terms ← g.residuals.mapM (term p g.blocks)
  let layout := JacobianLayout.ofSolver kind eliminated
  match layout.misfitOf? (terms.map ResidualTerm.columns) with
  | some e => throw e
  | none =>
      pure ⟨blocks, terms, layout, check, templateOf (blocks.map FreeBlock.localSize) terms⟩

/-- A source of a term when every block but one is held at its value in a
state. -/
def restrictSource (e : Evaluator α σ) (column : Nat) (x : Vec α) :
    BlockSource α → BlockSource α
  | .free k =>
      if k = column then .free 0
      else
        match e.blocks[k]? with
        | some b => .constant (b.valuesIn x)
        | none => .constant (Vec.zeros 0)
  | .constant values => .constant values

/-- The evaluator in which only the block of one column moves, and all others
are held at their values in a state. Only terms that read the block take
part. -/
def restrictTo (e : Evaluator α σ) (column : Nat) (x : Vec α) : Evaluator α σ :=
  let blocks := (e.blocks[column]?).toList.map fun b => { b with stateOffset := 0, deltaOffset := 0 }
  let terms := (e.terms.filter fun t => t.columns.contains column).map fun t =>
    { t with sources := t.sources.map (e.restrictSource column x) }
  ⟨blocks, terms, .general, e.check, templateOf (blocks.map FreeBlock.localSize) terms⟩

/-- Whether a state of size `n` has the values of the block of a column. -/
def reaches (e : Evaluator α σ) (n column : Nat) : Bool :=
  match e.blocks[column]? with
  | some b => b.stateOffset + b.size ≤ n
  | none => true

/-- The columns whose blocks are held when only the block of one column
moves: those that share a term with it. -/
def heldColumns (e : Evaluator α σ) (column : Nat) : List Nat :=
  (e.terms.filter fun t => t.columns.contains column).flatMap fun t =>
    t.columns.filter fun k => k != column

/-- The evaluator in which only the block of one column moves, from a state
that may be too short. It has to hold the values of the blocks that share a
term with the moving one. -/
def restrictTo? (e : Evaluator α σ) (column : Nat) (x : Vec α) :
    Except Fault (Evaluator α σ) :=
  if (e.heldColumns column).all (e.reaches x.size) then .ok (e.restrictTo column x)
  else .error .sizeMismatch

/-! ## Evaluating -/

/-- The values that a source stands for in a state. -/
def valuesOf (e : Evaluator α σ) (x : Vec α) : BlockSource α → Vec α
  | .free k =>
      match e.blocks[k]? with
      | some b => b.valuesIn x
      | none => Vec.zeros 0
  | .constant values => values

/-- The point at which a term is evaluated in a state. -/
def pointOf (e : Evaluator α σ) (x : Vec α) (t : ResidualTerm α σ) : List (Vec α) :=
  t.sources.map (e.valuesOf x)

/-- The cells of a term's Jacobian row. -/
def cellsOf (e : Evaluator α σ) :
    List (BlockSource α × Mat α × Vec α) → Except Fault (List (Cell α))
  | [] => .ok []
  | (.constant _, _, _) :: rest => e.cellsOf rest
  | (.free k, jacobian, values) :: rest =>
      match e.blocks[k]? with
      | none => e.cellsOf rest
      | some b =>
          match b.project values jacobian with
          | .error f => .error f
          | .ok m => (e.cellsOf rest).map (⟨k, m⟩ :: ·)

/-- The evaluation of one term, none if its cost function has no usable
answer. -/
def evaluateTerm (e : Evaluator α σ) (x : Vec α) (wantJacobian : Bool) (t : ResidualTerm α σ) :
    Calls σ (Option (TermEvaluation α)) := do
  let point := e.pointOf x t
  match ← t.cost.residualEvaluation t.loss e.check point wantJacobian with
  | none => pure none
  | some r =>
      match e.cellsOf (t.sources.zip ((r.jacobians.getD []).zip point)) with
      | .ok cells => pure (some ⟨r.cost, r.residuals, cells⟩)
      | .error f => throw f

/-- The Jacobian with the cells of all terms. -/
def fill (template : BlockMatrix α) (terms : List (TermEvaluation α)) : BlockMatrix α :=
  { template with
    rows := List.zipWith
      (fun row t => t.cells.foldl (fun row c => row.setCell c.column c.values) row)
      template.rows terms }

/-- The evaluation that the terms add up to, none if the cost is not
finite. -/
def assemble (e : Evaluator α σ) (wantJacobian : Bool) (terms : List (TermEvaluation α)) :
    Option (Evaluation α) :=
  let cost := terms.foldl (fun cost t => cost + t.cost) 0
  if Scalar.isFinite cost then
    let residuals := Vec.concat (terms.map TermEvaluation.residuals)
    if wantJacobian then
      let jacobian := fill e.template terms
      some ⟨cost, residuals, some (jacobian.leftMultiply residuals), some jacobian⟩
    else some ⟨cost, residuals, none, none⟩
  else none

/-- Cost, residuals and, if asked for, gradient and Jacobian at a state; none
if the state has another size, if a term has no usable answer, or if the
cost is not finite. -/
def evaluate (e : Evaluator α σ) (x : Vec α) (wantJacobian : Bool) :
    Calls σ (Option (Evaluation α)) :=
  if x.size ≠ e.numParameters then pure none
  else do
    let results ← e.terms.mapM (e.evaluateTerm x wantJacobian)
    pure ((results.mapM id).bind (e.assemble wantJacobian))

/-- The state after the steps of some blocks. -/
def plusBlocks (x delta : Vec α) : List (FreeBlock α) → Vec α → Except Fault (Vec α)
  | [], out => .ok out
  | b :: rest, out =>
      match b.plus (b.valuesIn x) (delta.slice b.deltaOffset b.localSize) with
      | .error f => .error f
      | .ok values => plusBlocks x delta rest (out.splice b.stateOffset values)

/-- The state after a step. Both vectors have to reach every block. -/
def plus (e : Evaluator α σ) (x delta : Vec α) : Except Fault (Vec α) :=
  if x.size < e.numParameters || delta.size < e.numEffectiveParameters then
    .error .sizeMismatch
  else plusBlocks x delta e.blocks x

end Evaluator

end LeastSquares
