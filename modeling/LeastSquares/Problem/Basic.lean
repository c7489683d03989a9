import LeastSquares.Cost.Evaluation
import LeastSquares.Problem.Error
import LeastSquares.Total

/-!
# Problems

A problem owns parameter blocks, which hold the values to be optimized, and
residual blocks, which connect them. Parameter blocks live in slots. A slot
whose block was removed is used again for a later block, under a new
generation, so that old handles do not reach the new block. Residual blocks
are numbered by order of addition and a number is never used again.

An operation that cannot be done returns an error and no problem, so that a
failed operation cannot have changed anything. The one exception to this
shape is adding a block whose manifold does not fit: the slot was taken and
given back, which uses up a generation.

## Main definitions

* `Problem.addBlock`, `Problem.addBlockOn`, `Problem.removeBlock` — parameter
  blocks.
* `Problem.addResidual`, `Problem.removeResidual` — residual blocks.
* `Problem.evaluateResidual`, `Problem.evaluateCost` — costs at the current
  values.
-/

namespace LeastSquares

/-- A parameter block. The last three fields are the place that a program
has given to the block; no index means that none has. -/
structure ParameterBlock (α : Type) [Scalar α] where
  values : Vec α
  manifold : Option (Manifold α) := none
  constant : Bool := false
  index : Option Nat := none
  stateOffset : Nat := 0
  deltaOffset : Nat := 0

namespace ParameterBlock

variable {α : Type} [Scalar α]

/-- Number of coordinates. -/
def size (b : ParameterBlock α) : Nat := b.values.size

/-- Number of degrees of freedom. -/
def localSize (b : ParameterBlock α) : Nat :=
  match b.manifold with
  | some m => m.tangent
  | none => b.size

/-- The block on one line, without its values. -/
def describe (b : ParameterBlock α) : String :=
  let index := match b.index with
    | some i => s!"Some({i})"
    | none => "None"
  s!"ParameterBlock \x7b size: {b.size}, local_size: {b.localSize}, constant: {b.constant}, " ++
    s!"index: {index} \x7d"

end ParameterBlock

/-- A residual block: a cost function, the blocks it reads, and a loss. -/
structure ResidualBlock (α σ : Type) where
  blocks : List BlockId
  cost : CostFunction α σ
  loss : Option (Loss α)

/-- A place for a parameter block. -/
structure Slot (α : Type) [Scalar α] where
  generation : UInt32
  block : Option (ParameterBlock α)

/-- A problem. -/
structure Problem (α σ : Type) [Scalar α] where
  slots : Array (Slot α) := #[]
  /-- The empty slots, the one emptied last in front. -/
  freeSlots : List Nat := []
  residuals : Array (Option (ResidualBlock α σ)) := #[]
  numBlocks : Nat := 0
  numResidualBlocks : Nat := 0

namespace Problem

variable {α σ : Type} [Scalar α]

/-- The problem without blocks. -/
def empty : Problem α σ := {}

/-! ## Looking up -/

/-- The block of a handle, if the handle is live. -/
def block? (p : Problem α σ) (id : BlockId) : Option (ParameterBlock α) :=
  match p.slots[id.slot.toNat]? with
  | some slot => if slot.generation = id.generation then slot.block else none
  | none => none

/-- The block of a handle. -/
def block (p : Problem α σ) (id : BlockId) : Except ModelError (ParameterBlock α) :=
  match p.block? id with
  | some b => .ok b
  | none => .error (.unknownBlock id)

/-- Whether a handle is live. -/
def contains (p : Problem α σ) (id : BlockId) : Bool := (p.block? id).isSome

/-- The residual block of a handle, if the handle is live. -/
def residual? (p : Problem α σ) (id : ResidualId) : Option (ResidualBlock α σ) :=
  (p.residuals[id.index]?).join

/-- The residual block of a handle. -/
def residual (p : Problem α σ) (id : ResidualId) : Except ModelError (ResidualBlock α σ) :=
  match p.residual? id with
  | some r => .ok r
  | none => .error (.unknownResidual id)

/-- The values of a block. -/
def values (p : Problem α σ) (id : BlockId) : Except ModelError (Vec α) :=
  (p.block id).map ParameterBlock.values

/-- Whether a block is held constant. -/
def isConstant (p : Problem α σ) (id : BlockId) : Except ModelError Bool :=
  (p.block id).map ParameterBlock.constant

/-- The live handles with their blocks, by slot. -/
def blocks (p : Problem α σ) : List (BlockId × ParameterBlock α) :=
  (p.slots.toList.mapIdx fun i slot =>
    slot.block.map fun b => (⟨UInt32.ofNat i, slot.generation⟩, b)).filterMap id

/-- The live handles, by slot. -/
def blockIds (p : Problem α σ) : List BlockId := p.blocks.map Prod.fst

/-- The live residual handles, in order of addition. -/
def residualIds (p : Problem α σ) : List ResidualId :=
  (p.residuals.toList.mapIdx fun i r => r.map fun _ => ResidualId.mk i).filterMap id

/-- Number of coordinates of all blocks. -/
def numParameters (p : Problem α σ) : Nat := total (p.blocks.map fun b => b.2.size)

/-- Number of residuals of all residual blocks. -/
def numResiduals (p : Problem α σ) : Nat :=
  total (p.residuals.toList.map fun r => (r.map fun r => r.cost.numResiduals).getD 0)

/-! ## Parameter blocks -/

/-- The problem with the block of a live handle changed. -/
def modifyBlock (p : Problem α σ) (id : BlockId)
    (f : ParameterBlock α → ParameterBlock α) : Problem α σ :=
  { p with slots := p.slots.modify id.slot.toNat fun slot => { slot with block := slot.block.map f } }

/-- Adds a block with the given values: in the slot emptied last, or in a new
one. -/
def addBlock (p : Problem α σ) (values : Vec α) : BlockId × Problem α σ :=
  match p.freeSlots with
  | slot :: rest =>
      let generation := ((p.slots[slot]?).map Slot.generation).getD 0
      (⟨UInt32.ofNat slot, generation⟩,
        { p with
          slots := p.slots.modify slot fun s => { s with block := some { values } }
          freeSlots := rest
          numBlocks := p.numBlocks + 1 })
  | [] =>
      (⟨UInt32.ofNat p.slots.size, 0⟩,
        { p with
          slots := p.slots.push ⟨0, some { values }⟩
          numBlocks := p.numBlocks + 1 })

/-- The problem without a residual block that is known to be live. -/
def dropResidual (p : Problem α σ) (id : ResidualId) : Problem α σ :=
  { p with
    residuals := p.residuals.setIfInBounds id.index none
    numResidualBlocks := p.numResidualBlocks - 1 }

/-- The residual blocks that read a parameter block. -/
def dependents (p : Problem α σ) (id : BlockId) : List ResidualId :=
  p.residualIds.filter fun r =>
    match p.residual? r with
    | some r => r.blocks.contains id
    | none => false

/-- Removes a block and every residual block that reads it. -/
def removeBlock (p : Problem α σ) (id : BlockId) : Except ModelError (Problem α σ) := do
  let _ ← p.block id
  let p := (p.dependents id).foldl dropResidual p
  pure
    { p with
      slots := p.slots.modify id.slot.toNat fun s => ⟨s.generation + 1, none⟩
      freeSlots := id.slot.toNat :: p.freeSlots
      numBlocks := p.numBlocks - 1 }

/-- Puts a block on a manifold of its size, or takes it off any manifold. -/
def setManifold (p : Problem α σ) (id : BlockId) (manifold : Option (Manifold α)) :
    Except ModelError (Problem α σ) := do
  let b ← p.block id
  match manifold with
  | some m => if m.ambient ≠ b.size then throw (.manifoldSize m.ambient id b.size)
  | none => pure ()
  pure (p.modifyBlock id fun b => { b with manifold })

/-- Adds a block on a manifold. A block that does not fit is removed again,
so the problem returned with an error differs only in its slots. -/
def addBlockOn (p : Problem α σ) (values : Vec α) (manifold : Manifold α) :
    Except ModelError BlockId × Problem α σ :=
  let (id, added) := p.addBlock values
  match added.setManifold id (some manifold) with
  | .ok p => (.ok id, p)
  | .error e =>
      match added.removeBlock id with
      | .ok p => (.error e, p)
      | .error e => (.error e, added)

/-- Holds a block constant, or lets it vary. -/
def setConstant (p : Problem α σ) (id : BlockId) (constant : Bool) :
    Except ModelError (Problem α σ) := do
  let _ ← p.block id
  pure (p.modifyBlock id fun b => { b with constant })

/-- Gives a block other values, as many as it has. -/
def setValues (p : Problem α σ) (id : BlockId) (values : Vec α) :
    Except ModelError (Problem α σ) := do
  let b ← p.block id
  if b.size ≠ values.size then throw (.valueCount id b.size values.size)
  pure (p.modifyBlock id fun b => { b with values })

/-! ## Residual blocks -/

/-- Why a cost function cannot read these blocks, given the blocks in front
of them and paired with the sizes it declares. -/
def refusal? (p : Problem α σ) (seen : List BlockId) : List (BlockId × Nat) → Option ModelError
  | [] => none
  | (id, size) :: rest =>
      if id ∈ seen then some (.repeatedBlock id)
      else
        match p.block? id with
        | none => some (.unknownBlock id)
        | some b =>
            if b.size ≠ size then some (.blockSize id b.size size)
            else p.refusal? (id :: seen) rest

/-- Adds a residual block. Its parameter blocks have to be live, distinct and
of the declared sizes. -/
def addResidual (p : Problem α σ) (cost : CostFunction α σ) (loss : Option (Loss α))
    (blocks : List BlockId) : Except ModelError (ResidualId × Problem α σ) :=
  if cost.sizes.length ≠ blocks.length then
    .error (.blockCount cost.sizes.length blocks.length)
  else
    match p.refusal? [] (blocks.zip cost.sizes) with
    | some e => .error e
    | none =>
        .ok (⟨p.residuals.size⟩,
          { p with
            residuals := p.residuals.push (some ⟨blocks, cost, loss⟩)
            numResidualBlocks := p.numResidualBlocks + 1 })

/-- Removes a residual block. -/
def removeResidual (p : Problem α σ) (id : ResidualId) : Except ModelError (Problem α σ) := do
  let _ ← p.residual id
  pure (p.dropResidual id)

/-! ## Costs -/

/-- Evaluates a residual block at the current values. The first flag applies
the loss, the second one asks for Jacobians. -/
def evaluateResidual (p : Problem α σ) (id : ResidualId) (applyLoss wantJacobians : Bool) :
    ExceptT ModelError (Calls σ) (ResidualEvaluation α) := do
  let r ← liftExcept (p.residual id)
  let point ← liftExcept (r.blocks.mapM p.values)
  let evaluation ← ExceptT.lift
    (r.cost.residualEvaluation (if applyLoss then r.loss else none) none point wantJacobians)
  match evaluation with
  | some evaluation => pure evaluation
  | none => throw (.evaluationFailed id)
where
  /-- A check of the problem as a step of an evaluation. -/
  liftExcept {β : Type} (x : Except ModelError β) : ExceptT ModelError (Calls σ) β :=
    ExceptT.mk (pure x)

/-- The sum of the costs of some residual blocks, on top of a cost. -/
def sumCosts (p : Problem α σ) (cost : α) : List ResidualId → ExceptT ModelError (Calls σ) α
  | [] => pure cost
  | id :: rest => do
      let evaluation ← p.evaluateResidual id true false
      p.sumCosts (cost + evaluation.cost) rest

/-- The cost of the problem at its current values. -/
def evaluateCost (p : Problem α σ) : ExceptT ModelError (Calls σ) α := p.sumCosts 0 p.residualIds

end Problem

end LeastSquares
