import LeastSquares.Problem.Basic

/-!
# Changing a problem in place

A problem that is changed in place has no copy of what it was. If a change
fails, then what it wrote before stays written, so every check stands in front
of the first write that it guards, or the change takes back what it wrote.

The changes are those that return a changed problem, taken apart into looking
up, checking and writing. Removing a block removes the residual blocks that
read it one after the other, and every one of these removals could fail. Adding
a block on a manifold adds the block first and looks at the manifold then; if
that fails, the block is removed again.

## Main definitions

* `Edit` — changes of a problem that can fail.
* `Edit.addBlock`, `Edit.addBlockOn`, `Edit.removeBlock` — parameter blocks.
* `Edit.addResidual`, `Edit.removeResidual` — residual blocks.
-/

namespace LeastSquares

/-- A change of a problem in place. What it wrote before it failed stays. -/
abbrev Edit (α σ : Type) [Scalar α] := EStateM ModelError (Problem α σ)

namespace Edit

variable {α σ : Type} [Scalar α]

/-- Looks something up. -/
def find {β : Type} (lookUp : Problem α σ → Except ModelError β) : Edit α σ β := do
  match lookUp (← get) with
  | .ok b => pure b
  | .error e => throw e

/-! ## Residual blocks -/

/-- Adds a residual block, once its parameter blocks have been counted and
looked up. -/
def addResidual (cost : CostFunction α σ) (loss : Option (Loss α)) (blocks : List BlockId) :
    Edit α σ ResidualId := do
  if cost.sizes.length ≠ blocks.length then
    throw (.blockCount cost.sizes.length blocks.length)
  find fun p => (p.refusal? [] (blocks.zip cost.sizes)).elim (.ok ()) .error
  let index := (← get).residuals.size
  modify fun p => { p with residuals := p.residuals.push (some ⟨blocks, cost, loss⟩) }
  modify fun p => { p with numResidualBlocks := p.numResidualBlocks + 1 }
  pure ⟨index⟩

/-- Removes a residual block. -/
def removeResidual (id : ResidualId) : Edit α σ Unit := do
  let _ ← find (·.residual id)
  modify (·.dropResidual id)

/-! ## Parameter blocks -/

/-- Adds a block with the given values. -/
def addBlock (values : Vec α) : Edit α σ BlockId := do
  let (id, p) := (← get).addBlock values
  set p
  pure id

/-- Removes a block: first the residual blocks that read it, one by one, then
the block from its slot. -/
def removeBlock (id : BlockId) : Edit α σ Unit := do
  let _ ← find (·.block id)
  ((← get).dependents id).forM removeResidual
  modify fun p => { p with
    slots := p.slots.modify id.slot.toNat fun s => ⟨s.generation + 1, none⟩ }
  modify fun p => { p with freeSlots := id.slot.toNat :: p.freeSlots }
  modify fun p => { p with numBlocks := p.numBlocks - 1 }

/-- Puts a block on a manifold of its size, or takes it off any manifold. -/
def setManifold (id : BlockId) (manifold : Option (Manifold α)) : Edit α σ Unit := do
  let b ← find (·.block id)
  if let some m := manifold then
    if m.ambient ≠ b.size then throw (.manifoldSize m.ambient id b.size)
  modify (·.modifyBlock id fun b => { b with manifold })

/-- Adds a block and puts it on a manifold. If the manifold does not fit, then
the block is removed and the error raised again. -/
def addBlockOn (values : Vec α) (manifold : Manifold α) : Edit α σ BlockId := do
  let id ← addBlock values
  try setManifold id (some manifold)
  catch e =>
    removeBlock id
    throw e
  pure id

/-- Holds a block constant, or lets it vary. -/
def setConstant (id : BlockId) (constant : Bool) : Edit α σ Unit := do
  let _ ← find (·.block id)
  modify (·.modifyBlock id fun b => { b with constant })

/-- Gives a block other values, as many as it has. -/
def setValues (id : BlockId) (values : Vec α) : Edit α σ Unit := do
  let b ← find (·.block id)
  if b.size ≠ values.size then throw (.valueCount id b.size values.size)
  modify (·.modifyBlock id fun b => { b with values })

end Edit

end LeastSquares
