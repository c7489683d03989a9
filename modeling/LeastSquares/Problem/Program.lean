import LeastSquares.Fault
import LeastSquares.Problem.Basic

/-!
# Programs

A program is a choice and an arrangement of a problem's blocks. Reducing and
reordering change the program and never the problem. A program lays the
values of its parameter blocks out one after the other as a state vector,
and the steps of their tangent spaces as a step vector; the place of each
block in both can be noted on the block itself.

## Main definitions

* `Program.ofProblem` — all live blocks in their natural order.
* `Program.gather`, `Program.scatter` — reading the values as a state vector
  and writing them back.
* `Program.write` — writing them back block by block.
* `Program.setOffsets`, `Program.isValid` — noting and checking places.
-/

namespace LeastSquares

/-- Parameter blocks and residual blocks in order. -/
structure Program where
  blocks : List BlockId
  residuals : List ResidualId
deriving DecidableEq, Repr, Inhabited

namespace Program

variable {α σ : Type} [Scalar α]

/-- All live blocks of a problem. -/
def ofProblem (p : Problem α σ) : Program := ⟨p.blockIds, p.residualIds⟩

/-- The sum of a measure over parameter blocks. -/
def sumBlocks (measure : ParameterBlock α → Nat) (p : Problem α σ) :
    List BlockId → Except ModelError Nat
  | [] => .ok 0
  | id :: rest =>
      match p.block id with
      | .error e => .error e
      | .ok b => (sumBlocks measure p rest).map (measure b + ·)

/-- Size of the state vector. -/
def numParameters (g : Program) (p : Problem α σ) : Except ModelError Nat :=
  sumBlocks ParameterBlock.size p g.blocks

/-- Size of the step vector. -/
def numEffectiveParameters (g : Program) (p : Problem α σ) : Except ModelError Nat :=
  sumBlocks ParameterBlock.localSize p g.blocks

/-- Number of residuals. -/
def numResiduals (g : Program) (p : Problem α σ) : Except ModelError Nat :=
  (g.residuals.mapM fun r => (p.residual r).map fun r => r.cost.numResiduals).map total

/-! ## Places -/

/-- A place in the layout of a program. -/
structure Place where
  index : Nat
  stateOffset : Nat
  deltaOffset : Nat
deriving DecidableEq, Repr, Inhabited

namespace Place

/-- The place of the first block. -/
def first : Place := ⟨0, 0, 0⟩

/-- The place after that of a block. -/
def next (place : Place) (b : ParameterBlock α) : Place :=
  ⟨place.index + 1, place.stateOffset + b.size, place.deltaOffset + b.localSize⟩

/-- The block with its place noted. -/
def note (place : Place) (b : ParameterBlock α) : ParameterBlock α :=
  { b with
    index := some place.index
    stateOffset := place.stateOffset
    deltaOffset := place.deltaOffset }

/-- Whether a block has this place noted. -/
def isNoted (place : Place) (b : ParameterBlock α) : Bool :=
  b.index == some place.index && b.stateOffset == place.stateOffset &&
    b.deltaOffset == place.deltaOffset

end Place

/-- Notes the places of blocks from a place on, up to the first handle that is
not live. -/
def setOffsetsFrom (place : Place) : List BlockId → Problem α σ →
    Except ModelError Unit × Problem α σ
  | [], p => (.ok (), p)
  | id :: rest, p =>
      match p.block id with
      | .error e => (.error e, p)
      | .ok b => setOffsetsFrom (place.next b) rest (p.modifyBlock id place.note)

/-- Notes the place of every parameter block on the block. Blocks in front of
a handle that is not live keep their notes. -/
def setOffsets (g : Program) (p : Problem α σ) : Except ModelError Unit × Problem α σ :=
  setOffsetsFrom .first g.blocks p

/-- Whether blocks have the places from a place on noted. -/
def isValidFrom (place : Place) (p : Problem α σ) : List BlockId → Bool
  | [] => true
  | id :: rest =>
      match p.block? id with
      | none => false
      | some b => place.isNoted b && isValidFrom (place.next b) p rest

/-- Whether the noted places are those of this program. -/
def isValid (g : Program) (p : Problem α σ) : Bool := isValidFrom .first p g.blocks

/-! ## State vectors -/

/-- The values of all parameter blocks. -/
def gather (g : Program) (p : Problem α σ) : Except ModelError (Vec α) :=
  (g.blocks.mapM p.values).map Vec.concat

/-- Writes the entries of a vector from an offset on into blocks. -/
def scatterFrom (state : Vec α) (offset : Nat) : List BlockId → Problem α σ → Problem α σ
  | [], p => p
  | id :: rest, p =>
      match p.block? id with
      | none => scatterFrom state offset rest p
      | some b =>
          scatterFrom state (offset + b.size) rest
            (p.modifyBlock id fun b => { b with values := state.slice offset b.size })

/-- Writes a state vector into the parameter blocks. Everything is checked
before the first block is written. -/
def scatter (g : Program) (state : Vec α) (p : Problem α σ) : Except ModelError (Problem α σ) :=
  match g.numParameters p with
  | .error e => .error e
  | .ok n =>
      if state.size = n then .ok (scatterFrom state 0 g.blocks p)
      else .error (.stateSize state.size n)

/-- Gives the entries of a vector from an offset on to blocks, one block after
the other, up to the first one that does not take them. Blocks in front of it
keep what they were given. -/
def writeFrom (state : Vec α) (offset : Nat) : List BlockId → Problem α σ →
    InPlace (Stop ModelError) Unit (Problem α σ)
  | [], p => (.ok (), p)
  | id :: rest, p =>
      match p.block id with
      | .error e => (.error (.error e), p)
      | .ok b =>
          if state.size < offset + b.size then (.error (.fault .noSuchPlace), p)
          else
            match p.setValues id (state.slice offset b.size) with
            | .error e => (.error (.error e), p)
            | .ok q => writeFrom state (offset + b.size) rest q

/-- Writes a state vector into the parameter blocks of a problem in place:
first the size of the vector is checked, then block after block is written. -/
def write (g : Program) (state : Vec α) (p : Problem α σ) :
    InPlace (Stop ModelError) Unit (Problem α σ) :=
  match g.numParameters p with
  | .error e => (.error (.error e), p)
  | .ok n =>
      if state.size ≠ n then (.error (.error (.stateSize state.size n)), p)
      else writeFrom state 0 g.blocks p

end Program

end LeastSquares
