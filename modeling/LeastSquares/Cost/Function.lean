import LeastSquares.Fault
import LeastSquares.Linear.Mat

/-!
# Cost functions

A cost function maps the values of the parameter blocks it reads to a
vector of residuals and, on request, to one Jacobian per block. It may also
give nothing, which tells the minimizer that the point is not admissible.

What a cost function answers may depend on what it was asked before: the
users' functions share a state `σ`, and every call may change it. Beside it
runs one number of the library's own, the count of Jacobian blocks that
failed a gradient check. The two form the `Tally`, and `Calls` is the monad
of computations that call users' functions. A cost function whose answers
ignore the state makes the state invisible.

## Main definitions

* `CostFunction` — the interface.
* `Calls` — computations that call cost functions.
* `CostFunction.Probing` — computations beside a copy of a point.
* `CostFunction.numericJacobians` — Jacobians by central differences.
* `CostFunction.evaluateChecked` — evaluation with a gradient check beside
  it.
-/

namespace LeastSquares

/-- What a cost function answers. -/
structure CostOutput (α : Type) where
  residuals : Vec α
  /-- One matrix per parameter block, in the coordinates of the block. -/
  jacobians : Option (List (Mat α))
deriving Repr

/-- A cost function of some parameter blocks. -/
structure CostFunction (α σ : Type) where
  numResiduals : Nat
  /-- Sizes of the parameter blocks, in order. -/
  sizes : List Nat
  /-- The answer for the values of the blocks; the flag asks for Jacobians. -/
  evaluate : List (Vec α) → Bool → σ → Option (CostOutput α) × σ

/-- What calls of users' functions change. -/
structure Tally (σ : Type) where
  user : σ
  /-- Number of Jacobian blocks that failed a gradient check. -/
  mismatches : Nat
deriving Repr

/-- Computations that call users' functions. What a computation changed
before it met a fault stays changed. -/
abbrev Calls (σ : Type) := EStateM Fault (Tally σ)

namespace CostFunction

variable {α σ : Type} [Scalar α]

/-- One call. -/
def call (f : CostFunction α σ) (point : List (Vec α)) (jacobians : Bool) :
    Calls σ (Option (CostOutput α)) := fun t =>
  let (output, user) := f.evaluate point jacobians t.user
  .ok output { t with user }

/-! ## Central differences

One copy of the point is moved along one coordinate after the other. A
coordinate is put back before the next one is moved, so that the cost function
is never asked far away from the point.
-/

/-- The point with another value in one coordinate. -/
def moved (point : List (Vec α)) (block coordinate : Nat) (value : α) : List (Vec α) :=
  point.modify block fun v => v.set coordinate value

/-- The distance over which a coordinate is moved: a fraction of its
magnitude, but no less than the same fraction of one. -/
def stepLength (relativeStep value : α) : α :=
  relativeStep * Scalar.max (Scalar.abs value) 1

/-- The residuals at a moved point. -/
def residualsAt (f : CostFunction α σ) (point : List (Vec α)) : OptionT (Calls σ) (Vec α) :=
  OptionT.mk do
    let output ← f.call point false
    pure (output.map CostOutput.residuals)

/-- Computations beside a copy of a point, which they move. -/
abbrev Probing (α σ : Type) := StateT (List (Vec α)) (OptionT (Calls σ))

/-- The copy gets another value in one coordinate. -/
def move (block coordinate : Nat) (value : α) : Probing α σ Unit :=
  modify fun copy => moved copy block coordinate value

/-- The residuals at the copy. -/
def probe (f : CostFunction α σ) : Probing α σ (Vec α) := do
  let copy ← get
  f.residualsAt copy

/-- The derivative of the residuals in one coordinate, by a central
difference; none if one of the two evaluations gives nothing. Both have to
give the declared number of residuals. -/
def probeColumn (f : CostFunction α σ) (relativeStep : α) (point : List (Vec α))
    (block coordinate : Nat) : Probing α σ (Vec α) := do
  let value := (point.getD block default).get coordinate
  let h := stepLength relativeStep value
  move block coordinate (value + h)
  let forward ← f.probe
  move block coordinate (value - h)
  let backward ← f.probe
  move block coordinate value
  if forward.size = f.numResiduals ∧ backward.size = f.numResiduals then
    pure ((forward - backward).map fun d => d / (2.0 * h))
  else
    StateT.lift (OptionT.lift (throw .sizeMismatch))

/-- The derivative in one block. -/
def probeJacobian (f : CostFunction α σ) (relativeStep : α) (point : List (Vec α))
    (block : Nat) : Probing α σ (Mat α) := do
  let n := (point.getD block default).size
  let columns ← (List.range n).mapM fun j => f.probeColumn relativeStep point block j
  pure (Mat.ofFn f.numResiduals n fun i j => (columns.getD j default).get i)

/-- The derivatives in all blocks, in order, none if an evaluation gives
nothing. -/
def numericJacobians (f : CostFunction α σ) (relativeStep : α) (point : List (Vec α)) :
    Calls σ (Option (List (Mat α))) :=
  (((List.range point.length).mapM fun block =>
    f.probeJacobian relativeStep point block).run' point).run

end CostFunction

/-! ## Gradient checks -/

/-- Settings of a gradient check. -/
structure GradientCheck (α : Type) where
  /-- Step of the central differences, relative to a coordinate. -/
  relativeStep : α
  /-- Largest difference that still counts as agreement, relative to the
  larger of the two derivatives and one. -/
  relativePrecision : α
deriving Repr

namespace GradientCheck

variable {α σ : Type} [Scalar α]

/-- The difference of two derivatives, relative to the larger one and to
one. -/
def relativeError (a b : α) : α :=
  Scalar.abs (a - b) / Scalar.max (Scalar.max (Scalar.abs a) (Scalar.abs b)) 1

/-- The largest relative difference over the entries of the first matrix. -/
def worstError (analytic numeric : Mat α) : α :=
  (List.range analytic.rows).foldl
    (fun worst i => (List.range analytic.cols).foldl
      (fun worst j =>
        let e := relativeError (analytic.get i j) (numeric.get i j)
        if worst < e then e else worst) worst) 0

/-- Whether the second matrix has every entry that the first one has. -/
def covers (analytic numeric : Mat α) : Bool :=
  analytic.rows == 0 || analytic.cols == 0 ||
    (analytic.rows ≤ numeric.rows && analytic.cols ≤ numeric.cols)

/-- Counts the blocks that disagree, in order. A block of which the
differences do not know every entry cannot be compared. -/
def countMismatches (check : GradientCheck α) : List (Mat α × Mat α) → Calls σ Unit
  | [] => pure ()
  | (analytic, numeric) :: rest => do
      if covers analytic numeric then
        if check.relativePrecision < worstError analytic numeric then
          modify fun t => { t with mismatches := t.mismatches + 1 }
        countMismatches check rest
      else throw .sizeMismatch

/-- Compares Jacobians with central differences. Where the differences cannot
be formed, nothing is compared. -/
def compare (check : GradientCheck α) (f : CostFunction α σ) (point : List (Vec α))
    (jacobians : List (Mat α)) : Calls σ Unit := do
  match ← f.numericJacobians check.relativeStep point with
  | none => pure ()
  | some numeric => check.countMismatches (jacobians.zip numeric)

end GradientCheck

namespace CostFunction

variable {α σ : Type} [Scalar α]

/-- The answer of a cost function, after its Jacobians, if it gave any, have
been compared with central differences. -/
def evaluateChecked (f : CostFunction α σ) (check : Option (GradientCheck α))
    (point : List (Vec α)) (jacobians : Bool) : Calls σ (Option (CostOutput α)) := do
  let output ← f.call point jacobians
  match check, output with
  | some check, some ⟨_, some js⟩ => check.compare f point js
  | _, _ => pure ()
  pure output

end CostFunction

end LeastSquares
