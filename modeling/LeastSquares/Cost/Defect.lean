import LeastSquares.Cost.Function
import LeastSquares.Named

/-!
# Defective cost functions

A solver has to survive users' functions that misbehave: that give nothing,
the wrong number of residuals, values that are no numbers, or Jacobians that
are missing, misshapen or wrong. This module makes a defective cost function
out of a sound one. It behaves until a given number of calls of a given
sort has come in, and is defective in every such call after that.

## Main definitions

* `Defect` — the ways of misbehaving.
* `Trigger` — which calls count.
* `CostFunction.defective` — the cost function with a defect.
-/

namespace LeastSquares

/-- What is wrong with an answer. -/
inductive Defect where
  /-- There is none. -/
  | fail
  /-- One residual is missing, and all others are zero. -/
  | short
  /-- The first residual is no number. -/
  | nan
  /-- The first residual is unbounded. -/
  | infinite
  /-- The Jacobians that were asked for are missing. -/
  | noJacobians
  /-- The last Jacobian is missing. -/
  | fewJacobians
  /-- The first Jacobian is zero and has a row too many. -/
  | jacobianShape
  /-- The first entry of the first Jacobian is no number. -/
  | nanJacobian
  /-- The first Jacobian is too large by half. -/
  | scaledJacobian
  /-- The Jacobians have the wrong sign. -/
  | negatedJacobians
  /-- The Jacobians are zero. -/
  | zeroJacobians
deriving DecidableEq, Repr, Inhabited

namespace Defect

/-- All defects. -/
def all : List Defect :=
  [fail, short, nan, infinite, noJacobians, fewJacobians, jacobianShape, nanJacobian,
    scaledJacobian, negatedJacobians, zeroJacobians]

/-- The name by which a defect is asked for. -/
def name : Defect → String
  | fail => "fail"
  | short => "short"
  | nan => "nan"
  | infinite => "inf"
  | noJacobians => "no_jacobians"
  | fewJacobians => "few_jacobians"
  | jacobianShape => "jacobian_shape"
  | nanJacobian => "nan_jacobian"
  | scaledJacobian => "scale_jacobian"
  | negatedJacobians => "negate_jacobian"
  | zeroJacobians => "zero_jacobian"

variable {α : Type} [Scalar α]

/-- The answer with its Jacobians changed, if it has any. -/
def onJacobians (f : List (Mat α) → List (Mat α)) (o : CostOutput α) : CostOutput α :=
  { o with jacobians := o.jacobians.map f }

/-- The list with its first member changed. -/
def onFirst (f : Mat α → Mat α) : List (Mat α) → List (Mat α)
  | m :: rest => f m :: rest
  | [] => []

/-- The answer with the defect. -/
def spoil : Defect → CostOutput α → Option (CostOutput α)
  | fail, _ => none
  | short, o => some { o with residuals := Vec.zeros (o.residuals.size - 1) }
  | nan, o => some { o with residuals := o.residuals.set 0 (0 / 0) }
  | infinite, o => some { o with residuals := o.residuals.set 0 Scalar.infinity }
  | noJacobians, o => some { o with jacobians := none }
  | fewJacobians, o => some (onJacobians List.dropLast o)
  | jacobianShape, o =>
      some (onJacobians (onFirst fun m => Mat.zeros (m.rows + 1) m.cols) o)
  | nanJacobian, o =>
      some (onJacobians (onFirst fun m => Mat.ofFn m.rows m.cols fun i j =>
        if i = 0 ∧ j = 0 then 0 / 0 else m.get i j) o)
  | scaledJacobian, o => some (onJacobians (onFirst fun m => m.scale 1.5) o)
  | negatedJacobians, o => some (onJacobians (List.map fun m => m.scale (-1)) o)
  | zeroJacobians, o => some (onJacobians (List.map fun m => m.scale 0) o)

instance : Named Defect := ⟨all, name⟩

end Defect

/-- The calls that count towards a defect. -/
inductive Trigger where
  | any
  /-- Calls that ask for Jacobians. -/
  | jacobian
  /-- Calls that do not. -/
  | residual
deriving DecidableEq, Repr, Inhabited

namespace Trigger

/-- All triggers. -/
def all : List Trigger := [any, jacobian, residual]

/-- The name by which a trigger is asked for. -/
def name : Trigger → String
  | any => "any"
  | jacobian => "jacobian"
  | residual => "residual"

/-- Whether a call counts. -/
def counts : Trigger → Bool → Bool
  | any, _ => true
  | jacobian, wanted => wanted
  | residual, wanted => !wanted

instance : Named Trigger := ⟨all, name⟩

end Trigger

variable {α σ : Type} [Scalar α]

/-- The cost function with a defect in every call that counts, once `after`
such calls have come in. The state counts them: `tick` tells how many came
before, and counts one more. A call that fails never reaches the sound
function. -/
def CostFunction.defective (f : CostFunction α σ) (defect : Defect) (trigger : Trigger)
    (after : Nat) (tick : σ → Nat × σ) : CostFunction α σ where
  numResiduals := f.numResiduals
  sizes := f.sizes
  evaluate point jacobians u :=
    if trigger.counts jacobians then
      let (before, u) := tick u
      if before < after then f.evaluate point jacobians u
      else if defect = .fail then (none, u)
      else
        let (output, u) := f.evaluate point jacobians u
        (output.bind defect.spoil, u)
    else f.evaluate point jacobians u

end LeastSquares
