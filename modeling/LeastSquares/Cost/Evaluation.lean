import LeastSquares.Cost.Corrector
import LeastSquares.Cost.Function

/-!
# Evaluating a residual block

An answer of a cost function is used only if it has the declared shape and
holds finite numbers. The cost it stands for is half the squared length of
the residuals, or half the loss of it. Together with Jacobians the residuals
come corrected for the loss, so that linear algebra can treat every residual
block as plain least squares.

## Main definitions

* `CostOutput.admissible` — whether an answer can be used.
* `ResidualEvaluation.ofOutput?` — what a usable answer means.
-/

namespace LeastSquares

/-- The cost of a residual block at a point. -/
structure ResidualEvaluation (α : Type) where
  cost : α
  residuals : Vec α
  /-- One matrix per parameter block, if Jacobians were asked for. -/
  jacobians : Option (List (Mat α))
deriving Repr

namespace CostOutput

variable {α : Type} [Scalar α]

/-- Whether the residuals are as many as declared, and finite. -/
def residualsFit (numResiduals : Nat) (output : CostOutput α) : Bool :=
  output.residuals.size == numResiduals && output.residuals.isFinite

/-- The Jacobians, if there is one of the declared shape for every block and
all are finite. -/
def jacobians? (numResiduals : Nat) (sizes : List Nat) (output : CostOutput α) :
    Option (List (Mat α)) :=
  match output.jacobians with
  | none => none
  | some js =>
      if js.length = sizes.length ∧
          (js.zip sizes).all (fun (j, n) => j.hasShape numResiduals n && j.isFinite) then
        some js
      else none

end CostOutput

namespace ResidualEvaluation

variable {α σ : Type} [Scalar α]

/-- The cost of residuals. -/
def costOf (loss : Option (Loss α)) (residuals : Vec α) : α :=
  match loss with
  | some loss => 0.5 * (loss.evaluate residuals.normSq).value
  | none => 0.5 * residuals.normSq

/-- Residuals and Jacobians, corrected for a loss. -/
def corrected (loss : Option (Loss α)) (residuals : Vec α) (jacobians : List (Mat α)) :
    Vec α × List (Mat α) :=
  match loss with
  | some loss =>
      let c := Corrector.new loss residuals.normSq
      (c.correctResidual residuals, jacobians.map (c.correctJacobian residuals))
  | none => (residuals, jacobians)

/-- What an answer means, none if it cannot be used. -/
def ofOutput? (f : CostFunction α σ) (loss : Option (Loss α)) (wantJacobians : Bool)
    (output : CostOutput α) : Option (ResidualEvaluation α) :=
  if !output.residualsFit f.numResiduals then none
  else if wantJacobians then
    match output.jacobians? f.numResiduals f.sizes with
    | none => none
    | some js =>
        let (residuals, js) := corrected loss output.residuals js
        some ⟨costOf loss output.residuals, residuals, some js⟩
  else some ⟨costOf loss output.residuals, output.residuals, none⟩

end ResidualEvaluation

/-- The evaluation of a cost function with a loss at a point, none if the
point has no usable answer. -/
def CostFunction.residualEvaluation {α σ : Type} [Scalar α] (f : CostFunction α σ)
    (loss : Option (Loss α)) (check : Option (GradientCheck α)) (point : List (Vec α))
    (wantJacobians : Bool) : Calls σ (Option (ResidualEvaluation α)) := do
  let output ← f.evaluateChecked check point wantJacobians
  pure (output.bind (ResidualEvaluation.ofOutput? f loss wantJacobians))

end LeastSquares
