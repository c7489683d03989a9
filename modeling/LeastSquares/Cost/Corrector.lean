import LeastSquares.Cost.Loss
import LeastSquares.Fault
import LeastSquares.Linear.Mat

/-!
# Correcting residuals for a loss

Linear solvers know plain least squares only. The corrector changes the
residual `r` and the Jacobian `J` of a residual block so that the plain
problem they then describe has the gradient of the robust one:

  `r̃ = √ρ' / (1 - a) · r`,  `J̃ = √ρ' · (J - a/s · r rᵀ J)`,

where `a` solves `½ a² - a - s ρ''/ρ' = 0`. Where the loss does not curve
upwards, `a` is zero and both are merely rescaled by `√ρ'`.

## Main definitions

* `Corrector.new` — the correction at a squared residual length.
* `Corrector.correctJacobian`, `Corrector.correctResidual` — applying it;
  the Jacobian goes first, since it needs the residual as it was.
-/

namespace LeastSquares

/-- The correction for a loss at one squared residual length `s`. -/
structure Corrector (α : Type) where
  /-- `√ρ'` -/
  rootSlope : α
  /-- `√ρ' / (1 - a)` -/
  residualScale : α
  /-- `a / s`, zero where there is nothing to correct but the scale. -/
  rankOne : α
deriving Repr

namespace Corrector

variable {α : Type} [Scalar α]

/-- The correction at the squared residual length `s`. -/
def new (loss : Loss α) (s : α) : Corrector α :=
  let rho := loss.evaluate s
  let root := Scalar.sqrt rho.slope
  if s == 0 || rho.curvature ≤ 0 then ⟨root, root, 0⟩
  else
    let d := 1 + 2.0 * s * rho.curvature / rho.slope
    let a := 1 - Scalar.sqrt d
    ⟨root, root / (1 - a), a / s⟩

/-- The corrected Jacobian, given the residual as it was. -/
def correctJacobian (c : Corrector α) (residual : Vec α) (jacobian : Mat α) : Mat α :=
  if c.rankOne == 0 then jacobian.scale c.rootSlope
  else
    let projection := jacobian.tMulVec residual
    Mat.ofFn jacobian.rows jacobian.cols fun i j =>
      (jacobian.get i j - residual.get i * projection.get j * c.rankOne) * c.rootSlope

/-- The corrected Jacobian of a residual that has to have an entry for every
row, unless the correction only rescales. -/
def correctJacobian? (c : Corrector α) (residual : Vec α) (jacobian : Mat α) :
    Except Fault (Mat α) :=
  if c.rankOne == 0 || residual.size == jacobian.rows then
    .ok (c.correctJacobian residual jacobian)
  else .error .sizeMismatch

/-- The corrected residual. -/
def correctResidual (c : Corrector α) (residual : Vec α) : Vec α :=
  residual.scale c.residualScale

end Corrector

end LeastSquares
