import LeastSquares.Minimizer.Dogleg

/-!
# Trust region strategies

A strategy proposes steps and is told what became of them. The minimizer
does not know which strategy it uses.

## Main definitions

* `Strategy.computeStep` — a step for a linear model.
* `Strategy.accepted`, `Strategy.rejected`, `Strategy.invalid` — telling the
  strategy what became of its step.
-/

namespace LeastSquares

/-- A trust region strategy with its state. -/
inductive Strategy (α : Type) where
  | levenbergMarquardt (s : LevenbergMarquardt α)
  | dogleg (s : Dogleg α)

namespace Strategy

variable {α : Type} [Scalar α]

/-- The strategy that the options ask for. -/
def create (solver : LinearSolver) (o : MinimizerOptions α) : Strategy α :=
  match o.strategy with
  | .levenbergMarquardt => levenbergMarquardt (.new solver o)
  | .dogleg => dogleg (.new solver o)

/-- A step for residuals and their Jacobian. -/
def computeStep (strategy : Strategy α) (jacobian : BlockMatrix α) (residuals : Vec α) :
    Outcome LinearError (TrustRegionStep α) × Strategy α :=
  match strategy with
  | levenbergMarquardt s =>
      let (result, s) := s.computeStep jacobian residuals
      (result, levenbergMarquardt s)
  | dogleg s =>
      let (result, s) := s.computeStep jacobian residuals
      (result, dogleg s)

/-- The radius of the trust region. -/
def radius : Strategy α → α
  | levenbergMarquardt s => s.radius
  | dogleg s => s.radius

/-- The last step was accepted, with the given part of the decrease that was
predicted. -/
def accepted (strategy : Strategy α) (quality : α) : Strategy α :=
  match strategy with
  | levenbergMarquardt s => levenbergMarquardt (s.accepted quality)
  | dogleg s => dogleg (s.accepted quality)

/-- The last step was rejected. -/
def rejected : Strategy α → Strategy α
  | levenbergMarquardt s => levenbergMarquardt s.rejected
  | dogleg s => dogleg s.rejected

/-- The last step could not be used. -/
def invalid : Strategy α → Strategy α
  | levenbergMarquardt s => levenbergMarquardt s.rejected
  | dogleg s => dogleg s.invalid

end Strategy

end LeastSquares
