import LeastSquares.Named
import LeastSquares.Scalar

/-!
# Options of minimizers

What a minimizer can be told, with the values it takes when told nothing.
All minimizers share one record of options and each reads the ones that
concern it.

## Main definitions

* `MinimizerKind`, `StrategyKind`, `DoglegKind`, `DirectionKind` — the
  choices.
* `MinimizerOptions` — the record.
-/

namespace LeastSquares

/-- The families of minimizers. -/
inductive MinimizerKind where
  | trustRegion
  | lineSearch
deriving DecidableEq, Repr, Inhabited

namespace MinimizerKind

/-- Both, in the order in which they are listed to users. -/
def all : List MinimizerKind := [trustRegion, lineSearch]

/-- The name in options and reports. -/
def name : MinimizerKind → String
  | trustRegion => "TRUST_REGION"
  | lineSearch => "LINE_SEARCH"

instance : Named MinimizerKind := ⟨all, name⟩

end MinimizerKind

/-- The ways of choosing a step inside a trust region. -/
inductive StrategyKind where
  | levenbergMarquardt
  | dogleg
deriving DecidableEq, Repr, Inhabited

namespace StrategyKind

/-- Both, in the order in which they are listed to users. -/
def all : List StrategyKind := [levenbergMarquardt, dogleg]

/-- The name in options. -/
def name : StrategyKind → String
  | levenbergMarquardt => "LEVENBERG_MARQUARDT"
  | dogleg => "DOGLEG"

/-- The name in reports. -/
def label : StrategyKind → String
  | levenbergMarquardt => "LevenbergMarquardt"
  | dogleg => "Dogleg"

instance : Named StrategyKind := ⟨all, name⟩

end StrategyKind

/-- The paths of a dogleg step. -/
inductive DoglegKind where
  /-- From the minimizer along the gradient to the Gauss-Newton point. -/
  | traditional
  /-- The best point of a circle in the plane of the two. -/
  | subspace
deriving DecidableEq, Repr, Inhabited

namespace DoglegKind

/-- Both, in the order in which they are listed to users. -/
def all : List DoglegKind := [traditional, subspace]

/-- The name in options. -/
def name : DoglegKind → String
  | traditional => "TRADITIONAL_DOGLEG"
  | subspace => "SUBSPACE_DOGLEG"

/-- The name in reports. -/
def label : DoglegKind → String
  | traditional => "TraditionalDogleg"
  | subspace => "SubspaceDogleg"

instance : Named DoglegKind := ⟨all, name⟩

end DoglegKind

/-- The directions of a line search. -/
inductive DirectionKind where
  | steepestDescent
  /-- A quasi-Newton direction from the most recent changes of gradient. -/
  | lbfgs
deriving DecidableEq, Repr, Inhabited

namespace DirectionKind

/-- Both, in the order in which they are listed to users. -/
def all : List DirectionKind := [steepestDescent, lbfgs]

/-- The name in options. -/
def name : DirectionKind → String
  | steepestDescent => "STEEPEST_DESCENT"
  | lbfgs => "LBFGS"

/-- The name in reports. -/
def label : DirectionKind → String
  | steepestDescent => "SteepestDescent"
  | lbfgs => "Lbfgs"

instance : Named DirectionKind := ⟨all, name⟩

end DirectionKind

/-- The options of a minimizer. -/
structure MinimizerOptions (α : Type) [Scalar α] where
  maxIterations : Nat := 50
  /-- In seconds. -/
  maxTime : α := 1e9
  /-- Bound on the change of the cost, relative to the cost. -/
  functionTolerance : α := 1e-6
  /-- Bound on the largest entry of the gradient. -/
  gradientTolerance : α := 1e-10
  /-- Bound on the length of a step, relative to the length of the state. -/
  parameterTolerance : α := 1e-8
  strategy : StrategyKind := .levenbergMarquardt
  dogleg : DoglegKind := .traditional
  initialRadius : α := 1e4
  maxRadius : α := 1e16
  /-- A trust region smaller than this counts as convergence. -/
  minRadius : α := 1e-32
  /-- A step is accepted if it achieves more than this part of the decrease
  that was predicted. -/
  minRelativeDecrease : α := 1e-3
  minDiagonal : α := 1e-6
  maxDiagonal : α := 1e32
  /-- Whether columns of the Jacobian are scaled by their initial length. -/
  jacobiScaling : Bool := true
  useNonmonotonicSteps : Bool := false
  maxNonmonotonicSteps : Nat := 5
  maxInvalidSteps : Nat := 5
  /-- Relative residual at which an iterative linear solver stops. -/
  eta : α := 1e-1
  /-- Inner iterations end for good once they gain no more than this part of
  the cost. -/
  innerTolerance : α := 1e-3
  direction : DirectionKind := .lbfgs
  maxLbfgsRank : Nat := 20
  /-- Part of the predicted decrease that a line search asks for. -/
  sufficientDecrease : α := 1e-4
  maxLineSearchEvaluations : Nat := 20
  minLineSearchStep : α := 1e-9

end LeastSquares
