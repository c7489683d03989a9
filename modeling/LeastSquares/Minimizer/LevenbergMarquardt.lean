import LeastSquares.LinearSolver.Solver
import LeastSquares.Minimizer.Options

/-!
# Levenberg-Marquardt steps

The step solves `(JᵀJ + λ D) s = -Jᵀr`, where `D` is the diagonal of `JᵀJ`
kept between two bounds and `λ` is the inverse of the trust region radius. A
good step widens the region, by at most a factor of three. Steps that fail
one after the other narrow it by growing powers of two.

## Main definitions

* `TrustRegionStep` — a step.
* `LevenbergMarquardt.computeStep` — the step for a linear model.
* `LevenbergMarquardt.accepted`, `LevenbergMarquardt.rejected` — the radius
  after a step.
-/

namespace LeastSquares

/-- A step in the tangent space. -/
structure TrustRegionStep (α : Type) where
  step : Vec α
  /-- Number of iterations of the linear solver. -/
  iterations : Nat
deriving Repr

/-- The entries of a vector kept between two bounds. -/
def Vec.clampEntries {α : Type} [Scalar α] (lo hi : α) (v : Vec α) : Except Fault (Vec α) :=
  if v.size = 0 || lo ≤ hi then .ok (v.map (Scalar.clamp lo hi)) else .error .unorderedBounds

/-- The state of the strategy. -/
structure LevenbergMarquardt (α : Type) where
  solver : LinearSolver
  radius : α
  maxRadius : α
  minDiagonal : α
  maxDiagonal : α
  /-- The divisor of the radius at the next failure. -/
  decrease : α
  eta : α

namespace LevenbergMarquardt

variable {α : Type} [Scalar α]

/-- The strategy before the first step. -/
def new (solver : LinearSolver) (o : MinimizerOptions α) : LevenbergMarquardt α :=
  { solver
    radius := o.initialRadius
    maxRadius := o.maxRadius
    minDiagonal := o.minDiagonal
    maxDiagonal := o.maxDiagonal
    decrease := 2.0
    eta := o.eta }

/-- The step for residuals and their Jacobian. -/
def computeStep (s : LevenbergMarquardt α) (jacobian : BlockMatrix α) (residuals : Vec α) :
    Outcome LinearError (TrustRegionStep α) × LevenbergMarquardt α :=
  match jacobian.squaredColumnNorms.clampEntries s.minDiagonal s.maxDiagonal with
  | .error f => (.error (.fault f), s)
  | .ok diagonal =>
      let regularizer := diagonal.map fun v => Scalar.sqrt (v / s.radius)
      let (result, solver) := s.solver.solve jacobian (-residuals) ⟨some regularizer, s.eta⟩
      let s := { s with solver }
      match result with
      | .error e => (.error e, s)
      | .ok solution =>
          if solution.x.isFinite then (.ok ⟨solution.x, solution.iterations⟩, s)
          else (.error (.error .nonFiniteStep), s)

/-- The divisor of the radius after a step of the given quality. -/
def widening (quality : α) : α :=
  Scalar.max (1 / 3.0) (1 - Scalar.cube (2.0 * quality - 1))

/-- After a step that was accepted. The quality is the decrease achieved as a
part of the decrease predicted. -/
def accepted (s : LevenbergMarquardt α) (quality : α) : LevenbergMarquardt α :=
  { s with
    radius := Scalar.min (s.radius / widening quality) s.maxRadius
    decrease := 2.0 }

/-- After a step that was rejected or could not be used. -/
def rejected (s : LevenbergMarquardt α) : LevenbergMarquardt α :=
  { s with
    radius := s.radius / s.decrease
    decrease := s.decrease * 2.0 }

end LevenbergMarquardt

end LeastSquares
