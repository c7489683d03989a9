import LeastSquares.Minimizer.LevenbergMarquardt

/-!
# Dogleg steps

In the variables scaled by `D`, the root of the clamped diagonal of `JᵀJ`, a
step follows a path from the current point: first along the gradient to the
minimizer of the model in that direction, then straight to the Gauss-Newton
point, and it stops where the path leaves the trust region. The alternative
is the best point of the trust region's boundary in the plane of gradient
and Gauss-Newton point.

The Gauss-Newton point is found with a small regularization, which is raised
tenfold as long as the linear solver fails.

After a rejected step only the radius differs, so all that was computed for
the first step is used again. Gradient and points are stored for this; a
request that finds stored vectors of other sizes is a fault.

## Main definitions

* `Dogleg.computeStep` — the step for a linear model, or from what is stored.
* `Dogleg.accepted`, `Dogleg.rejected`, `Dogleg.invalid` — what a step's fate
  changes.
* `Plane.bestOnCircle` — the best point of a circle.
-/

namespace LeastSquares

variable {α : Type} [Scalar α]

/-! ## A plane in step space -/

/-- Two orthonormal directions, and the model in their plane. -/
structure Plane (α : Type) where
  first : Vec α
  second : Vec α
  gradient : α × α
  /-- The symmetric matrix of the model: both diagonal entries, and the other
  one between them. -/
  hessian : α × α × α
deriving Repr

namespace Plane

/-- The point of the circle of a radius at an angle. -/
def onCircle (radius angle : α) : α × α :=
  (Scalar.cos angle * radius, Scalar.sin angle * radius)

/-- The value of the model at a point of the plane. -/
def model (p : Plane α) (y : α × α) : α :=
  let (h11, h12, h22) := p.hessian
  let hy := (h11 * y.1 + h12 * y.2, h12 * y.1 + h22 * y.2)
  (p.gradient.1 * y.1 + p.gradient.2 * y.2) + 0.5 * (y.1 * hy.1 + y.2 * hy.2)

/-- Number of angles at which the circle is sampled. -/
def samples : Nat := 360

/-- The distance of two sampled angles. -/
def spacing : α := Scalar.tau / Scalar.ofNat samples

/-- The sampled angle of least value, the first of several; zero if no sample
has a value below every bound. -/
def bestSample (value : α → α) : α :=
  ((List.range samples).foldl
    (fun (best : α × Option α) k =>
      let angle := Scalar.ofNat k * spacing
      let v := value angle
      if Scalar.below v best.2 then (angle, some v) else best)
    (0, none)).1

/-- A bracket of angles narrowed by the golden section, a number of times. -/
def narrow (value : α → α) : Nat → α × α → α × α
  | 0, bracket => bracket
  | n + 1, (lo, hi) =>
      let ratio := (Scalar.sqrt 5.0 - 1) / 2.0
      let left := hi - ratio * (hi - lo)
      let right := lo + ratio * (hi - lo)
      narrow value n (if value left < value right then (lo, right) else (left, hi))

/-- The point of the circle at which the model is least, to within the
resolution of the search. -/
def bestOnCircle (p : Plane α) (radius : α) : α × α :=
  let value := fun angle => p.model (onCircle radius angle)
  let best := bestSample value
  let (lo, hi) := narrow value 60 (best - spacing, best + spacing)
  onCircle radius (0.5 * (lo + hi))

/-- The step of a point of the plane. -/
def toStep (p : Plane α) (y : α × α) : Vec α := p.first.scale y.1 + p.second.scale y.2

end Plane

/-! ## The strategy -/

/-- The state of the strategy. -/
structure Dogleg (α : Type) where
  solver : LinearSolver
  kind : DoglegKind
  radius : α
  maxRadius : α
  minDiagonal : α
  maxDiagonal : α
  eta : α
  /-- The regularization of the next Gauss-Newton point. -/
  mu : α
  /-- Whether what is stored belongs to the current point. -/
  reuse : Bool
  /-- The scaling `D`. -/
  diagonal : Vec α
  /-- The gradient in scaled variables. -/
  gradient : Vec α
  /-- The Gauss-Newton point in scaled variables. -/
  gaussNewton : Vec α
  /-- Length of the step to the minimizer along the gradient, in gradients. -/
  cauchy : α
  plane : Option (Plane α)
  /-- Length of the last step in scaled variables. -/
  stepNorm : α

namespace Dogleg

/-- The least and the largest regularization, and the factor between two
attempts. -/
def minMu : α := 1e-8

/-- The largest regularization of a Gauss-Newton point. -/
def maxMu : α := 1

/-- The factor between two attempts at a Gauss-Newton point. -/
def muFactor : α := 10.0

/-- The strategy before the first step. -/
def new (solver : LinearSolver) (o : MinimizerOptions α) : Dogleg α :=
  { solver
    kind := o.dogleg
    radius := o.initialRadius
    maxRadius := o.maxRadius
    minDiagonal := o.minDiagonal
    maxDiagonal := o.maxDiagonal
    eta := o.eta
    mu := minMu
    reuse := false
    diagonal := Vec.zeros 0
    gradient := Vec.zeros 0
    gaussNewton := Vec.zeros 0
    cauchy := 0
    plane := none
    stepNorm := 0 }

/-- The entrywise quotient of vectors that have to agree in size. -/
def quotient? (u v : Vec α) : Except Fault (Vec α) :=
  if u.size = v.size then .ok (u.divEntries v) else .error .sizeMismatch

/-! ### Linearization -/

/-- Stores scaling, gradient and the length along the gradient. What was
stored before a fault stays. -/
def linearize (s : Dogleg α) (jacobian : BlockMatrix α) (residuals : Vec α) :
    Except Fault Unit × Dogleg α :=
  match jacobian.squaredColumnNorms.clampEntries s.minDiagonal s.maxDiagonal with
  | .error f => (.error f, s)
  | .ok clamped =>
      let s := { s with diagonal := clamped.map Scalar.sqrt }
      match jacobian.leftMultiply? residuals with
      | .error f => (.error f, s)
      | .ok g =>
          let s := { s with gradient := g.divEntries s.diagonal }
          let image := jacobian.rightMultiply (s.gradient.divEntries s.diagonal)
          let cauchy := (Scalar.quotient? s.gradient.normSq image.normSq).getD 0
          (.ok (), { s with cauchy })

/-! ### The Gauss-Newton point -/

/-- What one attempt at a Gauss-Newton point comes to. -/
inductive Attempt (α : Type) where
  | found (point : Vec α) (iterations : Nat)
  /-- Another attempt with more regularization may succeed. -/
  | failed (last : LinearError)
  | stop (reason : Stop LinearError)

/-- One attempt with the current regularization. -/
def attempt (s : Dogleg α) (jacobian : BlockMatrix α) (rhs : Vec α) : Attempt α × Dogleg α :=
  let regularizer := s.diagonal.scale (Scalar.sqrt s.mu)
  let (result, solver) := s.solver.solve jacobian rhs ⟨some regularizer, s.eta⟩
  let s := { s with solver }
  match result with
  | .ok solution =>
      if solution.x.isFinite then
        (.found (solution.x.mulEntries s.diagonal) solution.iterations, s)
      else (.failed .gaussNewtonNonFinite, s)
  | .error (.fault f) => (.stop (.fault f), s)
  | .error (.error e) =>
      if e.isFatal then (.stop (.error e), s) else (.failed (.gaussNewtonFailed e), s)

/-- Finds and stores the Gauss-Newton point, in a number of attempts. The
regularization passes its limit before they are used up. -/
def findGaussNewton (jacobian : BlockMatrix α) (rhs : Vec α) :
    Nat → Dogleg α → Outcome LinearError Nat × Dogleg α
  | 0, s => (.error (.error .gaussNewtonNonFinite), s)
  | attempts + 1, s =>
      match s.attempt jacobian rhs with
      | (.found point iterations, s) =>
          (.ok iterations,
            { s with
              gaussNewton := point
              mu := Scalar.max (2.0 * s.mu / muFactor) minMu })
      | (.stop reason, s) => (.error reason, s)
      | (.failed e, s) =>
          let s := { s with mu := s.mu * muFactor }
          if maxMu < s.mu then (.error (.error e), s)
          else findGaussNewton jacobian rhs attempts s

/-! ### The plane of gradient and Gauss-Newton point -/

/-- The plane of gradient and Gauss-Newton point with the model in it, none
if the two are parallel. -/
def findPlane (s : Dogleg α) (jacobian : BlockMatrix α) : Option (Plane α) :=
  let norm := s.gradient.norm
  if norm == 0 then none
  else
    let first := s.gradient.map (· / norm)
    let rest := s.gaussNewton - first.scale (first.dot s.gaussNewton)
    let restNorm := rest.norm
    if restNorm ≤ 1e-10 * Scalar.max s.gaussNewton.norm 1 then none
    else
      let second := rest.map (· / restNorm)
      let image1 := jacobian.rightMultiply (first.divEntries s.diagonal)
      let image2 := jacobian.rightMultiply (second.divEntries s.diagonal)
      some
        { first
          second
          gradient := (first.dot s.gradient, second.dot s.gradient)
          hessian := (image1.normSq, image1.dot image2, image2.normSq) }

/-! ### The step -/

/-- The point at which the path leaves the trust region, in scaled variables.
The path is known to reach that far. -/
def pathStep (s : Dogleg α) (gaussNewtonNorm : α) : Except Fault (Vec α) :=
  let gradientNorm := s.gradient.norm
  if gradientNorm == 0 then .ok (s.gaussNewton.scale (s.radius / gaussNewtonNorm))
  else if s.radius ≤ gradientNorm * s.cauchy then
    .ok (s.gradient.scale (-s.radius / gradientNorm))
  else if s.gaussNewton.size ≠ s.gradient.size then .error .sizeMismatch
  else
    let a := s.gradient.scale (-s.cauchy)
    let ab := s.gaussNewton - a
    let c := a.dot ab
    let aSq := a.normSq
    let abSq := ab.normSq
    let gap := s.radius * s.radius - aSq
    let root := Scalar.sqrt (c * c + abSq * gap)
    let beta := if c ≤ 0 then (root - c) / abSq else gap / (root + c)
    .ok (a + ab.scale beta)

/-- The point of the boundary that the strategy steps to, in scaled
variables. -/
def boundaryStep (s : Dogleg α) (gaussNewtonNorm : α) : Except Fault (Vec α) :=
  match s.kind, s.plane with
  | .subspace, some plane => .ok (plane.toStep (plane.bestOnCircle s.radius))
  | _, _ => s.pathStep gaussNewtonNorm

/-- The step for the current radius from what is stored, and its length noted.
The length is noted even if the sizes then do not fit. -/
def step (s : Dogleg α) : Except Fault (Vec α) × Dogleg α :=
  let norm := s.gaussNewton.norm
  if norm ≤ s.radius then
    (quotient? s.gaussNewton s.diagonal, { s with stepNorm := norm })
  else
    match s.boundaryStep norm with
    | .error f => (.error f, s)
    | .ok scaled => (quotient? scaled s.diagonal, { s with stepNorm := scaled.norm })

/-- The step from what is stored as a trust region step. -/
def finish (s : Dogleg α) (iterations : Nat) :
    Outcome LinearError (TrustRegionStep α) × Dogleg α :=
  match s.step with
  | (.ok step, s) => (.ok ⟨step, iterations⟩, s)
  | (.error f, s) => (.error (.fault f), s)

/-- As many attempts as there can be: the regularization is at least its
minimum when they begin, and eight factors of ten take the minimum to the limit. -/
def maxAttempts : Nat := 10

/-- The step for residuals and their Jacobian, from what is stored if that
belongs to them. -/
def computeStep (s : Dogleg α) (jacobian : BlockMatrix α) (residuals : Vec α) :
    Outcome LinearError (TrustRegionStep α) × Dogleg α :=
  if s.reuse then s.finish 0
  else
    match s.linearize jacobian residuals with
    | (.error f, s) => (.error (.fault f), s)
    | (.ok (), s) =>
        match findGaussNewton jacobian (-residuals) maxAttempts s with
        | (.error e, s) => (.error e, s)
        | (.ok iterations, s) =>
            let plane :=
              match s.kind with
              | .subspace => s.findPlane jacobian
              | .traditional => none
            { s with plane, reuse := true }.finish iterations

/-! ### After a step -/

/-- After a step that was accepted: a poor one narrows the region, a good one
widens it to three times the step. -/
def accepted (s : Dogleg α) (quality : α) : Dogleg α :=
  let narrowed := if quality < 0.25 then s.radius * 0.5 else s.radius
  let widened := if 0.75 < quality then Scalar.max narrowed (3.0 * s.stepNorm) else narrowed
  { s with radius := Scalar.min widened s.maxRadius, reuse := false }

/-- After a step that was rejected. -/
def rejected (s : Dogleg α) : Dogleg α := { s with radius := s.radius * 0.5, reuse := true }

/-- After a step that could not be used. -/
def invalid (s : Dogleg α) : Dogleg α := { s with mu := s.mu * muFactor, reuse := false }

end Dogleg

end LeastSquares
