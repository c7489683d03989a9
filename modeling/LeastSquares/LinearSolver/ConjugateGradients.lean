import LeastSquares.LinearSolver.Schur

/-!
# Conjugate gradients

A symmetric positive definite system is solved by improving an approximate
solution along directions that are conjugate to each other. The operator
and the approximate inverse that guides the search are functions, so the
matrix need not exist.

The iteration ends when the residual has dropped to the tolerance, at the
iteration limit, or at a direction whose curvature is not positive. Such a
direction at the very start is an error; later the approximation reached so
far is returned as not converged.

## Main definitions

* `conjugateGradients` — the iteration.
* `Preconditioner` — the approximate inverses.
* `normalGradients?` — the normal equations, solved without forming them.
* `schurGradients?` — the reduced system of an elimination, solved without
  forming it.
-/

namespace LeastSquares

/-- The result of a linear solve. -/
structure LinearSolution (α : Type) where
  x : Vec α
  iterations : Nat
  /-- False if an iteration stopped before it reached its tolerance. -/
  converged : Bool
deriving Repr

variable {α : Type} [Scalar α]

/-- The state of the iteration: the approximation `x`, its residual `r`, the
direction `p` and the inner product of `r` with its preconditioned form. -/
structure GradientState (α : Type) where
  x : Vec α
  r : Vec α
  p : Vec α
  rz : α
deriving Repr

/-- The rules by which the iteration ends. -/
structure GradientLimits (α : Type) where
  minIterations : Nat
  maxIterations : Nat
  /-- The residual norm at which the iteration may end. -/
  target : α
deriving Repr

namespace GradientState

/-- The state before the first iteration: zero, and the whole right-hand side
as residual. -/
def start (precondition : Vec α → Vec α) (rhs : Vec α) : GradientState α :=
  let z := precondition rhs
  ⟨Vec.zeros rhs.size, rhs, z, rhs.dot z⟩

/-- What one iteration finds. -/
inductive Progress (α : Type) where
  /-- The direction has no positive curvature. -/
  | stuck
  | converged (x : Vec α)
  | next (s : GradientState α)

/-- The iteration with the given number. -/
def step (apply precondition : Vec α → Vec α) (limits : GradientLimits α) (number : Nat)
    (s : GradientState α) : Progress α :=
  let q := apply s.p
  let curvature := s.p.dot q
  if !Scalar.isFinite curvature || curvature ≤ 0 then .stuck
  else
    let length := s.rz / curvature
    let x := s.x.addScaled length s.p
    let r := s.r.addScaled (-length) q
    let norm := r.norm
    if norm == 0 || (limits.minIterations ≤ number && norm ≤ limits.target) then .converged x
    else
      let z := precondition r
      let rz := r.dot z
      .next ⟨x, r, z.addScaled (rz / s.rz) s.p, rz⟩

/-- The iterations that are left, after `done` of them. -/
def iterate (apply precondition : Vec α → Vec α) (limits : GradientLimits α) :
    Nat → Nat → GradientState α → Except LinearError (LinearSolution α)
  | 0, done, s => .ok ⟨s.x, done, false⟩
  | left + 1, done, s =>
      match step apply precondition limits (done + 1) s with
      | .stuck => if done = 0 then .error .nonPositiveCurvature else .ok ⟨s.x, done, false⟩
      | .converged x => .ok ⟨x, done + 1, true⟩
      | .next s => iterate apply precondition limits left (done + 1) s

end GradientState

/-- The approximate solution of `M x = rhs`, where `apply` multiplies by `M`
and `precondition` by an approximation of its inverse. The residual norm is
compared with `tolerance` times that of the right-hand side. -/
def conjugateGradients (apply precondition : Vec α → Vec α) (rhs : Vec α)
    (minIterations maxIterations : Nat) (tolerance : α) :
    Except LinearError (LinearSolution α) :=
  let norm := rhs.norm
  if norm == 0 then .ok ⟨Vec.zeros rhs.size, 0, true⟩
  else
    GradientState.iterate apply precondition ⟨minIterations, maxIterations, tolerance * norm⟩
      maxIterations 0 (GradientState.start precondition rhs)

/-- An approximate inverse of the system's matrix. -/
inductive Preconditioner (α : Type) where
  | identity
  /-- Entrywise multiplication. -/
  | diagonal (inverse : Vec α)
  /-- Multiplication block by block. -/
  | blockDiagonal (blocks : List (Block × Mat α))
deriving Repr

namespace Preconditioner

/-- The inverse of a diagonal; an entry without a positive inverse counts as
one. -/
def ofDiagonal (d : Vec α) : Preconditioner α :=
  .diagonal (d.map fun v => if 0 < v && Scalar.isFinite v then 1 / v else 1)

/-- The inverses of diagonal blocks; a block without a factor counts as the
identity. -/
def ofBlocks (blocks : List (Block × Mat α)) : Preconditioner α :=
  .blockDiagonal (blocks.map fun (b, m) =>
    match Cholesky.factor? .quotient m with
    | some c => (b, c.inverse)
    | none => (b, Mat.identity b.size))

/-- The product with the approximate inverse. -/
def apply : Preconditioner α → Vec α → Vec α
  | identity, r => r
  | diagonal inverse, r => inverse.mulEntries r
  | blockDiagonal blocks, r =>
      Vec.concat (blocks.map fun (b, m) => m.mulVec (r.slice b.position b.size))

end Preconditioner

/-- The normal equations `(AᵀA + D²) x = Aᵀb` by conjugate gradients. -/
def normalGradients? (kind : PreconditionerKind) (minIterations maxIterations : Nat)
    (a : BlockMatrix α) (b : Vec α) (d : Option (Vec α)) (tolerance : α) :
    Except LinearError (LinearSolution α) := do
  if b.size ≠ a.numRows then throw (.rightHandSide b.size a.numRows)
  let d2 ← regularizerSquared d a.numCols
  let preconditioner : Preconditioner α :=
    match kind with
    | .identity => .identity
    | _ => .ofDiagonal (a.squaredColumnNorms + d2)
  conjugateGradients (fun v => a.leftMultiply (a.rightMultiply v) + d2.mulEntries v)
    preconditioner.apply (a.leftMultiply b) minIterations maxIterations tolerance

/-- The preconditioner of a reduced system. -/
def Elimination.preconditioner (s : Elimination α) : PreconditionerKind → Preconditioner α
  | .identity => .identity
  | .jacobi => .ofDiagonal (Vec.concat (s.diagonalBlocks.map fun (_, m) => m.diag))
  | _ => .ofBlocks s.diagonalBlocks

/-- The reduced system of an elimination by conjugate gradients. -/
def schurGradients? (kind : PreconditionerKind) (minIterations maxIterations count : Nat)
    (a : BlockMatrix α) (b : Vec α) (d : Option (Vec α)) (tolerance : α) :
    Except LinearError (LinearSolution α) := do
  let d2 ← regularizerSquared d a.numCols
  let s ← Elimination.new? a b d2 count
  let reduced ← conjugateGradients s.applyReduced (s.preconditioner kind).apply s.reducedRhs
    minIterations maxIterations tolerance
  pure { reduced with x := s.backSubstitute reduced.x }

end LeastSquares
