import LeastSquares.Linear.Vec

/-!
# Limited-memory quasi-Newton directions

The inverse of the Hessian is approximated from the most recent moves `s`
and the changes `y` of the gradient that came with them. The approximation
is never formed: its product with a vector unwinds the pairs from the newest
to the oldest, scales, and winds them up again from the oldest to the newest.

A pair whose `sᵀy` is not clearly positive is not remembered, so that the
approximation stays positive definite. When the memory holds as many pairs as
its rank says, the oldest pair gives way.

## Main definitions

* `Lbfgs.update` — remembering a pair.
* `Lbfgs.direction` — the quasi-Newton direction for a gradient.
-/

namespace LeastSquares

/-- A move with the change of the gradient. -/
structure Correction (α : Type) where
  s : Vec α
  y : Vec α
deriving Repr

/-- The memory: a queue of moves and a queue of changes, the oldest in front. -/
structure Lbfgs (α : Type) where
  rank : Nat
  s : List (Vec α)
  y : List (Vec α)
deriving Repr

namespace Lbfgs

variable {α : Type} [Scalar α]

/-- The empty memory. -/
def new (rank : Nat) : Lbfgs α := ⟨rank, [], []⟩

/-- The memory with all pairs forgotten. -/
def reset (m : Lbfgs α) : Lbfgs α := { m with s := [], y := [] }

/-- Whether a pair has no clearly positive curvature. -/
def isFlat (c : Correction α) : Bool := c.s.dot c.y ≤ Scalar.epsilon * c.y.normSq

/-- The memory without its oldest pair, if it holds as many as its rank says. -/
def makeRoom (m : Lbfgs α) : Lbfgs α :=
  if m.s.length = m.rank then { m with s := m.s.tail, y := m.y.tail } else m

/-- The memory with one more pair, if the pair is worth remembering. -/
def update (m : Lbfgs α) (c : Correction α) : Lbfgs α :=
  if isFlat c then m
  else
    let m := m.makeRoom
    { m with s := m.s ++ [c.s], y := m.y ++ [c.y] }

/-! ## Directions -/

/-- The remembered pairs, the oldest in front. -/
def pairs (m : Lbfgs α) : List (Correction α) := List.zipWith Correction.mk m.s m.y

/-- The factors with which a pair was unwound: the inverse of its curvature, and
how much of the vector went along it. -/
structure Unwound (α : Type) where
  rho : α
  along : α
deriving Repr

/-- Unwinds one pair from a vector, and notes the factors. -/
def unwind (state : Vec α × List (Unwound α)) (c : Correction α) : Vec α × List (Unwound α) :=
  let rho := 1 / c.y.dot c.s
  let along := rho * c.s.dot state.1
  (state.1.addScaled (-along) c.y, state.2 ++ [⟨rho, along⟩])

/-- Winds one pair up again, with the factors that were noted for it. -/
def wind (r : Vec α) (step : Correction α × Unwound α) : Vec α :=
  let (c, noted) := step
  let beta := noted.rho * c.y.dot r
  r.addScaled (noted.along - beta) c.s

/-- The scale of the approximation before any pair is wound up: the curvature
of the newest pair. -/
def gamma (m : Lbfgs α) : α :=
  match m.s.getLast?, m.y.getLast? with
  | some s, some y => s.dot y / y.normSq
  | _, _ => 1

/-- The approximate inverse times a vector. -/
def applyInverse (m : Lbfgs α) (v : Vec α) : Vec α :=
  let (q, noted) := m.pairs.reverse.foldl unwind (v, [])
  (m.pairs.zip noted.reverse).foldl wind (q.scale m.gamma)

/-- The quasi-Newton direction for a gradient. -/
def direction (m : Lbfgs α) (gradient : Vec α) : Vec α := -m.applyInverse gradient

end Lbfgs

end LeastSquares
