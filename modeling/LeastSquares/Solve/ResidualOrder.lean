import LeastSquares.Problem.Program
import LeastSquares.Solve.Buckets

/-!
# Order of residual blocks

A Schur solver needs the rows of the Jacobian grouped by the eliminated
block they read. Every residual block goes into a bucket: the lowest place
in the program of a block it reads that is not held constant, or the last
bucket if none of these is eliminated. Inside a bucket the order stays as it
was.

## Main definitions

* `Program.reorderResiduals` — putting residual blocks into buckets, in place.
* `Program.orderResiduals` — the program with its residual blocks in
  buckets, and the sizes of the buckets.
-/

namespace LeastSquares.Program

variable {α σ : Type} [Scalar α]

/-- The lowest bucket among some blocks, if it is below `bucket`. -/
def lowestBucket (g : Program) (p : Problem α σ) (bucket : Nat) :
    List BlockId → Except ModelError Nat
  | [] => .ok bucket
  | id :: rest =>
      match p.block id with
      | .error e => .error e
      | .ok b =>
          let place := if b.constant then none else id.lastPlace? g.blocks
          g.lowestBucket p (min bucket (place.getD bucket)) rest

/-- The bucket of a residual block. -/
def bucketOf (g : Program) (p : Problem α σ) (eliminated : Nat) (r : ResidualId) :
    Except ModelError Nat :=
  match p.residual r with
  | .error e => .error e
  | .ok block => g.lowestBucket p eliminated block.blocks

/-- Puts the residual blocks into buckets, one for each of the first blocks and
one more, and answers the sizes of the buckets. -/
def reorderResiduals (g : Program) (p : Problem α σ) (eliminated : Nat) :
    InPlace (Stop ModelError) (List Nat) Program :=
  if eliminated = 0 then (.error (.fault .nothingEliminated), g)
  else
    match g.residuals.mapM fun r => (g.bucketOf p eliminated r).map fun k => (k, r) with
    | .error e => (.error (.error e), g)
    | .ok keyed =>
        match Buckets.sort (eliminated + 1) keyed with
        | .error f => (.error (.fault f), g)
        | .ok (sizes, residuals) => (.ok sizes, { g with residuals })

/-- The sizes of the buckets and the program with its residual blocks in
buckets. -/
def orderResiduals (g : Program) (p : Problem α σ) (eliminated : Nat) :
    Outcome ModelError (List Nat × Program) :=
  (g.reorderResiduals p eliminated).result

end LeastSquares.Program
