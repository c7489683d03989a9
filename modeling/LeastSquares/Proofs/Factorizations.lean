import LeastSquares.Proofs.Reflections
import LeastSquares.Proofs.SparseFactors

/-!
# What solvers use of factorizations

Linear solvers factor matrices in three ways: a symmetric matrix with all its
entries, the columns of an overdetermined system, and a symmetric matrix with few
entries whose pattern has been analysed before. What holds of the solvers does not
depend on how a factorization goes about it. It depends on the sizes of what comes
out, on the faults of a pattern that was not the analysed one, and, in exact
arithmetic, on the results being solutions.

## Main definitions

* `Factorizations` — the operations.
* `Factorizations.Lawful` — what they keep to in every arithmetic.
* `Factorizations.Exact` — what they find in exact arithmetic.
* `Factorizations.provided` — the ones that the solvers call.

## Main results

* `Factorizations.lawful_provided`, `Factorizations.exact_provided`.
-/

namespace LeastSquares

open Matrix
open Outcome (FaultsWithin)

/-- The factorizations that linear solvers are built on. -/
structure Factorizations (α : Type) [Scalar α] where
  /-- What is left of a symmetric matrix that has been factored. -/
  Factor : Type
  factor? : Mat α → Option Factor
  solve : Factor → Vec α → Vec α
  inverse : Factor → Mat α
  /-- The minimizer of an overdetermined system. -/
  leastSquares? : Mat α → Vec α → Option (Vec α)
  /-- The solution of a symmetric system from the analysis of a pattern, which
  is meant to be the one of the matrix. -/
  solveSparse? : SparsityAnalysis → List (Nat × Nat) → Mat α → Vec α → Outcome LinearError (Vec α)

namespace Factorizations

/-- In every arithmetic results are as large as the matrix asks for, and no fault
can be met but by a matrix of another pattern than the analysed one, which is met
where the matrix has more entries on and above its diagonal than the analysis has
positions. -/
structure Lawful {α : Type} [Scalar α] (f : Factorizations α) : Prop where
  size_solve : ∀ {m : Mat α} {c : f.Factor}, f.factor? m = some c →
    ∀ b, (f.solve c b).size = m.rows
  rows_inverse : ∀ {m : Mat α} {c : f.Factor}, f.factor? m = some c → (f.inverse c).rows = m.rows
  size_leastSquares : ∀ {m : Mat α} {b x : Vec α}, f.leastSquares? m b = some x → x.size = m.cols
  size_solveSparse : ∀ {s : SparsityAnalysis} {pattern : List (Nat × Nat)} {m : Mat α}
    {b x : Vec α}, f.solveSparse? s pattern m b = .ok x → x.size = s.dimension
  fault_solveSparse : ∀ (s : SparsityAnalysis) (pattern : List (Nat × Nat)) (m : Mat α)
    (b : Vec α), FaultsWithin (fun fault => fault = .patternMismatch ∧ s.pattern ≠ pattern)
      (f.solveSparse? s pattern m b)
  overfull : ∀ {s : SparsityAnalysis} {pattern : List (Nat × Nat)},
    s.pattern.length < (pattern.filter fun p => p.1 ≤ p.2).length → ∀ (m : Mat α) (b : Vec α),
      f.solveSparse? s pattern m b = .error (.fault .patternMismatch)

/-- In exact arithmetic symmetric matrices have a factor if and only if they are
positive definite. Factors solve and invert, independent columns have a minimizer,
and with the analysis of their own pattern positive definite matrices with few
entries are solved as well. -/
structure Exact (f : Factorizations ℝ) : Prop where
  definite : ∀ {m : Mat ℝ} {n : Nat} {c : f.Factor}, m.rows = n →
    (m.toMatrix n n).IsHermitian → f.factor? m = some c → (m.toMatrix n n).PosDef
  factors : ∀ {m : Mat ℝ} {n : Nat}, m.rows = n → (m.toMatrix n n).PosDef →
    ∃ c, f.factor? m = some c ∧
      (∀ b, (f.solve c b).size = n ∧ m.toMatrix n n *ᵥ (f.solve c b).toFun n = b.toFun n) ∧
      (f.inverse c).HasShape n n ∧ m.toMatrix n n * (f.inverse c).toMatrix n n = 1
  leastSquares : ∀ {a : Mat ℝ} {b : Vec ℝ} {m n : Nat}, a.rows = m → a.cols = n → b.size = m →
    Function.Injective (a.toMatrix m n).mulVec →
      ∃ x, f.leastSquares? a b = some x ∧ x.size = n ∧
        (a.toMatrix m n)ᵀ *ᵥ (a.toMatrix m n *ᵥ x.toFun n) = (a.toMatrix m n)ᵀ *ᵥ b.toFun m
  solveSparse : ∀ {s : SparsityAnalysis} {pattern : List (Nat × Nat)} {m : Mat ℝ} {n : Nat}
    (b : Vec ℝ), s.dimension = n → s.pattern = pattern → (m.toMatrix n n).PosDef →
      ∃ x, f.solveSparse? s pattern m b = .ok x ∧ x.size = n ∧
        m.toMatrix n n *ᵥ x.toFun n = b.toFun n

/-- The factorizations that are there: triangular factors, reflections, and
triangular factors of relabelled matrices. -/
def provided (α : Type) [Scalar α] : Factorizations α where
  Factor := Cholesky α
  factor? := Cholesky.factor? .quotient
  solve := Cholesky.solve
  inverse := Cholesky.inverse
  leastSquares? := LeastSquares.leastSquares?
  solveSparse? := SparsityAnalysis.solve?

section Provided

variable {α : Type} [Scalar α]

theorem factor?_provided (m : Mat α) : (provided α).factor? m = Cholesky.factor? .quotient m := rfl

theorem solveSparse?_provided (s : SparsityAnalysis) (pattern : List (Nat × Nat)) (m : Mat α)
    (b : Vec α) : (provided α).solveSparse? s pattern m b = s.solve? pattern m b := rfl

theorem lawful_provided : (provided α).Lawful where
  size_solve h b := (Cholesky.size_solve _ b).trans (Cholesky.size_of_factor? h)
  rows_inverse h := (Cholesky.rows_inverse _).trans (Cholesky.size_of_factor? h)
  size_leastSquares := LeastSquares.size_leastSquares?
  size_solveSparse := SparsityAnalysis.size_solve?
  fault_solveSparse := SparsityAnalysis.faultsWithin_solve?
  overfull := SparsityAnalysis.solve?_overfull

end Provided

theorem exact_provided : (provided ℝ).Exact where
  definite hrows hsymm h :=
    (Cholesky.isSome_factor?_iff .quotient hrows hsymm).mp (Option.isSome_of_eq_some h)
  factors := Cholesky.factor?_spec .quotient
  leastSquares := leastSquares?_spec
  solveSparse := SparsityAnalysis.solve?_spec

end Factorizations

end LeastSquares
