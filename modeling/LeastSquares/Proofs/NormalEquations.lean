import LeastSquares.LinearSolver.Direct
import LeastSquares.Proofs.BlockMatrix
import LeastSquares.Proofs.Factorizations

/-!
# The normal equations

The matrix `A` of a linear least squares problem is stored by blocks, and its
normal matrix `AᵀA + D²` and right-hand side `Aᵀb` are sums over row blocks,
one column block against another. The dense solver factors the normal matrix,
so over the real numbers it returns the solution whenever there is exactly
one.

## Main definitions

* `BlockMatrix.toMatrix` — the matrix that is stored.
* `BlockMatrix.gram`, `BlockMatrix.moment` — the entries of `AᵀA` and `Aᵀb`
  by column blocks.

## Main results

* `toMatrix_normalMatrix` — the normal matrix.
* `denseNormal?_spec` — the solution by a dense factorization.
-/

namespace LeastSquares

open Matrix
open Finset (range)

namespace BlockMatrix

variable {a : BlockMatrix ℝ} {b c : Block} {row : BlockRow ℝ} {v : Vec ℝ} {k l i j r : Nat}

/-! ## The dense form -/

/-- The matrix that is stored. -/
noncomputable def toMatrix (a : BlockMatrix ℝ) : Matrix (Fin a.numRows) (Fin a.numCols) ℝ :=
  a.toDense.toMatrix a.numRows a.numCols

/-- A sum over the rows is a sum over the row blocks. -/
theorem WellFormed.sum_rows (ha : a.WellFormed) (f : Nat → ℝ) :
    ∑ p ∈ range a.numRows, f p =
      (a.rows.map fun row => ∑ t ∈ range row.block.size, f (row.block.position + t)).sum := by
  rw [numRows, sum_range_total, ← ha.rows, List.map_map]
  rfl

/-! ## The normal matrix by blocks -/

/-- The entry of `AᵀA` at an entry of one column block and one of another. -/
noncomputable def gram (a : BlockMatrix ℝ) (k i l j : Nat) : ℝ :=
  (a.rows.map fun row => ∑ t ∈ range row.block.size, row.entry k t i * row.entry l t j).sum

/-- The entry of `Aᵀb` at an entry of a column block. -/
noncomputable def moment (a : BlockMatrix ℝ) (v : Vec ℝ) (k i : Nat) : ℝ :=
  (a.rows.map fun row =>
    ∑ t ∈ range row.block.size, row.entry k t i * v.get (row.block.position + t)).sum

theorem gram_comm (a : BlockMatrix ℝ) (k i l j : Nat) : a.gram k i l j = a.gram l j k i := by
  simp only [gram, mul_comm]

theorem WellFormed.gram_eq (ha : a.WellFormed) (hb : a.columns[k]? = some b) (hi : i < b.size)
    (hc : a.columns[l]? = some c) (hj : j < c.size) :
    ∑ p ∈ range a.numRows, a.toDense.get p (b.position + i) * a.toDense.get p (c.position + j) =
      a.gram k i l j := by
  rw [ha.sum_rows, gram]
  refine congrArg List.sum (List.map_congr_left fun row hrow => Finset.sum_congr rfl fun t ht => ?_)
  obtain ⟨r, hr⟩ := List.mem_iff_getElem?.mp hrow
  rw [ha.get_toDense hr (Finset.mem_range.mp ht) hb hi,
    ha.get_toDense hr (Finset.mem_range.mp ht) hc hj]

theorem WellFormed.moment_eq (ha : a.WellFormed) (hb : a.columns[k]? = some b) (hi : i < b.size) :
    ∑ p ∈ range a.numRows, a.toDense.get p (b.position + i) * v.get p = a.moment v k i := by
  rw [ha.sum_rows, moment]
  refine congrArg List.sum (List.map_congr_left fun row hrow => Finset.sum_congr rfl fun t ht => ?_)
  obtain ⟨r, hr⟩ := List.mem_iff_getElem?.mp hrow
  rw [ha.get_toDense hr (Finset.mem_range.mp ht) hb hi]

end BlockMatrix

/-! ## The dense solver -/

variable {a : BlockMatrix ℝ} {b d2 : Vec ℝ}

/-- The matrix of the normal equations. -/
noncomputable def normalSystem (a : BlockMatrix ℝ) (d2 : Vec ℝ) :
    Matrix (Fin a.numCols) (Fin a.numCols) ℝ :=
  a.toMatrixᵀ * a.toMatrix + diagonal (d2.toFun a.numCols)

theorem posSemidef_gram (a : BlockMatrix ℝ) : (a.toMatrixᵀ * a.toMatrix).PosSemidef := by
  rw [← conjTranspose_eq_transpose_of_trivial]
  exact posSemidef_conjTranspose_mul_self a.toMatrix

/-- A regularizer with positive squares makes the normal equations definite. -/
theorem posDef_normalSystem (hd : ∀ i < a.numCols, 0 < d2.get i) : (normalSystem a d2).PosDef :=
  .posSemidef_add (posSemidef_gram a) (posDef_diagonal_iff.mpr fun i => hd i i.isLt)

theorem toMatrix_normalMatrix (a : BlockMatrix ℝ) (d2 : Vec ℝ) :
    (normalMatrix a d2).toMatrix a.numCols a.numCols = normalSystem a d2 := by
  ext i j
  have htMul : (a.toDense.tMul a.toDense).get i j = (a.toMatrixᵀ * a.toMatrix) i j := by
    rw [Mat.get_tMul i.isLt j.isLt, mul_apply]
    exact Finset.sum_range _
  have hget : (normalMatrix a d2).get i j = if (i : Nat) = j then
      (a.toDense.tMul a.toDense).get i j + d2.get i else (a.toDense.tMul a.toDense).get i j :=
    Mat.get_ofFn _ i.isLt j.isLt
  rw [Mat.toMatrix_apply, hget, htMul, normalSystem, Matrix.add_apply, diagonal_apply]
  simp only [Fin.ext_iff]
  split
  · rfl
  · rw [add_zero]

/-- The transpose of the dense form times a vector. -/
theorem toFun_tMulVec_toDense (a : BlockMatrix ℝ) (b : Vec ℝ) :
    (a.toDense.tMulVec b).toFun a.numCols = a.toMatrixᵀ *ᵥ b.toFun a.numRows := by
  funext j
  rw [Vec.toFun_apply, Mat.get_tMulVec j.isLt]
  exact Finset.sum_range _

/-- If the normal matrix is positive definite, the dense solver succeeds and
what it returns solves the normal equations. -/
theorem denseNormal?_spec {d : Option (Vec ℝ)} (hd : regularizerSquared d a.numCols = .ok d2)
    (hb : b.size = a.numRows) (h : (normalSystem a d2).PosDef) :
    ∃ x, denseNormal? a b d = .ok x ∧ x.size = a.numCols ∧
      normalSystem a d2 *ᵥ x.toFun a.numCols = a.toMatrixᵀ *ᵥ b.toFun a.numRows := by
  rw [← toMatrix_normalMatrix] at h ⊢
  obtain ⟨c, hc, hsolve, -⟩ := Factorizations.exact_provided.factors (n := a.numCols) rfl h
  obtain ⟨hsize, hx⟩ := hsolve (a.toDense.tMulVec b)
  rw [Factorizations.factor?_provided] at hc
  refine ⟨_, ?_, hsize, hx.trans (toFun_tMulVec_toDense a b)⟩
  simp only [denseNormal?, hd, Outcome.ofExcept, bind, Except.bind, hb, ne_eq, not_true_eq_false,
    if_false, hc]
  rfl

end LeastSquares
