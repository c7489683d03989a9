import Mathlib.Data.Matrix.ColumnRowPartitioned
import Mathlib.LinearAlgebra.Matrix.PosDef

/-!
# Complements of blocks

A symmetric system in two groups of unknowns is solved group by group. If the
first group can be eliminated, a system for the second group is left, whose
matrix is the complement `d - bᵀ a⁻¹ b` of the first block. The whole system
is solved exactly by what solves the complement, and the whole matrix is
positive definite exactly if the first block and the complement are.

## Main results

* `fromBlocks_mulVec_eliminated` — what the whole matrix makes of a solution
  for the first group.
* `posDef_complement`, `posDef_fromBlocks` — definiteness, block by block.
-/

namespace LeastSquares

open Matrix

variable {ι κ : Type} [Fintype ι] [Fintype κ] [DecidableEq ι]
  {a w : Matrix ι ι ℝ} {b : Matrix ι κ ℝ} {d : Matrix κ κ ℝ}

/-- If the first group of unknowns solves its equations, the equations of the
second group are those of the complement. -/
theorem fromBlocks_mulVec_eliminated (hw : a * w = 1) (g : ι → ℝ) (y : κ → ℝ) :
    fromBlocks a b bᵀ d *ᵥ Sum.elim (w *ᵥ (g - b *ᵥ y)) y =
      Sum.elim g ((d - bᵀ * w * b) *ᵥ y + bᵀ *ᵥ (w *ᵥ g)) := by
  rw [fromBlocks_mulVec, Sum.elim_comp_inl, Sum.elim_comp_inr]
  congr 1
  · rw [mulVec_mulVec, hw, one_mulVec, sub_add_cancel]
  · rw [mulVec_sub, mulVec_sub, sub_mulVec, ← mulVec_mulVec, ← mulVec_mulVec, mulVec_mulVec y w b]
    abel

/-- The complement is positive definite if the whole matrix is. -/
theorem posDef_complement [DecidableEq κ] (h : (fromBlocks a b bᵀ d).PosDef) (hw : a * w = 1) :
    (d - bᵀ * w * b).PosDef := by
  have hinjective : Function.Injective (fromRows (-(w * b)) (1 : Matrix κ κ ℝ)).mulVec := by
    intro x y hxy
    rw [fromRows_mulVec, fromRows_mulVec, one_mulVec, one_mulVec] at hxy
    exact funext fun k => congrFun hxy (Sum.inr k)
  have hfirst : a * -(w * b) + b * (1 : Matrix κ κ ℝ) = 0 := by
    rw [Matrix.mul_neg, ← Matrix.mul_assoc, hw, Matrix.one_mul, Matrix.mul_one, neg_add_cancel]
  have hsecond : bᵀ * -(w * b) + d * (1 : Matrix κ κ ℝ) = d - bᵀ * w * b := by
    rw [Matrix.mul_neg, ← Matrix.mul_assoc, Matrix.mul_one, neg_add_eq_sub]
  have hpos := h.conjTranspose_mul_mul_same hinjective
  rwa [Matrix.mul_assoc, fromBlocks_mul_fromRows, hfirst, hsecond,
    conjTranspose_fromRows_eq_fromCols_conjTranspose, fromCols_mul_fromRows, Matrix.mul_zero,
    zero_add, conjTranspose_one, Matrix.one_mul] at hpos

omit [Fintype ι] [Fintype κ] [DecidableEq ι] in
theorem posDef_of_fromBlocks (h : (fromBlocks a b bᵀ d).PosDef) : a.PosDef :=
  h.submatrix Sum.inl_injective

/-- A matrix is positive definite if its first block and the complement are:
its quadratic form is the sum of theirs. -/
theorem posDef_fromBlocks (ha : a.PosDef) (hd : (d - bᵀ * w * b).PosDef) (hw : a * w = 1)
    (hsymm : dᵀ = d) : (fromBlocks a b bᵀ d).PosDef := by
  have hasymm : aᵀ = a := (conjTranspose_eq_transpose_of_trivial a).symm.trans ha.isHermitian
  have hwa : w * a = 1 := mul_eq_one_comm.mp hw
  have hherm : (fromBlocks a b bᵀ d).IsHermitian := by
    rw [IsHermitian, conjTranspose_eq_transpose_of_trivial, fromBlocks_transpose, hasymm, hsymm,
      transpose_transpose]
  refine .of_dotProduct_mulVec_pos hherm fun x hx => ?_
  obtain ⟨x₁, y, rfl⟩ : ∃ x₁ y, x = Sum.elim x₁ y := ⟨_, _, (Sum.elim_comp_inl_inr x).symm⟩
  let u := x₁ + w *ᵥ (b *ᵥ y)
  have hx₁ : x₁ = w *ᵥ (a *ᵥ u - b *ᵥ y) := by
    rw [mulVec_sub, mulVec_mulVec, hwa, one_mulVec, add_sub_cancel_right]
  have hmul : fromBlocks a b bᵀ d *ᵥ Sum.elim x₁ y =
      Sum.elim (a *ᵥ u) ((d - bᵀ * w * b) *ᵥ y + bᵀ *ᵥ u) := by
    have h := fromBlocks_mulVec_eliminated hw (b := b) (d := d) (a *ᵥ u) y
    rwa [← hx₁, mulVec_mulVec u w a, hwa, one_mulVec] at h
  have hcross : x₁ ⬝ᵥ (a *ᵥ u) + y ⬝ᵥ (bᵀ *ᵥ u) = u ⬝ᵥ (a *ᵥ u) := by
    have hby : w *ᵥ (b *ᵥ y) ⬝ᵥ (a *ᵥ u) = y ⬝ᵥ (bᵀ *ᵥ u) := by
      rw [dotProduct_mulVec, ← mulVec_transpose, hasymm, mulVec_mulVec, hw, one_mulVec,
        dotProduct_mulVec y, ← mulVec_transpose, transpose_transpose]
    rw [← hby, ← add_dotProduct]
  have hform : star (Sum.elim x₁ y) ⬝ᵥ (fromBlocks a b bᵀ d *ᵥ Sum.elim x₁ y) =
      u ⬝ᵥ (a *ᵥ u) + y ⬝ᵥ ((d - bᵀ * w * b) *ᵥ y) := by
    rw [star_trivial, hmul, sumElim_dotProduct_sumElim, dotProduct_add, ← hcross]
    ring
  rw [hform]
  by_cases hy : y = 0
  · have hu : u ≠ 0 := by
      intro hu
      refine hx ?_
      have hx₁ : x₁ = 0 := by
        simpa [u, hy] using hu
      rw [hx₁, hy]
      exact Sum.elim_zero_zero
    rw [hy, zero_dotProduct, add_zero]
    exact ha.dotProduct_mulVec_pos hu
  · exact add_pos_of_nonneg_of_pos (ha.posSemidef.dotProduct_mulVec_nonneg u)
      (hd.dotProduct_mulVec_pos hy)

end LeastSquares
