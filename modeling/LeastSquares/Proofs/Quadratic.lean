import LeastSquares.Proofs.Complement

/-!
# Quadratic models

The solution of `M x = g` with a positive definite `M` is where the model
`½ xᵀMx - gᵀx` is least. The model is zero at zero, so any vector at which it is
negative is an improvement on no step at all, and solving for some of the
unknowns while the others are kept lowers it as far as they allow.

## Main definitions

* `quadratic` — the model.

## Main results

* `quadratic_add_smul` — the model along a direction.
* `quadratic_of_solves` — the model at a solution.
* `quadratic_fromBlocks` — the model after some unknowns are solved for.
-/

namespace LeastSquares

open Matrix

variable {ι κ : Type} [Fintype ι] [Fintype κ]

/-- The model that the solution of `M x = g` minimizes. -/
noncomputable def quadratic (M : Matrix ι ι ℝ) (g x : ι → ℝ) : ℝ := 0.5 * (x ⬝ᵥ M *ᵥ x) - g ⬝ᵥ x

section Model

variable {M : Matrix ι ι ℝ} {g x : ι → ℝ}

@[simp] theorem quadratic_zero (M : Matrix ι ι ℝ) (g : ι → ℝ) : quadratic M g 0 = 0 := by
  rw [quadratic, zero_dotProduct, dotProduct_zero, mul_zero, sub_zero]

omit [Fintype ι] in
theorem transpose_eq_of_posDef (hM : M.PosDef) : Mᵀ = M :=
  (conjTranspose_eq_transpose_of_trivial M).symm.trans hM.isHermitian

/-- The model along a direction. -/
theorem quadratic_add_smul (hM : M.PosDef) (g x p : ι → ℝ) (l : ℝ) :
    quadratic M g (x + l • p) =
      quadratic M g x - l * ((g - M *ᵥ x) ⬝ᵥ p) + l ^ 2 * (p ⬝ᵥ M *ᵥ p) / 2 := by
  have hswap : x ⬝ᵥ M *ᵥ p = M *ᵥ x ⬝ᵥ p := by
    rw [dotProduct_mulVec, ← mulVec_transpose, transpose_eq_of_posDef hM]
  have hcomm : p ⬝ᵥ M *ᵥ x = M *ᵥ x ⬝ᵥ p := dotProduct_comm _ _
  simp only [quadratic, mulVec_add, mulVec_smul, dotProduct_add, add_dotProduct, dotProduct_smul,
    smul_dotProduct, smul_eq_mul, sub_dotProduct, hswap, hcomm]
  ring

/-- The model at a solution. -/
theorem quadratic_of_solves (hM : M.PosDef) (hx : M *ᵥ x = g) :
    quadratic M g x ≤ 0 ∧ (g ≠ 0 → quadratic M g x < 0) := by
  have hvalue : quadratic M g x = -(x ⬝ᵥ M *ᵥ x / 2) := by
    rw [quadratic, ← hx, dotProduct_comm (M *ᵥ x)]
    ring
  by_cases hzero : x = 0
  · rw [hzero, mulVec_zero] at hx
    rw [hzero, quadratic_zero]
    exact ⟨le_refl 0, fun hg => absurd hx.symm hg⟩
  · have hpos : 0 < x ⬝ᵥ M *ᵥ x := hM.dotProduct_mulVec_pos hzero
    have hneg : quadratic M g x < 0 := by linarith
    exact ⟨hneg.le, fun _ => hneg⟩

/-- The model does not depend on the order of the unknowns. -/
theorem quadratic_submatrix (e : κ ≃ ι) (M : Matrix ι ι ℝ) (g x : ι → ℝ) :
    quadratic (M.submatrix e e) (g ∘ e) (x ∘ e) = quadratic M g x := by
  have hcomp : x ∘ e ∘ e.symm = x := by rw [Equiv.self_comp_symm, Function.comp_id]
  rw [quadratic, submatrix_mulVec_equiv, Function.comp_assoc, hcomp,
    comp_equiv_dotProduct_comp_equiv, comp_equiv_dotProduct_comp_equiv, quadratic]

end Model

/-! ## Elimination -/

section Elimination

variable [DecidableEq ι] {a w : Matrix ι ι ℝ} {b : Matrix ι κ ℝ} {d : Matrix κ κ ℝ}
  {h : ι → ℝ} {f y : κ → ℝ}

theorem transpose_inverse (ha : a.PosDef) (hw : a * w = 1) : wᵀ = w := by
  have hwa : wᵀ * a = 1 := by
    rw [← transpose_eq_of_posDef ha, ← transpose_mul, hw, transpose_one]
  exact left_inv_eq_right_inv hwa hw

/-- The inverse of a positive definite matrix is positive. -/
theorem inverse_dotProduct_pos (ha : a.PosDef) (hw : a * w = 1) (hh : h ≠ 0) :
    0 < h ⬝ᵥ w *ᵥ h := by
  have hself : a *ᵥ (w *ᵥ h) = h := by rw [mulVec_mulVec, hw, one_mulVec]
  have hne : w *ᵥ h ≠ 0 := by
    intro hzero
    rw [hzero, mulVec_zero] at hself
    exact hh hself.symm
  have hpos : 0 < w *ᵥ h ⬝ᵥ a *ᵥ (w *ᵥ h) := ha.dotProduct_mulVec_pos hne
  rwa [hself, dotProduct_comm] at hpos

/-- If the first unknowns are solved for, the model is that of the complement,
lowered by what the first unknowns achieve alone. -/
theorem quadratic_fromBlocks (ha : a.PosDef) (hw : a * w = 1) (h : ι → ℝ) (f y : κ → ℝ) :
    quadratic (fromBlocks a b bᵀ d) (Sum.elim h f) (Sum.elim (w *ᵥ (h - b *ᵥ y)) y) =
      quadratic (d - bᵀ * w * b) (f - bᵀ *ᵥ (w *ᵥ h)) y - h ⬝ᵥ w *ᵥ h / 2 := by
  have hcross : w *ᵥ (h - b *ᵥ y) ⬝ᵥ h = h ⬝ᵥ w *ᵥ h - y ⬝ᵥ bᵀ *ᵥ (w *ᵥ h) := by
    calc w *ᵥ (h - b *ᵥ y) ⬝ᵥ h = (h - b *ᵥ y) ⬝ᵥ w *ᵥ h := by
          rw [dotProduct_comm, dotProduct_mulVec, ← mulVec_transpose, transpose_inverse ha hw,
            dotProduct_comm]
      _ = h ⬝ᵥ w *ᵥ h - y ⬝ᵥ bᵀ *ᵥ (w *ᵥ h) := by
          rw [sub_dotProduct, dotProduct_comm (b *ᵥ y), dotProduct_mulVec (w *ᵥ h) b,
            ← mulVec_transpose, dotProduct_comm y]
  rw [quadratic, fromBlocks_mulVec_eliminated hw, sumElim_dotProduct_sumElim,
    sumElim_dotProduct_sumElim, dotProduct_add, dotProduct_comm h (w *ᵥ (h - b *ᵥ y)), hcross,
    quadratic, sub_dotProduct, dotProduct_comm (bᵀ *ᵥ (w *ᵥ h)) y]
  ring

/-- If the remaining unknowns lower the model of the complement as far as there
is anything to lower, all unknowns together lower the whole model. -/
theorem quadratic_fromBlocks_neg (ha : a.PosDef) (hw : a * w = 1)
    (hy : quadratic (d - bᵀ * w * b) (f - bᵀ *ᵥ (w *ᵥ h)) y ≤ 0)
    (hlow : f - bᵀ *ᵥ (w *ᵥ h) ≠ 0 →
      quadratic (d - bᵀ * w * b) (f - bᵀ *ᵥ (w *ᵥ h)) y < 0)
    (hne : Sum.elim h f ≠ 0) :
    quadratic (fromBlocks a b bᵀ d) (Sum.elim h f) (Sum.elim (w *ᵥ (h - b *ᵥ y)) y) < 0 := by
  rw [quadratic_fromBlocks ha hw]
  by_cases hh : h = 0
  · subst hh
    have hf : f ≠ 0 := by
      rintro rfl
      exact hne Sum.elim_zero_zero
    rw [mulVec_zero, mulVec_zero, sub_zero] at hlow ⊢
    rw [zero_dotProduct, zero_div, sub_zero]
    exact hlow hf
  · have hpos := inverse_dotProduct_pos ha hw hh
    linarith

end Elimination

end LeastSquares
