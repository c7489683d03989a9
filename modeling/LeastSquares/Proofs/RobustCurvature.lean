import LeastSquares.Proofs.Corrector
import Mathlib.LinearAlgebra.Matrix.DotProduct

/-!
# The model of a corrected block

Linear algebra sees a robust residual block through its corrected residual
and Jacobian, and what it uses of them are the gradient `J̃ᵀ r̃` and the matrix
`J̃ᵀ J̃` of the normal equations. The gradient is that of the robust block.
The matrix is the one of the plain block times the slope of the loss, plus a
multiple of rank one of the gradient of the plain block with itself: twice
the curvature of the loss where the loss curves upwards, and nothing where it
does not.

The corrected Jacobian is the Jacobian less a multiple of the residual times
the gradient, so all this is an identity about changes of rank one and an
equation for the factor.

## Main results

* `gram_sub_vecMulVec` — a change of rank one along the gradient.
* `Corrector.new_curvature` — what the factor of the correction solves.
* `Corrector.corrected_model` — gradient and matrix of a corrected block.
-/

namespace LeastSquares

open Matrix

/-! ## Changes of rank one -/

/-- A matrix less a multiple of a vector times its own gradient at that
vector. -/
theorem gram_sub_vecMulVec {m n : Nat} (a : Matrix (Fin m) (Fin n) ℝ) (v : Fin m → ℝ) (k : ℝ) :
    (a - k • vecMulVec v (aᵀ *ᵥ v))ᵀ * (a - k • vecMulVec v (aᵀ *ᵥ v)) =
      aᵀ * a + (k ^ 2 * (v ⬝ᵥ v) - 2 * k) • vecMulVec (aᵀ *ᵥ v) (aᵀ *ᵥ v) := by
  set g := aᵀ *ᵥ v with hg
  have hleft : aᵀ * vecMulVec v g = vecMulVec g g := mul_vecMulVec aᵀ v g
  have hright : vecMulVec g v * a = vecMulVec g g := by
    rw [vecMulVec_mul, hg, mulVec_transpose]
  have hsquare : vecMulVec g v * vecMulVec v g = (v ⬝ᵥ v) • vecMulVec g g := by
    rw [vecMulVec_mul_vecMulVec, vecMulVec_smul]
  rw [transpose_sub, transpose_smul, transpose_vecMulVec, Matrix.sub_mul, Matrix.mul_sub,
    Matrix.mul_sub, Matrix.mul_smul, Matrix.smul_mul, Matrix.smul_mul, Matrix.mul_smul, hleft,
    hright, hsquare, smul_smul, smul_smul]
  module

/-! ## Reading corrections as matrices -/

theorem Mat.toFun_tMulVec {a : Mat ℝ} {m n : Nat} (ha : a.HasShape m n) (v : Vec ℝ) :
    (a.tMulVec v).toFun n = (a.toMatrix m n)ᵀ *ᵥ v.toFun m := by
  obtain ⟨rfl, rfl⟩ := ha
  funext j
  rw [Vec.toFun_apply, Mat.get_tMulVec j.isLt]
  exact Finset.sum_range _

namespace Corrector

variable {c : Corrector ℝ} {loss : Loss ℝ} {residual : Vec ℝ} {jacobian : Mat ℝ} {s : ℝ}
  {m n : Nat}

/-- The correction takes a multiple of the residual times the gradient out of
the Jacobian, and rescales. -/
theorem toMatrix_correctJacobian (hj : jacobian.HasShape m n) :
    (c.correctJacobian residual jacobian).toMatrix m n =
      c.rootSlope • (jacobian.toMatrix m n -
        c.rankOne • vecMulVec (residual.toFun m) ((jacobian.toMatrix m n)ᵀ *ᵥ residual.toFun m)) := by
  rw [← Mat.toFun_tMulVec hj]
  obtain ⟨rfl, rfl⟩ := hj
  ext i j
  rw [Mat.toMatrix_apply, get_correctJacobian i.isLt j.isLt, Matrix.smul_apply, Matrix.sub_apply,
    Matrix.smul_apply, vecMulVec_apply, Mat.toMatrix_apply, Vec.toFun_apply, Vec.toFun_apply,
    smul_eq_mul, smul_eq_mul]
  ring

/-- The factor solves the equation that makes the curvature of the corrected
block that of the loss. -/
theorem new_curvature (hs : 0 < s) (hslope : 0 < (loss.evaluate s).slope) :
    (new loss s).rootSlope ^ 2 * ((new loss s).rankOne ^ 2 * s - 2 * (new loss s).rankOne) =
      2 * max (loss.evaluate s).curvature 0 := by
  have hroot : √(loss.evaluate s).slope ^ 2 = (loss.evaluate s).slope := Real.sq_sqrt hslope.le
  unfold new
  dsimp only
  split
  · rename_i hflat
    simp only [Bool.or_eq_true, real_beq, decide_eq_true_eq, real_le, real_zero, hs.ne',
      false_or] at hflat
    simp [hflat]
  · rename_i hcurved
    simp only [Bool.or_eq_true, real_beq, decide_eq_true_eq, real_le, real_zero, hs.ne',
      false_or, not_le] at hcurved
    have hd : (0 : ℝ) ≤ 1 + 2.0 * s * (loss.evaluate s).curvature / (loss.evaluate s).slope := by
      positivity
    have hsq := Real.sq_sqrt hd
    simp only [real_sqrt, real_add, real_sub, real_mul, real_div, real_one, real_ofScientific]
    rw [max_eq_left hcurved.le, hroot]
    generalize √(1 + 2.0 * s * (loss.evaluate s).curvature / (loss.evaluate s).slope) = d at hsq ⊢
    -- with `a = 1 - d` the factor is `a / s`, and `a² - 2 a = d² - 1`
    have hfactor : ((1 - d) / s) ^ 2 * s - 2 * ((1 - d) / s) = (d ^ 2 - 1) / s := by
      field_simp
      ring
    rw [hfactor, hsq, real_two]
    field_simp
    ring

theorem new_rootSlope : (new loss s).rootSlope = √(loss.evaluate s).slope := by
  unfold new
  dsimp only
  split <;> rfl

/-- Along the gradient the equation holds at every residual: one of length
zero has no gradient. -/
theorem rankOne_correction (hsize : residual.size = m)
    (hslope : 0 < (loss.evaluate residual.normSq).slope) (J : Matrix (Fin m) (Fin n) ℝ) :
    let c := new loss residual.normSq
    let r := residual.toFun m
    (c.rootSlope ^ 2 * (c.rankOne ^ 2 * (r ⬝ᵥ r) - 2 * c.rankOne)) •
        vecMulVec (Jᵀ *ᵥ r) (Jᵀ *ᵥ r) =
      (2 * max (loss.evaluate residual.normSq).curvature 0) • vecMulVec (Jᵀ *ᵥ r) (Jᵀ *ᵥ r) := by
  intro c r
  have hnorm : residual.normSq = r ⬝ᵥ r := Vec.dot_eq_dotProduct hsize
  rcases residual.normSq_nonneg.eq_or_lt with hzero | hpos
  · have hr : r = 0 := dotProduct_self_eq_zero.mp (hnorm.symm.trans hzero.symm)
    simp only [hr, mulVec_zero, vecMulVec_zero, smul_zero]
  · rw [← hnorm, new_curvature hpos hslope]

/-- A corrected block has the gradient of the robust block, and the matrix of
its normal equations is that of the plain block times the slope of the loss,
plus what the loss curves upwards along the gradient of the plain block. -/
theorem corrected_model (loss : Loss ℝ) (hsize : residual.size = m)
    (hj : jacobian.HasShape m n) (hslope : 0 < (loss.evaluate residual.normSq).slope) :
    let rho := loss.evaluate residual.normSq
    let r := residual.toFun m
    let J := jacobian.toMatrix m n
    let corrected := (new loss residual.normSq).correctResidual residual
    ∃ jacobian', (new loss residual.normSq).correctJacobian? residual jacobian = .ok jacobian' ∧
      jacobian'.HasShape m n ∧ corrected.size = m ∧
      (jacobian'.toMatrix m n)ᵀ *ᵥ corrected.toFun m = rho.slope • (Jᵀ *ᵥ r) ∧
      (jacobian'.toMatrix m n)ᵀ * jacobian'.toMatrix m n =
        rho.slope • (Jᵀ * J) + (2 * max rho.curvature 0) • vecMulVec (Jᵀ *ᵥ r) (Jᵀ *ᵥ r) := by
  intro rho r J corrected
  have hshape : ((new loss residual.normSq).correctJacobian residual jacobian).HasShape m n := by
    obtain ⟨hr, hc⟩ : ((new loss residual.normSq).correctJacobian residual jacobian).HasShape
        jacobian.rows jacobian.cols := hasShape_correctJacobian
    exact ⟨hr.trans hj.1, hc.trans hj.2⟩
  refine ⟨_, if_pos ?_, hshape, (Vec.size_scale _ _).trans hsize, ?_, ?_⟩
  · rw [hsize, hj.1, beq_self_eq_true, Bool.or_true]
  · rw [← Mat.toFun_tMulVec hshape, ← Mat.toFun_tMulVec hj, ← Vec.toFun_scale,
      tMulVec_correctJacobian (hj.1.trans hsize.symm) hslope]
  · rw [toMatrix_correctJacobian hj, transpose_smul, Matrix.smul_mul, Matrix.mul_smul,
      gram_sub_vecMulVec, smul_smul, smul_add, smul_smul, ← pow_two, rankOne_correction hsize hslope,
      new_rootSlope, Real.sq_sqrt hslope.le]

/-- The loss `s + s²`, which curves upwards everywhere. -/
noncomputable def bent : Loss ℝ where
  evaluate s := ⟨s + s * s, 1 + (s + s), 1 + 1⟩

/-- One residual of length two and slope three: the loss rises nine times as
fast there, and its curvature adds `4 · 6²` to `9 · 3²`. -/
theorem corrected_model_bent :
    let r : Vec ℝ := Vec.ofList [2]
    let J : Mat ℝ := Mat.ofRows 1 [[3]]
    let c := new bent r.normSq
    0 < (bent.evaluate r.normSq).slope ∧
      ∃ J', c.correctJacobian? r J = .ok J' ∧
        ((J'.toMatrix 1 1)ᵀ *ᵥ (c.correctResidual r).toFun 1) 0 = 54 ∧
        ((J'.toMatrix 1 1)ᵀ * J'.toMatrix 1 1) 0 0 = 225 := by
  intro r J c
  have hnorm : r.normSq = 4 := by
    norm_num [r, Vec.normSq_eq_sum, Vec.get, Vec.ofList, Vec.size]
  have hslope : 0 < (bent.evaluate r.normSq).slope := by
    norm_num [hnorm, bent]
  have hsize : r.size = 1 := rfl
  have hj : J.HasShape 1 1 := ⟨rfl, rfl⟩
  obtain ⟨J', hJ', -, -, hgradient, hmatrix⟩ := corrected_model bent hsize hj hslope
  have hentry : ((J.toMatrix 1 1)ᵀ *ᵥ r.toFun 1) 0 = 6 := by
    norm_num [mulVec, dotProduct, r, J, Mat.get, Mat.ofRows, Vec.get, Vec.ofList]
  refine ⟨hslope, J', hJ', ?_, ?_⟩
  · rw [hgradient, Pi.smul_apply, hentry, hnorm]
    norm_num [bent]
  · rw [hmatrix, Matrix.add_apply, Matrix.smul_apply, Matrix.smul_apply, vecMulVec_apply, hentry,
      hnorm]
    norm_num [bent, Matrix.mul_apply, J, Mat.get, Mat.ofRows]

end Corrector

end LeastSquares
