import LeastSquares.Cost.Evaluation
import LeastSquares.Proofs.Matrices

/-!
# Corrected residuals and Jacobians

The corrector trades a robust residual block for a plain one. What the plain
block has to share with the robust one is the gradient: the transposed
corrected Jacobian times the corrected residual is the slope of the loss times
the transposed Jacobian times the residual. The two factors that the residual
and the Jacobian are rescaled by cancel for every loss that rises at the
squared length of the residual, whichever way it curves.

## Main results

* `Corrector.new_balanced` — the factors cancel.
* `Corrector.tMulVec_correctJacobian` — the gradient of a corrected block.
* `Corrector.rescales_of_curvature_nonpos` — corrections that only rescale.
-/

namespace LeastSquares

open Finset (range)

/-- The weight that a loss gives a residual block: its slope at the squared
length of the residuals, and one without a loss. -/
noncomputable def slopeOf (loss : Option (Loss ℝ)) (residuals : Vec ℝ) : ℝ :=
  match loss with
  | some loss => (loss.evaluate residuals.normSq).slope
  | none => 1

namespace Corrector

variable {c : Corrector ℝ} {loss : Loss ℝ} {residual : Vec ℝ} {jacobian : Mat ℝ} {s : ℝ}
  {i j : Nat}

/-- Rescaling alone is the correction without a rank one term. -/
theorem get_correctJacobian (hi : i < jacobian.rows) (hj : j < jacobian.cols) :
    (c.correctJacobian residual jacobian).get i j =
      (jacobian.get i j - residual.get i * (jacobian.tMulVec residual).get j * c.rankOne) *
        c.rootSlope := by
  unfold correctJacobian
  split
  · rename_i hzero
    rw [real_beq, real_zero] at hzero
    rw [Mat.get_scale _ hi hj, hzero, mul_zero, sub_zero]
  · exact Mat.get_ofFn _ hi hj

theorem hasShape_correctJacobian :
    (c.correctJacobian residual jacobian).HasShape jacobian.rows jacobian.cols := by
  unfold correctJacobian
  split <;> exact ⟨rfl, rfl⟩

/-- What the residual loses to `1 - a`, the Jacobian gains along the
residual. -/
theorem new_balanced (hs : 0 ≤ s) (hslope : 0 < (loss.evaluate s).slope) :
    (new loss s).rootSlope * (new loss s).residualScale * (1 - (new loss s).rankOne * s) =
      (loss.evaluate s).slope := by
  have hroot : √(loss.evaluate s).slope * √(loss.evaluate s).slope = (loss.evaluate s).slope :=
    Real.mul_self_sqrt hslope.le
  unfold new
  dsimp only
  split
  · simpa using hroot
  · rename_i hcurved
    simp only [Bool.or_eq_true, real_beq, decide_eq_true_eq, real_le, real_zero, not_or,
      not_le] at hcurved
    obtain ⟨hs0, hcurvature⟩ := hcurved
    have hd : 0 < 1 + 2.0 * s * (loss.evaluate s).curvature / (loss.evaluate s).slope := by
      positivity
    have hne := (Real.sqrt_pos.mpr hd).ne'
    simp only [real_sqrt, real_add, real_sub, real_mul, real_div, real_one, real_ofScientific]
    generalize √(1 + 2.0 * s * (loss.evaluate s).curvature / (loss.evaluate s).slope) = d
      at hne ⊢
    rw [sub_sub_cancel, div_mul_cancel₀ _ hs0, sub_sub_cancel, mul_div_assoc',
      div_mul_cancel₀ _ hne, hroot]

/-- A corrected block has the gradient of the robust one. -/
theorem tMulVec_correctJacobian (hrows : jacobian.rows = residual.size)
    (hslope : 0 < (loss.evaluate residual.normSq).slope) :
    ((new loss residual.normSq).correctJacobian residual jacobian).tMulVec
        ((new loss residual.normSq).correctResidual residual) =
      (jacobian.tMulVec residual).scale (loss.evaluate residual.normSq).slope := by
  have hbalanced := new_balanced residual.normSq_nonneg hslope
  generalize new loss residual.normSq = c at hbalanced ⊢
  obtain ⟨hr, hc⟩ : (c.correctJacobian residual jacobian).HasShape _ _ := hasShape_correctJacobian
  refine Vec.ext_get (by simp [hc]) fun j hj => ?_
  rw [Mat.size_tMulVec] at hj
  have hj' : j < jacobian.cols := hc ▸ hj
  have hsum : (jacobian.tMulVec residual).get j =
      ∑ i ∈ range jacobian.rows, jacobian.get i j * residual.get i := Mat.get_tMulVec hj'
  have hsq : residual.normSq = ∑ i ∈ range jacobian.rows, residual.get i * residual.get i :=
    hrows ▸ residual.normSq_eq_sum
  rw [Mat.get_tMulVec hj, hr, Vec.get_scale, ← hbalanced]
  calc ∑ i ∈ range jacobian.rows,
        (c.correctJacobian residual jacobian).get i j * (c.correctResidual residual).get i
      = ∑ i ∈ range jacobian.rows, (c.rootSlope * c.residualScale) *
          (jacobian.get i j * residual.get i -
            (jacobian.tMulVec residual).get j * c.rankOne * (residual.get i * residual.get i)) := by
        refine Finset.sum_congr rfl fun i hi => ?_
        rw [get_correctJacobian (Finset.mem_range.mp hi) hj', correctResidual, Vec.get_scale]
        ring
    _ = (jacobian.tMulVec residual).get j *
          (c.rootSlope * c.residualScale * (1 - c.rankOne * residual.normSq)) := by
        rw [← Finset.mul_sum, Finset.sum_sub_distrib, ← Finset.mul_sum, ← hsum, ← hsq]
        ring

/-! ## Corrections that only rescale -/

/-- Where a loss does not curve upwards, there is nothing to correct but the
scale. -/
theorem new_of_curvature_nonpos (h : (loss.evaluate s).curvature ≤ 0) :
    new loss s = ⟨√(loss.evaluate s).slope, √(loss.evaluate s).slope, 0⟩ := by
  have hflat : (s == 0 || decide ((loss.evaluate s).curvature ≤ 0)) = true := by
    rw [decide_eq_true h, Bool.or_true]
  unfold new
  dsimp only
  simp only [real_le, real_zero]
  rw [if_pos hflat]
  rfl

theorem rescales_of_curvature_nonpos (h : (loss.evaluate s).curvature ≤ 0) (residual : Vec ℝ)
    (jacobian : Mat ℝ) :
    (new loss s).correctResidual residual = residual.scale √(loss.evaluate s).slope ∧
      (new loss s).correctJacobian? residual jacobian =
        .ok (jacobian.scale √(loss.evaluate s).slope) := by
  rw [new_of_curvature_nonpos h]
  have hzero : ((0 : ℝ) == 0) = true := (real_beq 0 0).mpr rfl
  refine ⟨rfl, ?_⟩
  rw [correctJacobian?, correctJacobian]
  simp only [real_zero, hzero, Bool.true_or, if_true]

end Corrector

namespace ResidualEvaluation

variable {loss : Option (Loss ℝ)} {residuals : Vec ℝ} {jacobians : List (Mat ℝ)}

/-- A Jacobian as it leaves the correction stands for the same gradient, up to
the slope of the loss. -/
structure Corrects (loss : Option (Loss ℝ)) (residuals corrected : Vec ℝ)
    (jacobian jacobian' : Mat ℝ) : Prop where
  rows : jacobian'.rows = jacobian.rows
  cols : jacobian'.cols = jacobian.cols
  gradient : jacobian.rows = residuals.size → 0 < slopeOf loss residuals →
    jacobian'.tMulVec corrected = (jacobian.tMulVec residuals).scale (slopeOf loss residuals)

theorem corrected_spec (loss : Option (Loss ℝ)) (residuals : Vec ℝ) (jacobians : List (Mat ℝ)) :
    (corrected loss residuals jacobians).1.size = residuals.size ∧
      List.Forall₂ (Corrects loss residuals (corrected loss residuals jacobians).1) jacobians
        (corrected loss residuals jacobians).2 := by
  cases loss with
  | none =>
      refine ⟨rfl, List.forall₂_same.mpr fun j _ => ⟨rfl, rfl, fun _ _ => ?_⟩⟩
      refine Vec.ext_get (Vec.size_scale _ _).symm fun i _ => ?_
      rw [Vec.get_scale, slopeOf, mul_one]
      rfl
  | some loss =>
      refine ⟨Vec.size_scale _ _, ?_⟩
      rw [corrected, List.forall₂_map_right_iff, List.forall₂_same]
      intro j _
      obtain ⟨hr, hc⟩ := Corrector.hasShape_correctJacobian
      exact ⟨hr, hc, Corrector.tMulVec_correctJacobian⟩

end ResidualEvaluation

end LeastSquares
