import LeastSquares.Proofs.Corrector
import Mathlib.Analysis.SpecialFunctions.Log.Deriv
import Mathlib.Analysis.SpecialFunctions.Sqrt
import Mathlib.Analysis.SpecialFunctions.Trigonometric.ArctanDeriv
import Mathlib.Analysis.SpecialFunctions.Trigonometric.Bounds
import Mathlib.Topology.Algebra.Module.ModuleTopology

/-!
# Losses and their derivatives

The losses that have a scale are given by three formulas each, and a minimizer
relies on the second and the third being the derivatives of the first and the
second. They are, at every scale, with two exceptions. A slope that would fall
below the least positive number is kept there and is no derivative any more, and
the slope of the Huber loss has a kink at the threshold.

All of these losses lie between zero and the squared length of the residual.
They rise, no faster than the squared length, and nowhere curve upwards. So
correcting a residual block for one of them multiplies residual and Jacobian by
one and the same factor, which is at most one.

## Main definitions

* `LossFamily.build?` — the loss of a family with a given scale.
* `Loss.HasDerivativesAt` — slope and curvature are derivatives at a point.
* `LossValue.Damps` — between zero and the squared length, rising, not curving
  upwards.

## Main results

* `Loss.HasDerivativesAt.of_formulas` — slopes that are kept positive.
* `LossFamily.derivatives_and_damping` — what all families have in common.
-/

namespace LeastSquares

open Topology

/-! ## Scales -/

section Scales

variable {α : Type} [Scalar α]

/-- The loss of a family with a given scale. -/
def LossFamily.loss : LossFamily → α → Loss α
  | .huber => .huber
  | .softL1 => .softL1
  | .cauchy => .cauchy
  | .arctan => .arctan

/-- The loss of a family, for a usable scale. -/
def LossFamily.build? : LossFamily → α → Except (ScaleError α) (Loss α)
  | .huber => Loss.huber?
  | .softL1 => Loss.softL1?
  | .cauchy => Loss.cauchy?
  | .arctan => Loss.arctan?

theorem LossFamily.build?_eq_map (family : LossFamily) (δ : α) :
    family.build? δ = (Loss.checkScale family δ).map family.loss := by
  cases family <;> rfl

end Scales

/-- A scale is accepted if it is positive, and the loss has this scale. -/
theorem LossFamily.build?_eq_ok_iff {family : LossFamily} {δ : ℝ} {loss : Loss ℝ} :
    family.build? δ = .ok loss ↔ 0 < δ ∧ loss = family.loss δ := by
  have hcheck : Loss.checkScale family δ = if δ ≤ 0 then .error ⟨family, δ⟩ else .ok δ := by
    simp only [Loss.checkScale, real_le, real_zero, real_isFinite, Bool.not_true, Bool.or_false,
      decide_eq_true_eq]
  rw [LossFamily.build?_eq_map, hcheck]
  split
  · rename_i hδ
    refine ⟨fun h => ?_, fun h => absurd h.1 (not_lt.mpr hδ)⟩
    cases h
  · rename_i hδ
    rw [Except.map, Except.ok.injEq]
    exact ⟨fun h => ⟨not_le.mp hδ, h.symm⟩, fun h => h.2.symm⟩

/-! ## Slopes that are kept positive -/

section Kept

variable {a : ℝ}

theorem Loss.keepPositive_eq_max (a : ℝ) : Loss.keepPositive a = max a Scalar.minPositive :=
  real_max a _

theorem Loss.keepPositive_pos (a : ℝ) : 0 < Loss.keepPositive a := by
  rw [keepPositive_eq_max]
  exact lt_max_of_lt_right real_minPositive_pos

theorem Loss.keepPositive_le_one (h : a ≤ 1) : Loss.keepPositive a ≤ 1 := by
  rw [keepPositive_eq_max]
  exact max_le h real_minPositive_le_one

theorem Loss.keepPositive_one : Loss.keepPositive (1 : ℝ) = 1 := by
  rw [keepPositive_eq_max]
  exact max_eq_left real_minPositive_le_one

/-- A slope above the bound is what it was before it was kept there. -/
theorem Loss.lt_of_lt_keepPositive (h : Scalar.minPositive < Loss.keepPositive a) :
    Scalar.minPositive < a := by
  rw [keepPositive_eq_max] at h
  exact (lt_max_iff.mp h).resolve_right (lt_irrefl _)

theorem Loss.keepPositive_of_lt (h : Scalar.minPositive < a) : Loss.keepPositive a = a := by
  rw [keepPositive_eq_max]
  exact max_eq_left h.le

end Kept

/-! ## Derivatives -/

namespace Loss

variable {loss : Loss ℝ} {s δ : ℝ}

/-- Slope and curvature of a loss are derivatives at a point. -/
structure HasDerivativesAt (loss : Loss ℝ) (s : ℝ) : Prop where
  value : HasDerivAt (fun t => (loss.evaluate t).value) (loss.evaluate s).slope s
  slope : HasDerivAt (fun t => (loss.evaluate t).slope) (loss.evaluate s).curvature s

/-- Where the bound for slopes is not reached, it is enough to know the
derivatives of the formulas without it. -/
theorem HasDerivativesAt.of_formulas {value slope : ℝ → ℝ} {curvature : ℝ}
    (hslope : HasDerivAt slope curvature s) (hvalue : HasDerivAt value (slope s) s)
    (hformulas : ∀ᶠ t in 𝓝 s, (loss.evaluate t).value = value t ∧
      (loss.evaluate t).slope = keepPositive (slope t))
    (hcurvature : (loss.evaluate s).curvature = curvature)
    (hfree : Scalar.minPositive < (loss.evaluate s).slope) : loss.HasDerivativesAt s := by
  rw [hformulas.self_of_nhds.2] at hfree
  have habove : Scalar.minPositive < slope s := lt_of_lt_keepPositive hfree
  -- the formula stays above the bound nearby
  have hnear : ∀ᶠ t in 𝓝 s, Scalar.minPositive < slope t :=
    hslope.continuousAt.eventually (lt_mem_nhds habove)
  have hslopes : ∀ᶠ t in 𝓝 s, (loss.evaluate t).slope = slope t := by
    filter_upwards [hformulas, hnear] with t ht hlt
    rw [ht.2, keepPositive_of_lt hlt]
  constructor
  · rw [hslopes.self_of_nhds]
    exact hvalue.congr_of_eventuallyEq (hformulas.mono fun t ht => ht.1)
  · rw [hcurvature]
    exact hslope.congr_of_eventuallyEq hslopes

/-! ## The formulas -/

section Formulas

variable (δ s : ℝ)

theorem evaluate_huber_of_lt (h : δ ^ 2 < s) : (huber δ).evaluate s =
    ⟨2 * δ * √s - δ ^ 2, keepPositive (δ / √s), -keepPositive (δ / √s) / (2 * s)⟩ := by
  rw [sq] at h ⊢
  simp only [huber, real_lt, real_mul, real_sub, real_div, real_neg, real_ofScientific, real_sqrt,
    real_two, if_pos h]

theorem evaluate_huber_of_le (h : s ≤ δ ^ 2) : (huber δ).evaluate s = ⟨s, 1, 0⟩ := by
  rw [sq] at h
  simp only [huber, real_lt, real_mul, real_one, real_zero, if_neg (not_lt.mpr h)]

theorem evaluate_softL1 : (softL1 δ).evaluate s =
    ⟨2 * δ ^ 2 * (√(1 + s / δ ^ 2) - 1), keepPositive (1 / √(1 + s / δ ^ 2)),
      -(1 / √(1 + s / δ ^ 2)) / (1 + s / δ ^ 2) / (2 * δ ^ 2)⟩ := by
  simp only [softL1, real_add, real_mul, real_sub, real_div, real_neg, real_ofScientific,
    real_sqrt, real_two, real_one, mul_one_div, ← sq]
  congr 1
  rw [div_mul_eq_div_div]
  ring

theorem evaluate_cauchy : (cauchy δ).evaluate s =
    ⟨δ ^ 2 * Real.log (1 + s / δ ^ 2), keepPositive (1 / (1 + s / δ ^ 2)),
      -(1 / (1 + s / δ ^ 2)) ^ 2 / δ ^ 2⟩ := by
  have hlog : ∀ a : ℝ, Scalar.log a = Real.log a := fun _ => rfl
  simp only [cauchy, real_add, real_mul, real_div, real_neg, real_one, mul_one_div, ← sq, hlog]
  congr 1
  ring

theorem evaluate_arctan : (arctan δ).evaluate s =
    ⟨δ * Real.arctan (s / δ), keepPositive (1 / (1 + (s / δ) ^ 2)),
      -2 * s * (1 / (1 + (s / δ) ^ 2)) ^ 2 / δ ^ 2⟩ := by
  have hatan : ∀ a : ℝ, Scalar.atan a = Real.arctan a := fun _ => rfl
  simp only [arctan, real_add, real_mul, real_div, real_neg, real_one, real_ofScientific, real_two,
    mul_one_div, ← sq, hatan, div_pow]
  congr 1
  ring

end Formulas

/-! ## Derivatives of the formulas -/

section Derivatives

variable {δ s : ℝ}

theorem hasDerivAt_huber_value (δ : ℝ) (h : 0 < s) :
    HasDerivAt (fun t => 2 * δ * √t - δ ^ 2) (δ / √s) s := by
  have hroot := ((hasDerivAt_id' s).sqrt h.ne').const_mul (2 * δ)
  refine (hroot.sub_const (δ ^ 2)).congr_deriv ?_
  field_simp

theorem hasDerivAt_huber_slope (δ : ℝ) (h : 0 < s) :
    HasDerivAt (fun t => δ / √t) (-(δ / √s) / (2 * s)) s := by
  have hinv := ((hasDerivAt_id' s).sqrt h.ne').fun_inv (Real.sqrt_pos.mpr h).ne'
  refine (hinv.const_mul δ).congr_deriv ?_
  rw [Real.sq_sqrt h.le]
  field_simp

/-- What is added to one grows with the reciprocal of the square of the scale. -/
theorem hasDerivAt_one_add_div (δ s : ℝ) : HasDerivAt (fun t => 1 + t / δ ^ 2) (1 / δ ^ 2) s :=
  ((hasDerivAt_id' s).div_const (δ ^ 2)).const_add 1

theorem hasDerivAt_softL1_value (hδ : δ ≠ 0) (h : 0 < 1 + s / δ ^ 2) :
    HasDerivAt (fun t => 2 * δ ^ 2 * (√(1 + t / δ ^ 2) - 1)) (1 / √(1 + s / δ ^ 2)) s := by
  have hroot := ((hasDerivAt_one_add_div δ s).sqrt h.ne').sub_const 1
  refine (hroot.const_mul (2 * δ ^ 2)).congr_deriv ?_
  field_simp

theorem hasDerivAt_softL1_slope (h : 0 < 1 + s / δ ^ 2) :
    HasDerivAt (fun t => 1 / √(1 + t / δ ^ 2))
      (-(1 / √(1 + s / δ ^ 2)) / (1 + s / δ ^ 2) / (2 * δ ^ 2)) s := by
  simp only [one_div]
  have hinv := ((hasDerivAt_one_add_div δ s).sqrt h.ne').fun_inv (Real.sqrt_pos.mpr h).ne'
  refine hinv.congr_deriv ?_
  rw [Real.sq_sqrt h.le]
  ring

theorem hasDerivAt_cauchy_value (hδ : δ ≠ 0) (h : 0 < 1 + s / δ ^ 2) :
    HasDerivAt (fun t => δ ^ 2 * Real.log (1 + t / δ ^ 2)) (1 / (1 + s / δ ^ 2)) s := by
  refine (((hasDerivAt_one_add_div δ s).log h.ne').const_mul (δ ^ 2)).congr_deriv ?_
  field_simp

theorem hasDerivAt_cauchy_slope (h : 0 < 1 + s / δ ^ 2) :
    HasDerivAt (fun t => 1 / (1 + t / δ ^ 2)) (-(1 / (1 + s / δ ^ 2)) ^ 2 / δ ^ 2) s := by
  simp only [one_div]
  refine ((hasDerivAt_one_add_div δ s).fun_inv h.ne').congr_deriv ?_
  rw [div_eq_mul_inv, ← inv_pow]
  ring

theorem hasDerivAt_arctan_value (hδ : δ ≠ 0) (s : ℝ) :
    HasDerivAt (fun t => δ * Real.arctan (t / δ)) (1 / (1 + (s / δ) ^ 2)) s := by
  have hangle := ((hasDerivAt_id' s).div_const δ).arctan.const_mul δ
  refine hangle.congr_deriv ?_
  field_simp

theorem hasDerivAt_arctan_slope (δ s : ℝ) :
    HasDerivAt (fun t => 1 / (1 + (t / δ) ^ 2))
      (-2 * s * (1 / (1 + (s / δ) ^ 2)) ^ 2 / δ ^ 2) s := by
  have hpos : 0 < 1 + (s / δ) ^ 2 := by positivity
  simp only [one_div]
  have hinv := ((((hasDerivAt_id' s).div_const δ).fun_pow 2).const_add 1).fun_inv hpos.ne'
  refine hinv.congr_deriv ?_
  rw [div_eq_mul_inv, ← inv_pow]
  ring

end Derivatives

/-! ## Slopes and curvatures as derivatives -/

section Families

variable {δ s : ℝ}

/-- Within the threshold the Huber loss is the squared length, and beyond it grows
with the length. -/
theorem hasDerivativesAt_huber (hne : s ≠ δ ^ 2)
    (hfree : Scalar.minPositive < ((huber δ).evaluate s).slope) :
    (huber δ).HasDerivativesAt s := by
  rcases hne.lt_or_gt with hin | hout
  · refine .of_formulas (hasDerivAt_const s 1) (hasDerivAt_id' s)
      ((gt_mem_nhds hin).mono fun t ht => ?_) ?_ hfree
    · rw [evaluate_huber_of_le δ t ht.le]
      exact ⟨rfl, keepPositive_one.symm⟩
    · rw [evaluate_huber_of_le δ s hin.le]
  · have hs : 0 < s := (sq_nonneg δ).trans_lt hout
    refine .of_formulas (hasDerivAt_huber_slope δ hs) (hasDerivAt_huber_value δ hs)
      ((lt_mem_nhds hout).mono fun t ht => ?_) ?_ hfree
    · rw [evaluate_huber_of_lt δ t ht]
      exact ⟨rfl, rfl⟩
    · rw [evaluate_huber_of_lt δ s hout] at hfree ⊢
      rw [keepPositive_of_lt (lt_of_lt_keepPositive hfree)]

theorem hasDerivativesAt_softL1 (hδ : 0 < δ) (hs : 0 ≤ s)
    (hfree : Scalar.minPositive < ((softL1 δ).evaluate s).slope) :
    (softL1 δ).HasDerivativesAt s := by
  have hsum : 0 < 1 + s / δ ^ 2 := by positivity
  refine .of_formulas (hasDerivAt_softL1_slope hsum) (hasDerivAt_softL1_value hδ.ne' hsum)
    (.of_forall fun t => ?_) ?_ hfree
  · rw [evaluate_softL1]
    exact ⟨rfl, rfl⟩
  · rw [evaluate_softL1]

theorem hasDerivativesAt_cauchy (hδ : 0 < δ) (hs : 0 ≤ s)
    (hfree : Scalar.minPositive < ((cauchy δ).evaluate s).slope) :
    (cauchy δ).HasDerivativesAt s := by
  have hsum : 0 < 1 + s / δ ^ 2 := by positivity
  refine .of_formulas (hasDerivAt_cauchy_slope hsum) (hasDerivAt_cauchy_value hδ.ne' hsum)
    (.of_forall fun t => ?_) ?_ hfree
  · rw [evaluate_cauchy]
    exact ⟨rfl, rfl⟩
  · rw [evaluate_cauchy]

theorem hasDerivativesAt_arctan (hδ : 0 < δ)
    (hfree : Scalar.minPositive < ((arctan δ).evaluate s).slope) :
    (arctan δ).HasDerivativesAt s := by
  refine .of_formulas (hasDerivAt_arctan_slope δ s) (hasDerivAt_arctan_value hδ.ne' s)
    (.of_forall fun t => ?_) ?_ hfree
  · rw [evaluate_arctan]
    exact ⟨rfl, rfl⟩
  · rw [evaluate_arctan]

end Families

end Loss

/-! ## Bounds -/

/-- What a loss gives at a squared length lies between zero and it, rises no faster
than it, and does not curve upwards. -/
structure LossValue.Damps (v : LossValue ℝ) (s : ℝ) : Prop where
  value_nonneg : 0 ≤ v.value
  value_le : v.value ≤ s
  slope_pos : 0 < v.slope
  slope_le_one : v.slope ≤ 1
  curvature_nonpos : v.curvature ≤ 0

namespace Loss

section Bounds

variable {δ s : ℝ}

theorem damps_huber (hδ : 0 < δ) (hs : 0 ≤ s) : ((huber δ).evaluate s).Damps s := by
  rcases le_or_gt s (δ ^ 2) with hin | hout
  · rw [evaluate_huber_of_le δ s hin]
    exact ⟨hs, le_refl s, one_pos, le_refl 1, le_refl 0⟩
  · have hroot : δ < √s := Real.lt_sqrt_of_sq_lt hout
    have hsq : √s ^ 2 = s := Real.sq_sqrt hs
    have hle : δ / √s ≤ 1 := (div_le_one (hδ.trans hroot)).mpr hroot.le
    rw [evaluate_huber_of_lt δ s hout]
    refine ⟨?_, ?_, keepPositive_pos _, keepPositive_le_one hle, ?_⟩
    · nlinarith only [hδ, hroot]
    · -- the difference is the square of how far the length is beyond the scale
      linarith only [sq_nonneg (√s - δ), sub_sq (√s) δ, hsq]
    · rw [neg_div]
      exact neg_nonpos.mpr (div_nonneg (keepPositive_pos _).le (by linarith))

theorem damps_softL1 (hδ : 0 < δ) (hs : 0 ≤ s) : ((softL1 δ).evaluate s).Damps s := by
  have hratio : 0 ≤ s / δ ^ 2 := by positivity
  have hone : 1 ≤ √(1 + s / δ ^ 2) := Real.one_le_sqrt.mpr (by linarith)
  have hroot : √(1 + s / δ ^ 2) ≤ 1 + s / δ ^ 2 / 2 := Real.sqrt_one_add_le (by linarith)
  rw [evaluate_softL1]
  refine ⟨mul_nonneg (by positivity) (by linarith), ?_, keepPositive_pos _,
    keepPositive_le_one ?_, ?_⟩
  · calc 2 * δ ^ 2 * (√(1 + s / δ ^ 2) - 1) ≤ 2 * δ ^ 2 * (s / δ ^ 2 / 2) := by gcongr; linarith
      _ = s := by field_simp
  · exact (div_le_one (by linarith)).mpr hone
  · rw [neg_div, neg_div, neg_nonpos]
    positivity

theorem damps_cauchy (hδ : 0 < δ) (hs : 0 ≤ s) : ((cauchy δ).evaluate s).Damps s := by
  have hratio : 0 ≤ s / δ ^ 2 := by positivity
  have hlog : Real.log (1 + s / δ ^ 2) ≤ s / δ ^ 2 := by
    linarith [Real.log_le_sub_one_of_pos (show 0 < 1 + s / δ ^ 2 by linarith)]
  rw [evaluate_cauchy]
  refine ⟨mul_nonneg (by positivity) (Real.log_nonneg (by linarith)), ?_, keepPositive_pos _,
    keepPositive_le_one ?_, ?_⟩
  · calc δ ^ 2 * Real.log (1 + s / δ ^ 2) ≤ δ ^ 2 * (s / δ ^ 2) := by gcongr
      _ = s := by field_simp
  · exact (div_le_one (by linarith)).mpr (by linarith)
  · rw [neg_div, neg_nonpos]
    positivity

theorem damps_arctan (hδ : 0 < δ) (hs : 0 ≤ s) : ((arctan δ).evaluate s).Damps s := by
  have hratio : 0 ≤ s / δ := by positivity
  have hnonneg : 0 ≤ Real.arctan (s / δ) := Real.arctan_nonneg.mpr hratio
  have htan : Real.arctan (s / δ) ≤ s / δ := by
    have hle := Real.le_tan hnonneg (Real.arctan_lt_pi_div_two _)
    rwa [Real.tan_arctan] at hle
  rw [evaluate_arctan]
  refine ⟨mul_nonneg hδ.le hnonneg, ?_, keepPositive_pos _, keepPositive_le_one ?_, ?_⟩
  · calc δ * Real.arctan (s / δ) ≤ δ * (s / δ) := by gcongr
      _ = s := by field_simp
  · exact (div_le_one (by positivity)).mpr (by linarith [sq_nonneg (s / δ)])
  · rw [neg_mul, neg_mul, neg_div, neg_nonpos]
    positivity

end Bounds

end Loss

namespace LossFamily

variable {δ s : ℝ}

theorem hasDerivativesAt (family : LossFamily) (hδ : 0 < δ) (hs : 0 ≤ s)
    (hfree : Scalar.minPositive < ((family.loss δ).evaluate s).slope)
    (hne : family = .huber → s ≠ δ ^ 2) : (family.loss δ).HasDerivativesAt s := by
  cases family with
  | huber => exact Loss.hasDerivativesAt_huber (hne rfl) hfree
  | softL1 => exact Loss.hasDerivativesAt_softL1 hδ hs hfree
  | cauchy => exact Loss.hasDerivativesAt_cauchy hδ hs hfree
  | arctan => exact Loss.hasDerivativesAt_arctan hδ hfree

theorem damps (family : LossFamily) (hδ : 0 < δ) (hs : 0 ≤ s) :
    ((family.loss δ).evaluate s).Damps s := by
  cases family with
  | huber => exact Loss.damps_huber hδ hs
  | softL1 => exact Loss.damps_softL1 hδ hs
  | cauchy => exact Loss.damps_cauchy hδ hs
  | arctan => exact Loss.damps_arctan hδ hs

/-- Near zero every loss is the squared length. -/
theorem slope_zero (family : LossFamily) (δ : ℝ) : ((family.loss δ).evaluate 0).slope = 1 := by
  cases family with
  | huber => rw [loss, Loss.evaluate_huber_of_le δ 0 (sq_nonneg δ)]
  | softL1 => simp [loss, Loss.evaluate_softL1, Loss.keepPositive_one]
  | cauchy => simp [loss, Loss.evaluate_cauchy, Loss.keepPositive_one]
  | arctan => simp [loss, Loss.evaluate_arctan, Loss.keepPositive_one]

end LossFamily

/-! ## What all families have in common -/

/-- The losses of a family at a scale that is accepted. Wherever the bound for
slopes is not reached, slope and curvature are the derivatives of value and slope,
but for the threshold of the Huber loss. Everywhere the loss lies between zero and
the squared length, rises no faster than it, and does not curve upwards, and at
zero it rises just as fast. So a correction multiplies residual and Jacobian by one
factor, which is at most one. -/
theorem LossFamily.derivatives_and_damping {family : LossFamily} {δ : ℝ} {loss : Loss ℝ}
    (h : family.build? δ = .ok loss) :
    (∀ s, 0 ≤ s → Scalar.minPositive < (loss.evaluate s).slope →
      (family = .huber → s ≠ δ ^ 2) → loss.HasDerivativesAt s) ∧
    (∀ s, 0 ≤ s → (loss.evaluate s).Damps s) ∧
    (loss.evaluate 0).value = 0 ∧ (loss.evaluate 0).slope = 1 ∧
    ∀ s, 0 ≤ s → ∃ w, w = √(loss.evaluate s).slope ∧ 0 < w ∧ w ≤ 1 ∧
      ∀ (residual : Vec ℝ) (jacobian : Mat ℝ),
        (Corrector.new loss s).correctResidual residual = residual.scale w ∧
        (Corrector.new loss s).correctJacobian? residual jacobian = .ok (jacobian.scale w) := by
  obtain ⟨hδ, rfl⟩ := LossFamily.build?_eq_ok_iff.mp h
  have hdamps : ∀ s, 0 ≤ s → ((family.loss δ).evaluate s).Damps s := fun s hs => family.damps hδ hs
  have hzero := hdamps 0 (le_refl 0)
  refine ⟨fun s hs hfree hne => family.hasDerivativesAt hδ hs hfree hne, hdamps,
    le_antisymm hzero.value_le hzero.value_nonneg, family.slope_zero δ, fun s hs => ?_⟩
  have hs := hdamps s hs
  exact ⟨_, rfl, Real.sqrt_pos.mpr hs.slope_pos, Real.sqrt_le_one.mpr hs.slope_le_one,
    Corrector.rescales_of_curvature_nonpos hs.curvature_nonpos⟩

/-- The Huber loss of scale two, at a residual of length four. -/
theorem LossFamily.derivatives_and_damping_outlier :
    ∃ loss : Loss ℝ, LossFamily.huber.build? 2 = .ok loss ∧
      HasDerivAt (fun t => (loss.evaluate t).value) (1 / 2) 16 ∧
      HasDerivAt (fun t => (loss.evaluate t).slope) (-1 / 64) 16 ∧
      (loss.evaluate 16).value ≤ 16 ∧
      ∀ residual : Vec ℝ,
        (Corrector.new loss 16).correctResidual residual = residual.scale √(1 / 2) := by
  have hroot : √(16 : ℝ) = 4 := by
    rw [show (16 : ℝ) = 4 ^ 2 by norm_num]
    exact Real.sqrt_sq (by norm_num)
  have hmin : (Scalar.minPositive : ℝ) < 1 / 2 := by
    rw [real_minPositive, div_lt_div_iff₀ (by positivity) two_pos]
    calc (22250738585072014 * 2 : ℝ) < 10 ^ 17 := by norm_num
      _ ≤ 1 * 10 ^ 324 := by rw [one_mul]; exact pow_le_pow_right₀ (by norm_num) (by norm_num)
  have heval : (Loss.huber (2 : ℝ)).evaluate 16 = ⟨12, 1 / 2, -1 / 64⟩ := by
    have hhalf : (2 : ℝ) / 4 = 1 / 2 := by norm_num
    rw [Loss.evaluate_huber_of_lt 2 16 (by norm_num), hroot, hhalf, Loss.keepPositive_of_lt hmin]
    congr 1 <;> norm_num
  have hbuild : LossFamily.huber.build? (2 : ℝ) = .ok (Loss.huber 2) :=
    LossFamily.build?_eq_ok_iff.mpr ⟨two_pos, rfl⟩
  obtain ⟨hderivatives, hdamps, -, -, hrescales⟩ := LossFamily.derivatives_and_damping hbuild
  have hat := hderivatives 16 (by norm_num) (by rw [heval]; exact hmin) fun _ => by norm_num
  have hvalue := hat.value
  have hslope := hat.slope
  obtain ⟨w, hw, -, -, hrescale⟩ := hrescales 16 (by norm_num)
  rw [heval] at hvalue hslope hw
  subst hw
  exact ⟨_, hbuild, hvalue, hslope, (hdamps 16 (by norm_num)).value_le,
    fun residual => (hrescale residual (Mat.zeros 0 0)).1⟩

end LeastSquares
