import LeastSquares.Proofs.Manifold
import Mathlib.Analysis.Calculus.FDeriv.Mul
import Mathlib.Analysis.RCLike.Lemmas
import Mathlib.Analysis.SpecialFunctions.Trigonometric.Bounds
import Mathlib.Analysis.SpecialFunctions.Trigonometric.Sinc
import Mathlib.LinearAlgebra.Matrix.ToLin
import Mathlib.Topology.Algebra.Module.FiniteDimension

/-!
# Steps and derivatives on quaternions

A step turns a quaternion in the plane of the quaternion itself and the image of the
step under the Jacobian. The columns of the Jacobian are as long as the quaternion,
and they are orthogonal to each other and to it. So the step goes along a circle
around the origin, and for a small step the Jacobian is the derivative. The
quaternion need not have unit length for this.

## Main definitions

* `Manifold.moved` — the point reached, as a function of the step.

## Main results

* `Manifold.toFun_quaternionPlus` — a step in terms of the Jacobian.
* `hasFDerivAt_turn` — the derivative of a turn.
* `Manifold.quaternion_turns` — steps and derivatives on quaternions.
-/

namespace LeastSquares

open Matrix

/-! ## Vectors of functions -/

namespace Vec

/-- The vector with the given entries. -/
noncomputable def ofFun {n : Nat} (d : Fin n → ℝ) : Vec ℝ :=
  ofFn n fun i => if h : i < n then d ⟨i, h⟩ else 0

@[simp] theorem size_ofFun {n : Nat} (d : Fin n → ℝ) : (ofFun d).size = n := size_ofFn _ _

@[simp] theorem toFun_ofFun {n : Nat} (d : Fin n → ℝ) : (ofFun d).toFun n = d := by
  funext i
  rw [toFun_apply, ofFun, get_ofFn_of_lt _ i.isLt, dif_pos i.isLt]

end Vec

namespace Manifold

/-- The entries of the point that a step leads to. -/
noncomputable def moved {k n : Nat} (m : Manifold ℝ) (x : Vec ℝ) (d : Fin k → ℝ) : Fin n → ℝ :=
  match m.plus x (.ofFun d) with
  | .ok y => y.toFun n
  | .error _ => 0

variable {x delta : Vec ℝ}

/-! ## The Jacobian -/

theorem toMatrix_quaternionJacobian (x : Vec ℝ) : (quaternionJacobian x).toMatrix 4 3 =
    !![-x.get 1, -x.get 2, -x.get 3;
       x.get 0, x.get 3, -x.get 2;
       -x.get 3, x.get 0, x.get 1;
       x.get 2, -x.get 1, x.get 0] := by
  ext i j
  rw [Mat.toMatrix_apply, quaternionJacobian, Mat.get_ofFn _ i.isLt j.isLt]
  fin_cases i <;> fin_cases j <;> rfl

theorem toFun_quaternion (x : Vec ℝ) : x.toFun 4 = ![x.get 0, x.get 1, x.get 2, x.get 3] := by
  funext i
  fin_cases i <;> rfl

theorem toFun_rotation (delta : Vec ℝ) :
    delta.toFun 3 = ![delta.get 0, delta.get 1, delta.get 2] := by
  funext i
  fin_cases i <;> rfl

/-- The columns are as long as the quaternion, and orthogonal to each other. -/
theorem transpose_mul_quaternionJacobian (x : Vec ℝ) :
    ((quaternionJacobian x).toMatrix 4 3)ᵀ * (quaternionJacobian x).toMatrix 4 3 =
      quaternionSq x • (1 : Matrix (Fin 3) (Fin 3) ℝ) := by
  rw [toMatrix_quaternionJacobian]
  ext i j
  fin_cases i <;> fin_cases j <;>
    simp [Matrix.mul_apply, Fin.sum_univ_succ, quaternionSq] <;> ring

/-- The columns are orthogonal to the quaternion. -/
theorem vecMul_quaternionJacobian (x : Vec ℝ) :
    x.toFun 4 ᵥ* (quaternionJacobian x).toMatrix 4 3 = 0 := by
  rw [toMatrix_quaternionJacobian, toFun_quaternion]
  ext j
  fin_cases j <;> simp [Matrix.vecMul, dotProduct, Fin.sum_univ_succ] <;> ring

/-! ## Steps -/

theorem rotationAngle_eq_norm (h : delta.size = 3) : rotationAngle delta = delta.norm := by
  rw [rotationAngle, Vec.norm, real_sqrt, real_sqrt, Vec.normSq, Vec.dot, h]
  simp only [Scalar.sumTo_succ, Scalar.sumTo_zero, real_add, real_mul, real_zero, zero_add]

/-- A step in terms of the Jacobian. -/
theorem toFun_quaternionPlus (x delta : Vec ℝ) : (quaternionPlus x delta).toFun 4 =
    Real.cos (rotationAngle delta) • x.toFun 4 +
      (Real.sin (rotationAngle delta) / rotationAngle delta) •
        ((quaternionJacobian x).toMatrix 4 3 *ᵥ delta.toFun 3) := by
  unfold quaternionPlus
  dsimp only
  generalize rotationAngle delta = t
  split
  · rename_i ht
    have ht : t = 0 := ((real_beq t _).mp ht).trans real_zero
    rw [ht, Real.cos_zero, Real.sin_zero, zero_div, one_smul, zero_smul, add_zero]
  · rw [toMatrix_quaternionJacobian, toFun_rotation, toFun_quaternion x]
    have hcos : Scalar.cos t = Real.cos t := rfl
    have hsin : Scalar.sin t = Real.sin t := rfl
    ext i
    fin_cases i <;> simp [quaternionMul, Vec.get_ofFn, hcos, hsin] <;> ring

end Manifold

/-! ## The derivative -/

section Derivative

open Asymptotics Topology

variable {E F : Type*} [NormedAddCommGroup E] [NormedSpace ℝ E] [NormedAddCommGroup F]
  [NormedSpace ℝ F] {angle : E → ℝ} {C : ℝ}

/-- The cosine of an angle that is at most proportional to the step is flat. -/
theorem hasFDerivAt_cos (hangle : ∀ d, |angle d| ≤ C * ‖d‖) :
    HasFDerivAt (fun d => Real.cos (angle d) - 1) (0 : E →L[ℝ] ℝ) 0 := by
  refine IsBigO.hasFDerivAt (n := 2) (.of_bound (C ^ 2) (.of_forall fun d => ?_)) one_lt_two
  have hle := Real.one_sub_sq_div_two_le_cos (x := angle d)
  have hsq : angle d ^ 2 ≤ C ^ 2 * ‖d‖ ^ 2 := by
    rw [← mul_pow, ← sq_abs]
    exact pow_le_pow_left₀ (abs_nonneg _) (hangle d) 2
  rw [sub_zero, norm_pow, norm_norm, Real.norm_eq_abs, abs_le]
  constructor
  · nlinarith [sq_nonneg (angle d)]
  · nlinarith [Real.cos_le_one (angle d), sq_nonneg (angle d)]

/-- A direction scaled by a factor that is one at the step zero. -/
theorem hasFDerivAt_sinc (L : E →L[ℝ] F) (hangle : ∀ d, |angle d| ≤ C * ‖d‖) :
    HasFDerivAt (fun d => (Real.sinc (angle d) - 1) • L d) (0 : E →L[ℝ] F) 0 := by
  have hzero : Filter.Tendsto angle (𝓝 0) (𝓝 0) := by
    have hbound : Filter.Tendsto (fun d : E => C * ‖d‖) (𝓝 0) (𝓝 0) := by
      have h := (tendsto_norm_zero (E := E)).const_mul C
      rwa [mul_zero] at h
    exact squeeze_zero_norm hangle hbound
  have hsinc : Filter.Tendsto (fun d => Real.sinc (angle d) - 1) (𝓝 0) (𝓝 0) := by
    have h := ((Real.continuous_sinc.tendsto 0).comp hzero).sub_const 1
    rwa [Real.sinc_zero, sub_self] at h
  rw [hasFDerivAt_iff_isLittleO_nhds_zero]
  have hsmall := ((isLittleO_one_iff ℝ).mpr hsinc).smul_isBigO (L.isBigO_id (𝓝 0))
  simpa using hsmall

/-- The derivative of a turn from a point into a direction that depends on the step. -/
theorem hasFDerivAt_turn (x : F) (L : E →L[ℝ] F) (hangle : ∀ d, |angle d| ≤ C * ‖d‖) :
    HasFDerivAt (fun d => Real.cos (angle d) • x + Real.sinc (angle d) • L d) L 0 := by
  have hcos := (hasFDerivAt_cos hangle).smul_const x
  have hsinc := hasFDerivAt_sinc L hangle
  have hsum := (L.hasFDerivAt (x := 0)).add ((hcos.add hsinc).add_const x)
  refine (hsum.congr_fderiv ?_).congr_of_eventuallyEq (.of_forall fun d => ?_)
  · rw [ContinuousLinearMap.zero_smulRight, add_zero, add_zero]
  · simp only [Pi.add_apply, sub_smul, one_smul]
    abel

end Derivative

/-! ## Quaternions -/

namespace Manifold

/-- The angle of a rotation is at most twice the largest entry of its vector. -/
theorem abs_rotationAngle_le (d : Fin 3 → ℝ) : |rotationAngle (.ofFun d)| ≤ 2 * ‖d‖ := by
  have hentry : ∀ i : Fin 3, (Vec.ofFun d).get i ^ 2 ≤ ‖d‖ ^ 2 := fun i => by
    have hget : (Vec.ofFun d).get i = d i := congrFun (Vec.toFun_ofFun d) i
    rw [hget, ← sq_abs]
    exact pow_le_pow_left₀ (abs_nonneg _) (norm_le_pi_norm d i) 2
  refine abs_le_of_sq_le_sq ?_ (by positivity)
  rw [sq_rotationAngle]
  have h0 : (Vec.ofFun d).get 0 ^ 2 ≤ ‖d‖ ^ 2 := hentry 0
  have h1 : (Vec.ofFun d).get 1 ^ 2 ≤ ‖d‖ ^ 2 := hentry 1
  have h2 : (Vec.ofFun d).get 2 ^ 2 ≤ ‖d‖ ^ 2 := hentry 2
  linarith [sq_nonneg ‖d‖]

/-- The point that a step leads to, by the turn that it is. -/
theorem moved_quaternion {x : Vec ℝ} (hx : x.size = 4) (d : Fin 3 → ℝ) :
    quaternion.moved x d = Real.cos (rotationAngle (.ofFun d)) • x.toFun 4 +
      Real.sinc (rotationAngle (.ofFun d)) • ((quaternionJacobian x).toMatrix 4 3 *ᵥ d) := by
  have hsize : (Vec.ofFun d).size = 3 := Vec.size_ofFun d
  rw [moved, plus_quaternion hx hsize]
  dsimp only
  rw [toFun_quaternionPlus, Vec.toFun_ofFun]
  by_cases hzero : rotationAngle (.ofFun d) = 0
  · have hd : d = 0 := by
      rw [← Vec.toFun_ofFun d]
      exact (Vec.norm_eq_zero_iff hsize).mp ((rotationAngle_eq_norm hsize).symm.trans hzero)
    rw [hd, mulVec_zero, smul_zero, smul_zero]
  · rw [Real.sinc_of_ne_zero hzero]

/-- What steps on quaternions do. The columns of the Jacobian are as long as the
quaternion, and orthogonal to each other and to it. A step turns the quaternion by
its length towards its image under the Jacobian, which keeps the length of the
quaternion, and the Jacobian is the derivative at the step zero. -/
theorem quaternion_turns {x : Vec ℝ} (hx : x.size = 4) :
    ∃ J, quaternion.plusJacobian x = .ok J ∧ J.HasShape 4 3 ∧
      (J.toMatrix 4 3)ᵀ * J.toMatrix 4 3 = x.norm ^ 2 • (1 : Matrix (Fin 3) (Fin 3) ℝ) ∧
      x.toFun 4 ᵥ* J.toMatrix 4 3 = 0 ∧
      (∀ delta : Vec ℝ, delta.size = 3 → ∃ y, quaternion.plus x delta = .ok y ∧ y.size = 4 ∧
        (delta.norm = 0 → y = x) ∧
        y.toFun 4 = Real.cos delta.norm • x.toFun 4 +
          (Real.sin delta.norm / delta.norm) • (J.toMatrix 4 3 *ᵥ delta.toFun 3) ∧
        y.norm = x.norm) ∧
      HasFDerivAt (quaternion.moved x) (J.toMatrix 4 3).mulVecLin.toContinuousLinearMap 0 := by
  refine ⟨quaternionJacobian x, ?_, ⟨rfl, rfl⟩, ?_, vecMul_quaternionJacobian x,
    fun delta hdelta => ⟨_, plus_quaternion hx hdelta, size_quaternionPlus hx hdelta, ?_, ?_,
      norm_quaternionPlus hx hdelta⟩, ?_⟩
  · exact if_neg (by omega)
  · rw [norm_eq_of_size hx, Real.sq_sqrt, transpose_mul_quaternionJacobian]
    unfold quaternionSq
    positivity
  · intro hzero
    rw [← rotationAngle_eq_norm hdelta] at hzero
    exact if_pos ((real_beq (rotationAngle delta) _).mpr (hzero.trans real_zero.symm))
  · rw [toFun_quaternionPlus, rotationAngle_eq_norm hdelta]
  · have hderiv := hasFDerivAt_turn (x.toFun 4)
      ((quaternionJacobian x).toMatrix 4 3).mulVecLin.toContinuousLinearMap abs_rotationAngle_le
    exact hderiv.congr_of_eventuallyEq (.of_forall fun d => moved_quaternion hx d)

/-- A quaternion of length five. -/
theorem quaternion_turns_long : let x : Vec ℝ := .ofList [3, 0, 4, 0]
    ∃ J, quaternion.plusJacobian x = .ok J ∧
      (J.toMatrix 4 3)ᵀ * J.toMatrix 4 3 = (25 : ℝ) • (1 : Matrix (Fin 3) (Fin 3) ℝ) ∧
      (∀ delta : Vec ℝ, delta.size = 3 →
        ∃ y, quaternion.plus x delta = .ok y ∧ y.norm = 5) ∧
      HasFDerivAt (quaternion.moved x) (J.toMatrix 4 3).mulVecLin.toContinuousLinearMap 0 := by
  intro x
  have hnorm : x.norm = 5 := by
    have hsq : quaternionSq x = 5 ^ 2 := by
      show (3 : ℝ) ^ 2 + 0 ^ 2 + 4 ^ 2 + 0 ^ 2 = 5 ^ 2
      norm_num
    rw [norm_eq_of_size rfl, hsq]
    exact Real.sqrt_sq (by norm_num)
  obtain ⟨J, hJ, -, hgram, -, hsteps, hderiv⟩ := quaternion_turns (x := x) rfl
  have hlong : (5 : ℝ) ^ 2 = 25 := by norm_num
  rw [hnorm, hlong] at hgram
  refine ⟨J, hJ, hgram, fun delta hdelta => ?_, hderiv⟩
  obtain ⟨y, hy, -, -, -, hlength⟩ := hsteps delta hdelta
  exact ⟨y, hy, hlength.trans hnorm⟩

end Manifold

end LeastSquares
