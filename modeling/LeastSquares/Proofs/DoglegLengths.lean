import LeastSquares.Proofs.ConjugateGradients
import LeastSquares.Proofs.LevenbergMarquardt
import LeastSquares.Proofs.OptionBounds
import LeastSquares.Proofs.Proposals
import LeastSquares.Proofs.SolutionSizes
import LeastSquares.Proofs.StepAcceptance

/-!
# Lengths of dogleg steps

In exact arithmetic and in scaled variables a dogleg step is either the
Gauss-Newton step, if that lies in the trust region, or it ends on the boundary.
There are four ways to the boundary: along the Gauss-Newton step, along the
gradient, on the segment between the minimizer along the gradient and the
Gauss-Newton point, and on the circle in the plane of the two. Each of them ends
there exactly, whatever the linear model is.

What this rests on does not depend on the radius, and it holds of everything a
strategy can have stored. So steps that are taken from what is stored after some
rejections have the same property for the radius that is left.

## Main definitions

* `Plane.Orthonormal` — two directions that measure lengths.
* `Dogleg.Sound` — what holds of everything that is stored.
* `Dogleg.Course` — a strategy in the course of a run, with the answers of any
  linear solver.

## Main results

* `Dogleg.Sound.norm_pathStep`, `Plane.Orthonormal.norm_toStep` — the boundary is
  met.
* `Dogleg.Sound.computeStep` — a step keeps what is stored sound.
* `Dogleg.length_computeStep` — the length of every step.
-/

namespace LeastSquares

open Matrix

/-! ## Lengths of vectors -/

namespace Vec

variable {u v : Vec ℝ}

theorem norm_nonneg (v : Vec ℝ) : 0 ≤ v.norm := Real.sqrt_nonneg _

theorem norm_sq (v : Vec ℝ) : v.norm ^ 2 = v.normSq := Real.sq_sqrt v.normSq_nonneg

/-- A vector whose square is that of a length has that length. -/
theorem norm_eq_of_normSq {r : ℝ} (hr : 0 ≤ r) (h : v.normSq = r ^ 2) : v.norm = r := by
  rw [norm, h, real_sqrt, Real.sqrt_sq hr]

theorem normSq_scale (v : Vec ℝ) (c : ℝ) : (v.scale c).normSq = c ^ 2 * v.normSq := by
  rw [normSq, normSq, dot_eq_dotProduct (size_scale v c), dot_eq_dotProduct rfl, toFun_scale,
    smul_dotProduct, dotProduct_smul, smul_smul, sq, smul_eq_mul]

theorem norm_scale (v : Vec ℝ) (c : ℝ) : (v.scale c).norm = |c| * v.norm := by
  refine norm_eq_of_normSq (mul_nonneg (abs_nonneg c) (norm_nonneg v)) ?_
  rw [normSq_scale, mul_pow, sq_abs, norm_sq]

theorem dot_comm (h : u.size = v.size) : u.dot v = v.dot u := by
  rw [dot_eq_dotProduct h, dot_eq_dotProduct rfl, dotProduct_comm]

theorem dot_scale (u v : Vec ℝ) (c : ℝ) : u.dot (v.scale c) = c * u.dot v := by
  rw [dot_eq_dotProduct rfl, dot_eq_dotProduct rfl, toFun_scale, dotProduct_smul, smul_eq_mul]

/-- The square of a point on a line. -/
theorem normSq_add_scale (h : u.size = v.size) (c : ℝ) :
    (u + v.scale c).normSq = u.normSq + 2 * c * u.dot v + c ^ 2 * v.normSq := by
  have hcomm : v.toFun v.size ⬝ᵥ u.toFun v.size = u.toFun v.size ⬝ᵥ v.toFun v.size :=
    dotProduct_comm _ _
  rw [normSq, normSq, normSq, dot_eq_dotProduct ((size_add _ _).trans h), dot_eq_dotProduct h,
    dot_eq_dotProduct h, dot_eq_dotProduct rfl, toFun_add h, toFun_scale, add_dotProduct,
    dotProduct_add, dotProduct_add, smul_dotProduct, smul_dotProduct, dotProduct_smul,
    dotProduct_smul, hcomm]
  simp only [smul_eq_mul]
  ring

theorem map_div_eq_scale (v : Vec ℝ) (c : ℝ) : v.map (· / c) = v.scale c⁻¹ :=
  congrArg v.map (funext fun a => div_eq_mul_inv a c)

/-- A vector divided by its length. -/
theorem normSq_map_div {r : ℝ} (hr : 0 < r) (h : v.norm = r) : (v.map (· / r)).normSq = 1 := by
  rw [map_div_eq_scale, normSq_scale, ← norm_sq, h, inv_pow, inv_mul_cancel₀ (pow_pos hr 2).ne']

/-- What is left of a vector without its part along a unit vector is orthogonal
to that. -/
theorem dot_sub_projection (hunit : u.normSq = 1) (hsize : u.size = v.size) :
    u.dot (v - u.scale (u.dot v)) = 0 := by
  rw [normSq, dot_eq_dotProduct hsize] at hunit
  rw [dot_eq_dotProduct hsize, toFun_sub rfl, toFun_scale, dotProduct_sub, dotProduct_smul, hunit,
    dot_eq_dotProduct hsize, smul_eq_mul, mul_one, sub_self]

/-- A vector that is divided by entries and multiplied by them again. -/
theorem mulEntries_divEntries (hsize : u.size = v.size) (hpos : ∀ i < v.size, 0 < v.get i) :
    v.mulEntries (u.divEntries v) = u := by
  refine ext_get ((size_mulEntries _ _).trans hsize.symm) fun i hi => ?_
  have hi : i < v.size := hi.trans_eq (size_mulEntries _ _)
  have hget : (u.divEntries v).get i = u.get i / v.get i :=
    get_ofFn_of_lt _ (hi.trans_eq hsize.symm)
  rw [get_mulEntries hi, hget, mul_div_cancel₀ _ (hpos i hi).ne']

end Vec

/-! ## The circle in the plane -/

namespace Plane

variable {p : Plane ℝ}

/-- Both directions have length one, and they are orthogonal. -/
structure Orthonormal (p : Plane ℝ) : Prop where
  size : p.first.size = p.second.size
  first : p.first.normSq = 1
  second : p.second.normSq = 1
  cross : p.first.dot p.second = 0

/-- A step has the length of its point in the plane. -/
theorem Orthonormal.normSq_toStep (hp : p.Orthonormal) (y : ℝ × ℝ) :
    (p.toStep y).normSq = y.1 ^ 2 + y.2 ^ 2 := by
  have hsize : (p.first.scale y.1).size = p.second.size := (Vec.size_scale _ _).trans hp.size
  have hcross : (p.first.scale y.1).dot p.second = 0 := by
    rw [Vec.dot_comm hsize, Vec.dot_scale, ← Vec.dot_comm hp.size, hp.cross, mul_zero]
  rw [toStep, Vec.normSq_add_scale hsize, hcross, Vec.normSq_scale, hp.first, hp.second]
  ring

/-- The best point of a circle lies on the circle, whatever the search finds. -/
theorem normSq_bestOnCircle (p : Plane ℝ) (radius : ℝ) :
    (p.bestOnCircle radius).1 ^ 2 + (p.bestOnCircle radius).2 ^ 2 = radius ^ 2 := by
  obtain ⟨angle, hangle⟩ : ∃ angle, p.bestOnCircle radius = onCircle radius angle := ⟨_, rfl⟩
  rw [hangle]
  show (Real.cos angle * radius) ^ 2 + (Real.sin angle * radius) ^ 2 = radius ^ 2
  rw [mul_pow, mul_pow, ← add_mul, Real.cos_sq_add_sin_sq, one_mul]

theorem Orthonormal.norm_toStep (hp : p.Orthonormal) {radius : ℝ} (hradius : 0 ≤ radius) :
    (p.toStep (p.bestOnCircle radius)).norm = radius :=
  Vec.norm_eq_of_normSq hradius ((hp.normSq_toStep _).trans (p.normSq_bestOnCircle radius))

end Plane

namespace Dogleg

variable {s : Dogleg ℝ} {jacobian : BlockMatrix ℝ} {residuals : Vec ℝ}

/-! ## The segment -/

/-- How far along a line the sphere is: the root of a quadratic equation. -/
theorem segment_root {c gap abSq : ℝ} (habSq : 0 < abSq) (hgap : 0 < gap) :
    2 * ((√(c * c + abSq * gap) - c) / abSq) * c +
      ((√(c * c + abSq * gap) - c) / abSq) ^ 2 * abSq = gap := by
  have hroot : √(c * c + abSq * gap) ^ 2 = c * c + abSq * gap :=
    Real.sq_sqrt (add_nonneg (mul_self_nonneg c) (mul_nonneg habSq.le hgap.le))
  generalize √(c * c + abSq * gap) = root at hroot ⊢
  field_simp
  linear_combination hroot

/-- The same root, written without a difference that could cancel. -/
theorem segment_root_eq {c gap abSq : ℝ} (habSq : 0 < abSq) (hgap : 0 < gap) (hc : 0 < c) :
    gap / (√(c * c + abSq * gap) + c) = (√(c * c + abSq * gap) - c) / abSq := by
  have hroot : √(c * c + abSq * gap) ^ 2 = c * c + abSq * gap :=
    Real.sq_sqrt (add_nonneg (mul_self_nonneg c) (mul_nonneg habSq.le hgap.le))
  have hsum : 0 < √(c * c + abSq * gap) + c := add_pos_of_nonneg_of_pos (Real.sqrt_nonneg _) hc
  rw [div_eq_div_iff hsum.ne' habSq.ne']
  linear_combination -hroot

/-- A segment from a point within the sphere to one outside has a length, and the
sphere lies ahead. -/
theorem segment_pos {a b : Vec ℝ} {radius : ℝ} (hsize : a.size = b.size)
    (hnear : a.norm < radius) (hfar : radius < b.norm) :
    0 < (b - a).normSq ∧ 0 < radius * radius - a.normSq := by
  constructor
  · refine lt_of_le_of_ne (Vec.normSq_nonneg _) fun hzero => (hnear.trans hfar).ne ?_
    have hnorm : (b - a).norm = 0 :=
      Vec.norm_eq_of_normSq le_rfl (hzero.symm.trans (zero_pow two_ne_zero).symm)
    rw [Vec.norm_eq_zero_iff (Vec.size_sub b a), Vec.toFun_sub rfl, sub_eq_zero] at hnorm
    rw [Vec.toFun_inj rfl hsize hnorm]
  · rw [← Vec.norm_sq, ← sq]
    linarith [pow_lt_pow_left₀ hnear a.norm_nonneg two_ne_zero]

/-- The point at which the segment from a point within the sphere to one outside
leaves it, with the root in both forms. -/
theorem norm_segment {a b : Vec ℝ} {radius : ℝ} (hsize : a.size = b.size)
    (hnear : a.norm < radius) (hfar : radius < b.norm) :
    let c := a.dot (b - a)
    let abSq := (b - a).normSq
    let gap := radius * radius - a.normSq
    let root := √(c * c + abSq * gap)
    (a + (b - a).scale ((root - c) / abSq)).norm = radius ∧
      (0 < c → (a + (b - a).scale (gap / (root + c))).norm = radius) := by
  intro c abSq gap root
  obtain ⟨habSq, hgap⟩ := segment_pos hsize hnear hfar
  have hpoint : (a + (b - a).scale ((root - c) / abSq)).norm = radius := by
    refine Vec.norm_eq_of_normSq (a.norm_nonneg.trans hnear.le) ?_
    rw [Vec.normSq_add_scale (hsize.trans (Vec.size_sub b a).symm), add_assoc,
      segment_root habSq hgap]
    show a.normSq + (radius * radius - a.normSq) = radius ^ 2
    ring
  exact ⟨hpoint, fun hc => by rwa [segment_root_eq habSq hgap hc]⟩

/-! ## The boundary -/

/-- What holds of everything that a strategy has stored. -/
structure Sound (s : Dogleg ℝ) : Prop where
  minDiagonal : 0 < s.minDiagonal
  diagonal : ∀ i < s.diagonal.size, 0 < s.diagonal.get i
  cauchy : 0 ≤ s.cauchy
  plane : ∀ p ∈ s.plane, p.Orthonormal

/-- The path ends on the boundary, if it reaches that far. -/
theorem Sound.norm_pathStep (hs : s.Sound) (hradius : 0 < s.radius)
    (hfar : s.radius < s.gaussNewton.norm) {scaled : Vec ℝ}
    (h : s.pathStep s.gaussNewton.norm = .ok scaled) : scaled.norm = s.radius := by
  have hlong : 0 < s.gaussNewton.norm := hradius.trans hfar
  unfold pathStep at h
  dsimp only at h
  split at h
  · -- along the Gauss-Newton step
    cases h
    rw [Vec.norm_scale, real_div, abs_of_pos (div_pos hradius hlong), div_mul_cancel₀ _ hlong.ne']
  · rename_i hgradient
    have hgradient : 0 < s.gradient.norm :=
      lt_of_le_of_ne s.gradient.norm_nonneg fun hzero => hgradient (by simpa using hzero.symm)
    split at h
    · -- along the gradient
      cases h
      rw [Vec.norm_scale, real_div, real_neg, abs_div, abs_neg, abs_of_pos hradius,
        abs_of_pos hgradient, div_mul_cancel₀ _ hgradient.ne']
    · rename_i hcauchy
      have hcauchy : s.gradient.norm * s.cauchy < s.radius := by simpa using hcauchy
      split at h
      · cases h
      · -- on the segment
        rename_i hsize
        have hsize : s.gaussNewton.size = s.gradient.size := not_not.mp hsize
        cases h
        have hinner : (s.gradient.scale (-s.cauchy)).norm = s.gradient.norm * s.cauchy := by
          rw [Vec.norm_scale, abs_neg, abs_of_nonneg hs.cauchy, mul_comm]
        obtain ⟨hquotient, hinverse⟩ := norm_segment
          ((Vec.size_scale _ _).trans hsize.symm) (hinner.trans_lt hcauchy) hfar
        split
        · exact hquotient
        · rename_i hc
          exact hinverse (not_le.mp fun hle => hc (by simpa using hle))

/-- Every way to the boundary ends there. -/
theorem Sound.norm_boundaryStep (hs : s.Sound) (hradius : 0 < s.radius)
    (hfar : s.radius < s.gaussNewton.norm) {scaled : Vec ℝ}
    (h : s.boundaryStep s.gaussNewton.norm = .ok scaled) : scaled.norm = s.radius := by
  unfold boundaryStep at h
  split at h
  · rename_i plane _ hplane
    cases h
    exact (hs.plane plane hplane).norm_toStep hradius.le
  · exact hs.norm_pathStep hradius hfar h

/-- What is known of a step: it fits the scaling, it is as long as the
Gauss-Newton step or as the radius, and its length is noted. -/
structure Measured (s : Dogleg ℝ) (step : Vec ℝ) : Prop where
  size : step.size = s.diagonal.size
  norm : (s.diagonal.mulEntries step).norm = min s.gaussNewton.norm s.radius
  stepNorm : s.stepNorm = (s.diagonal.mulEntries step).norm

/-- A step in scaled variables that is scaled back. -/
theorem Sound.measured_quotient (hs : s.Sound) {scaled step : Vec ℝ}
    (hnorm : scaled.norm = min s.gaussNewton.norm s.radius) (hnote : s.stepNorm = scaled.norm)
    (h : quotient? scaled s.diagonal = .ok step) : s.Measured step := by
  unfold quotient? at h
  split at h
  · rename_i hsize
    cases h
    have hback := Vec.mulEntries_divEntries hsize hs.diagonal
    exact ⟨(Vec.size_divEntries _ _).trans hsize, hback.symm ▸ hnorm, hback.symm ▸ hnote⟩
  · cases h

theorem Sound.note (hs : s.Sound) (norm : ℝ) : ({ s with stepNorm := norm } : Dogleg ℝ).Sound :=
  ⟨hs.minDiagonal, hs.diagonal, hs.cauchy, hs.plane⟩

/-- The step from what is stored. -/
theorem Sound.measured_step (hs : s.Sound) (hradius : 0 < s.radius) {step : Vec ℝ}
    (h : s.step.1 = .ok step) : s.step.2.Measured step := by
  unfold Dogleg.step at h ⊢
  dsimp only at h ⊢
  split at h
  · rename_i hinside
    rw [if_pos hinside]
    exact (hs.note _).measured_quotient (min_eq_left (by simpa using hinside)).symm rfl h
  · rename_i houtside
    rw [if_neg houtside]
    have houtside : s.radius < s.gaussNewton.norm := by simpa using houtside
    cases hboundary : s.boundaryStep s.gaussNewton.norm with
    | error f =>
        rw [hboundary] at h
        cases h
    | ok scaled =>
        rw [hboundary] at h
        have hnorm := hs.norm_boundaryStep hradius houtside hboundary
        exact (hs.note _).measured_quotient (hnorm.trans (min_eq_right houtside.le).symm) rfl h

/-- The sizes of what is stored fit. -/
structure Fits (s : Dogleg ℝ) : Prop where
  gradient : s.gradient.size = s.diagonal.size
  gaussNewton : s.gaussNewton.size = s.diagonal.size
  plane : ∀ p ∈ s.plane, p.first.size = s.diagonal.size

theorem Fits.exists_boundaryStep (hs : s.Fits) (norm : ℝ) :
    ∃ scaled, s.boundaryStep norm = .ok scaled ∧ scaled.size = s.diagonal.size := by
  unfold boundaryStep
  split
  · rename_i plane _ hplane
    refine ⟨_, rfl, ?_⟩
    rw [Plane.toStep, Vec.size_add, Vec.size_scale, hs.plane plane hplane]
  · unfold pathStep
    dsimp only
    split
    · exact ⟨_, rfl, (Vec.size_scale _ _).trans hs.gaussNewton⟩
    · split
      · exact ⟨_, rfl, (Vec.size_scale _ _).trans hs.gradient⟩
      · split
        · rename_i hne
          exact absurd (hs.gaussNewton.trans hs.gradient.symm) hne
        · exact ⟨_, rfl, (Vec.size_add _ _).trans ((Vec.size_scale _ _).trans hs.gradient)⟩

/-- There is a step from what is stored, if the sizes fit. -/
theorem Fits.exists_step (hs : s.Fits) : ∃ step, s.step.1 = .ok step := by
  have hquotient : ∀ scaled : Vec ℝ, scaled.size = s.diagonal.size →
      ∃ step, quotient? scaled s.diagonal = .ok step :=
    fun scaled hsize => ⟨_, if_pos hsize⟩
  unfold Dogleg.step
  dsimp only
  split
  · exact hquotient _ hs.gaussNewton
  · obtain ⟨scaled, hscaled, hsize⟩ := hs.exists_boundaryStep s.gaussNewton.norm
    rw [hscaled]
    exact hquotient scaled hsize

theorem Fits.exists_finish (hs : s.Fits) (iterations : Nat) :
    ∃ step, (s.finish iterations).1 = .ok step := by
  obtain ⟨step, hstep⟩ := hs.exists_step
  unfold finish
  split
  · exact ⟨_, rfl⟩
  · rename_i h
    rw [h] at hstep
    cases hstep

/-! ## What is stored -/

/-- A quotient of squares, with zero in the place of one that there is not. -/
theorem quotient_nonneg {a b zero : ℝ} (ha : 0 ≤ a) (hb : 0 ≤ b) (hzero : 0 ≤ zero) :
    0 ≤ (Scalar.quotient? a b).getD zero := by
  unfold Scalar.quotient?
  split
  · exact hzero
  · rw [real_isFinite, if_pos rfl]
    exact div_nonneg ha hb

/-- The scaling has an entry for every column, and none is zero. -/
theorem scaling_spec {clamped : Vec ℝ} (hmin : 0 < s.minDiagonal)
    (h : jacobian.squaredColumnNorms.clampEntries s.minDiagonal s.maxDiagonal = .ok clamped) :
    (clamped.map Scalar.sqrt).size = jacobian.numCols ∧
      ∀ i < (clamped.map Scalar.sqrt).size, 0 < (clamped.map Scalar.sqrt).get i := by
  unfold Vec.clampEntries at h
  split at h
  · rename_i hbounds
    cases h
    refine ⟨(Vec.size_map _ _).trans ((Vec.size_map _ _).trans jacobian.size_squaredColumnNorms),
      fun i hi => ?_⟩
    rw [Vec.size_map, Vec.size_map] at hi
    have hle : s.minDiagonal ≤ s.maxDiagonal := by
      simp only [Bool.or_eq_true, decide_eq_true_eq, real_le] at hbounds
      exact hbounds.resolve_left (by omega)
    rw [Vec.get_map _ (hi.trans_eq (Vec.size_map _ _).symm), Vec.get_map _ hi]
    exact Real.sqrt_pos.mpr (hmin.trans_le (clamp_mem _ hle).1)
  · cases h

/-- A linearization is sound, also one that ends with a fault. -/
theorem Sound.linearize (hs : s.Sound) (jacobian : BlockMatrix ℝ) (residuals : Vec ℝ) :
    (s.linearize jacobian residuals).2.Sound ∧
      ((s.linearize jacobian residuals).1 = .ok () →
        (s.linearize jacobian residuals).2.diagonal.size = jacobian.numCols ∧
          (s.linearize jacobian residuals).2.gradient.size = jacobian.numCols) := by
  unfold Dogleg.linearize
  split
  · exact ⟨hs, nofun⟩
  · rename_i clamped hclamped
    obtain ⟨hsize, hroots⟩ := scaling_spec hs.minDiagonal hclamped
    dsimp only
    split
    · exact ⟨⟨hs.minDiagonal, hroots, hs.cauchy, hs.plane⟩, nofun⟩
    · rename_i g hg
      refine ⟨⟨hs.minDiagonal, hroots, ?_, hs.plane⟩, fun _ => ⟨hsize, ?_⟩⟩
      · exact quotient_nonneg (Vec.normSq_nonneg _) (Vec.normSq_nonneg _) real_zero.ge
      · unfold BlockMatrix.leftMultiply? at hg
        split at hg
        · cases hg
          exact (Vec.size_divEntries _ _).trans (jacobian.size_leftMultiply _)
        · cases hg

/-- There is a linearization if the bounds of the scaling are in order and there
is a residual for every row. -/
theorem exists_linearize (hbounds : s.minDiagonal ≤ s.maxDiagonal)
    (hfits : jacobian.fitsLeft residuals.size = true) :
    ∃ linear, s.linearize jacobian residuals = (.ok (), linear) := by
  unfold Dogleg.linearize Vec.clampEntries BlockMatrix.leftMultiply?
  rw [if_pos (by simp [hbounds]), if_pos hfits]
  exact ⟨_, rfl⟩

/-- What the search for a Gauss-Newton point changes, and that the point fits. -/
theorem findGaussNewton_spec (s : Dogleg ℝ) (jacobian : BlockMatrix ℝ) (rhs : Vec ℝ) :
    ∃ solver mu point, (findGaussNewton jacobian rhs maxAttempts s).2 =
        { s with solver, mu, gaussNewton := point } ∧
      ∀ iterations, (findGaussNewton jacobian rhs maxAttempts s).1 = .ok iterations →
        point.size = jacobian.numCols := by
  have hsearch := searches_findGaussNewton jacobian rhs s (show maxAttempts ≠ 0 by decide)
  obtain ⟨solver, mu, point, hstate⟩ := hsearch.exists_eq
  refine ⟨solver, mu, point, hstate, fun iterations hfound => ?_⟩
  have hsize := hsearch.size_point
    (fun settings solution ⟨_, hsolution⟩ => LinearSolver.size_solve hsolution) hfound
  rwa [hstate] at hsize

/-- The plane of gradient and Gauss-Newton point is spanned by orthonormal
directions, if both have the same size. -/
theorem orthonormal_findPlane (hsize : s.gaussNewton.size = s.gradient.size) :
    ∀ p ∈ s.findPlane jacobian, p.Orthonormal := by
  intro p hp
  unfold findPlane at hp
  dsimp only at hp
  split at hp
  · cases hp
  · rename_i hgradient
    have hgradient : 0 < s.gradient.norm :=
      lt_of_le_of_ne s.gradient.norm_nonneg fun hzero => hgradient (by simpa using hzero.symm)
    split at hp
    · cases hp
    · rename_i hrest
      cases hp
      have hfirst := Vec.normSq_map_div hgradient rfl
      have hfirstSize : (s.gradient.map (· / s.gradient.norm)).size = s.gaussNewton.size :=
        (Vec.size_map _ _).trans hsize.symm
      generalize s.gradient.map (· / s.gradient.norm) = first at hfirst hfirstSize hrest ⊢
      have hcross := Vec.dot_sub_projection hfirst hfirstSize
      have hrestSize := Vec.size_sub s.gaussNewton (first.scale (first.dot s.gaussNewton))
      generalize s.gaussNewton - first.scale (first.dot s.gaussNewton) = rest at hrest hcross hrestSize ⊢
      have hrest : 0 < rest.norm := by
        have hlower : (1e-10 : ℝ) * max s.gaussNewton.norm 1 < rest.norm := by
          simpa [real_max] using hrest
        refine lt_trans ?_ hlower
        positivity
      refine ⟨hfirstSize.trans ((Vec.size_map _ _).trans hrestSize).symm, hfirst,
        Vec.normSq_map_div hrest rfl, ?_⟩
      rw [Vec.map_div_eq_scale, Vec.dot_scale, hcross, mul_zero]

/-! ## A step -/

/-- The state in which all that is stored belongs to a linear model. -/
noncomputable def planned (s : Dogleg ℝ) (jacobian : BlockMatrix ℝ) : Dogleg ℝ :=
  { s with
    plane :=
      match s.kind with
      | .subspace => s.findPlane jacobian
      | .traditional => none
    reuse := true }

/-- The ways in which a strategy answers: from what is stored, or with a fault of
the linearization, or with a failure of the linear solver, or from what it has
stored anew. -/
theorem computeStep_cases (s : Dogleg ℝ) (jacobian : BlockMatrix ℝ) (residuals : Vec ℝ) :
    s.reuse = true ∧ s.computeStep jacobian residuals = s.finish 0 ∨
    (∃ e, s.computeStep jacobian residuals = (.error e, (s.linearize jacobian residuals).2)) ∨
    (s.linearize jacobian residuals).1 = .ok () ∧
      let search := findGaussNewton jacobian (-residuals) maxAttempts
        (s.linearize jacobian residuals).2
      (∃ e, s.computeStep jacobian residuals = (.error e, search.2)) ∨
      ∃ iterations, search.1 = .ok iterations ∧
        s.computeStep jacobian residuals = (search.2.planned jacobian).finish iterations := by
  by_cases hreuse : s.reuse = true
  · exact .inl ⟨hreuse, if_pos hreuse⟩
  · refine .inr ?_
    rw [computeStep, if_neg hreuse]
    generalize s.linearize jacobian residuals = linear
    obtain ⟨_ | ⟨⟩, s'⟩ := linear
    · exact .inl ⟨_, rfl⟩
    · refine .inr ⟨rfl, ?_⟩
      dsimp only
      generalize findGaussNewton jacobian (-residuals) maxAttempts s' = search
      obtain ⟨_ | iterations, s''⟩ := search
      · exact .inl ⟨_, rfl⟩
      · exact .inr ⟨iterations, rfl, rfl⟩

theorem size_findPlane : ∀ p ∈ s.findPlane jacobian, p.first.size = s.gradient.size := by
  intro p hp
  unfold findPlane at hp
  dsimp only at hp
  split at hp
  · cases hp
  · split at hp
    · cases hp
    · cases hp
      exact Vec.size_map _ _

theorem fits_planned (hgradient : s.gradient.size = s.diagonal.size)
    (hpoint : s.gaussNewton.size = s.diagonal.size) : (s.planned jacobian).Fits where
  gradient := hgradient
  gaussNewton := hpoint
  plane := by
    unfold Dogleg.planned
    dsimp only
    split
    · exact fun p hp => (size_findPlane p hp).trans hgradient
    · exact nofun

theorem Sound.planned (hs : s.Sound) (hsize : s.gaussNewton.size = s.gradient.size) :
    (s.planned jacobian).Sound where
  minDiagonal := hs.minDiagonal
  diagonal := hs.diagonal
  cauchy := hs.cauchy
  plane := by
    unfold Dogleg.planned
    dsimp only
    split
    · exact orthonormal_findPlane hsize
    · exact nofun

/-- A step from sound data leaves them sound, keeps the radius and is measured. -/
theorem Sound.finish (hs : s.Sound) (iterations : Nat) :
    (s.finish iterations).2.Sound ∧ (s.finish iterations).2.radius = s.radius ∧
      (0 < s.radius → ∀ step, (s.finish iterations).1 = .ok step →
        (s.finish iterations).2.Measured step.step) := by
  obtain ⟨norm, hnote⟩ := s.exists_note iterations
  refine ⟨hnote ▸ hs.note norm, by rw [hnote], fun hradius step hstep => ?_⟩
  unfold Dogleg.finish at hstep ⊢
  split at hstep
  · rename_i h
    cases hstep
    have hmeasured := hs.measured_step hradius (congrArg Prod.fst h)
    rw [h] at hmeasured
    exact hmeasured
  · cases hstep

/-- Whatever the linear model and the state of the linear solver are, a step has
the length that it should have, and what is stored stays sound. -/
theorem Sound.computeStep (hs : s.Sound) (jacobian : BlockMatrix ℝ) (residuals : Vec ℝ) :
    (s.computeStep jacobian residuals).2.Sound ∧
      (s.computeStep jacobian residuals).2.radius = s.radius ∧
      (0 < s.radius → ∀ step, (s.computeStep jacobian residuals).1 = .ok step →
        (s.computeStep jacobian residuals).2.Measured step.step) := by
  obtain ⟨hlinear, hsizes⟩ := hs.linearize jacobian residuals
  have hlinearRadius := (s.frame_linearize jacobian residuals).radius
  obtain ⟨solver, mu, point, hstate, hpoint⟩ := findGaussNewton_spec
    (s.linearize jacobian residuals).2 jacobian (-residuals)
  have hsearch : (findGaussNewton jacobian (-residuals) maxAttempts
      (s.linearize jacobian residuals).2).2.Sound := by
    rw [hstate]
    exact ⟨hlinear.minDiagonal, hlinear.diagonal, hlinear.cauchy, hlinear.plane⟩
  have hsearchRadius : (findGaussNewton jacobian (-residuals) maxAttempts
      (s.linearize jacobian residuals).2).2.radius = s.radius := by
    rw [hstate, ← hlinearRadius]
  obtain ⟨-, hreuse⟩ | ⟨e, hfault⟩ | ⟨hok, ⟨e, hfailed⟩ | ⟨iterations, hfound, hstep⟩⟩ :=
    s.computeStep_cases jacobian residuals
  · rw [hreuse]
    exact hs.finish 0
  · rw [hfault]
    exact ⟨hlinear, hlinearRadius, fun _ => nofun⟩
  · rw [hfailed]
    exact ⟨hsearch, hsearchRadius, fun _ => nofun⟩
  · have hsize : (findGaussNewton jacobian (-residuals) maxAttempts
        (s.linearize jacobian residuals).2).2.gaussNewton.size =
          (findGaussNewton jacobian (-residuals) maxAttempts
            (s.linearize jacobian residuals).2).2.gradient.size := by
      rw [hstate]
      exact (hpoint iterations hfound).trans (hsizes hok).2.symm
    rw [hstep, ← hsearchRadius]
    exact (hsearch.planned hsize).finish iterations

/-! ## A run -/

/-- What a strategy stores when a linear solver has answered with `x`. -/
noncomputable def answered (s : Dogleg ℝ) (jacobian : BlockMatrix ℝ) (x : Vec ℝ)
    (solver : LinearSolver) (mu : ℝ) : Dogleg ℝ :=
  { s with solver, mu, gaussNewton := x.mulEntries s.diagonal }.planned jacobian

/-- A strategy in the course of a run: it has proposed any steps, any linear
solver may have answered in the place of its own, and it was told anything about
its steps. -/
inductive Course (start : Dogleg ℝ) : Dogleg ℝ → Prop where
  | start : Course start start
  | computeStep {s : Dogleg ℝ} (h : Course start s) (jacobian : BlockMatrix ℝ)
      (residuals : Vec ℝ) : Course start (s.computeStep jacobian residuals).2
  | answered {s linear : Dogleg ℝ} {jacobian : BlockMatrix ℝ} {residuals : Vec ℝ}
      (h : Course start s) (hlinear : s.linearize jacobian residuals = (.ok (), linear))
      {x : Vec ℝ} (hx : x.size = jacobian.numCols) (solver : LinearSolver) (mu : ℝ) :
      Course start (linear.answered jacobian x solver mu)
  | accepted {s : Dogleg ℝ} (h : Course start s) (quality : ℝ) : Course start (s.accepted quality)
  | rejected {s : Dogleg ℝ} (h : Course start s) : Course start s.rejected
  | invalid {s : Dogleg ℝ} (h : Course start s) : Course start s.invalid

theorem sound_new (solver : LinearSolver) {o : MinimizerOptions ℝ} (hmin : 0 < o.minDiagonal) :
    (new solver o).Sound where
  minDiagonal := hmin
  diagonal i hi := absurd hi (Nat.not_lt_zero i)
  cauchy := real_zero.ge
  plane := nofun

theorem Course.sound {start : Dogleg ℝ} (hstart : start.Sound) (h : Course start s) :
    s.Sound := by
  induction h with
  | start => exact hstart
  | computeStep _ jacobian residuals ih => exact (ih.computeStep jacobian residuals).1
  | @answered s linear jacobian residuals _ hlinear x hx solver mu ih =>
      obtain ⟨hsound, hsizes⟩ := ih.linearize jacobian residuals
      rw [hlinear] at hsound hsizes
      have hpoint : ({ linear with solver, mu, gaussNewton := x.mulEntries linear.diagonal } :
          Dogleg ℝ).Sound :=
        ⟨hsound.minDiagonal, hsound.diagonal, hsound.cauchy, hsound.plane⟩
      exact hpoint.planned ((Vec.size_mulEntries _ _).trans (hx.trans (hsizes rfl).2.symm))
  | accepted _ quality ih => exact ⟨ih.minDiagonal, ih.diagonal, ih.cauchy, ih.plane⟩
  | rejected _ ih => exact ⟨ih.minDiagonal, ih.diagonal, ih.cauchy, ih.plane⟩
  | invalid _ ih => exact ⟨ih.minDiagonal, ih.diagonal, ih.cauchy, ih.plane⟩

/-! ## Rejections -/

/-- A strategy that has returned a step takes the next one from what is stored,
unless it is told that the step was accepted or unusable. -/
theorem reuse_of_ok {step : TrustRegionStep ℝ}
    (h : (s.computeStep jacobian residuals).1 = .ok step) :
    (s.computeStep jacobian residuals).2.reuse = true := by
  obtain ⟨hreuse, hstep⟩ | ⟨e, hfault⟩ | ⟨-, ⟨e, hfailed⟩ | ⟨iterations, -, hstep⟩⟩ :=
    s.computeStep_cases jacobian residuals
  · obtain ⟨norm, hnote⟩ := s.exists_note 0
    rw [hstep, hnote]
    exact hreuse
  · rw [hfault] at h
    cases h
  · rw [hfailed] at h
    cases h
  · rw [hstep]
    obtain ⟨norm, hnote⟩ := exists_note (_ : Dogleg ℝ) iterations
    rw [hnote]
    rfl

/-- Rejections change the radius alone. -/
theorem iterate_rejected (s : Dogleg ℝ) (hreuse : s.reuse = true) (k : Nat) :
    rejected^[k] s = { s with radius := s.radius * 0.5 ^ k } := by
  induction k with
  | zero => rw [pow_zero, mul_one, Function.iterate_zero, id]
  | succ k ih =>
      rw [Function.iterate_succ_apply', ih, rejected, pow_succ, ← mul_assoc]
      show ({ s with radius := s.radius * 0.5 ^ k * 0.5, reuse := true } : Dogleg ℝ) = _
      rw [← hreuse]

/-- In exact arithmetic every step that is proposed in a run, from a linear model
and an answer of any linear solver or from what is stored, is in scaled variables
as long as the Gauss-Newton step or, if that is longer, as the radius, and this
length is noted. If the step is rejected some times, the next one is taken from
the same scaling and the same Gauss-Newton step, and it has this length for the
radius that is left. -/
theorem length_computeStep (solver : LinearSolver) {o : MinimizerOptions ℝ}
    (hmin : 0 < o.minDiagonal) (hs : Course (new solver o) s) (hradius : 0 < s.radius)
    {step : TrustRegionStep ℝ} (h : (s.computeStep jacobian residuals).1 = .ok step) :
    let s' := (s.computeStep jacobian residuals).2
    (step.step.size = s'.diagonal.size ∧
      (s'.diagonal.mulEntries step.step).norm = min s'.gaussNewton.norm s.radius ∧
      s'.stepNorm = (s'.diagonal.mulEntries step.step).norm) ∧
    ∀ k jacobian residuals next,
      ((rejected^[k] s').computeStep jacobian residuals).1 = .ok next →
        next.step.size = s'.diagonal.size ∧
        (s'.diagonal.mulEntries next.step).norm =
          min s'.gaussNewton.norm (s.radius * 0.5 ^ k) ∧
        ((rejected^[k] s').computeStep jacobian residuals).2.stepNorm =
          (s'.diagonal.mulEntries next.step).norm := by
  intro s'
  obtain ⟨hsound, hkept, hmeasured⟩ :=
    (hs.sound (sound_new solver hmin)).computeStep jacobian residuals
  have hstep := hmeasured hradius step h
  refine ⟨⟨hstep.size, hkept ▸ hstep.norm, hstep.stepNorm⟩, ?_⟩
  intro k jacobian residuals next hnext
  rw [iterate_rejected s' (reuse_of_ok h)] at hnext ⊢
  generalize hleft : ({ s' with radius := s'.radius * 0.5 ^ k } : Dogleg ℝ) = left at hnext ⊢
  have hleftSound : left.Sound :=
    hleft ▸ ⟨hsound.minDiagonal, hsound.diagonal, hsound.cauchy, hsound.plane⟩
  have hleftRadius : left.radius = s.radius * 0.5 ^ k := by
    rw [← hleft, ← hkept]
  have hpos : 0 < left.radius := by
    rw [hleftRadius]
    positivity
  have hstored : left.computeStep jacobian residuals = left.finish 0 := by
    rw [← hleft]
    exact if_pos (reuse_of_ok h)
  obtain ⟨norm, hnote⟩ := left.exists_note 0
  have hnext := (hleftSound.finish 0).2.2 hpos next (hstored ▸ hnext)
  rw [hstored, ← hleftRadius]
  rw [hnote] at hnext ⊢
  rw [← hleft] at hnext ⊢
  exact ⟨hnext.size, hnext.norm, hnext.stepNorm⟩

theorem length_computeStep_oneEquation :
    let solver : LinearSolver := ⟨.denseQR, .identity, 1, 1, 0, none⟩
    let start : Dogleg ℝ := new solver { dogleg := .subspace, initialRadius := 1 }
    let r : Vec ℝ := Vec.ofList [3]
    ∃ s step, Course start s ∧ (s.computeStep oneEquation r).1 = .ok step ∧
      let s' := (s.computeStep oneEquation r).2
      (s'.diagonal.mulEntries step.step).norm = min s'.gaussNewton.norm s.radius ∧
      s'.stepNorm = (s'.diagonal.mulEntries step.step).norm := by
  intro solver start r
  have hmin : (0 : ℝ) < start.minDiagonal := by
    show (0 : ℝ) < 1e-6
    norm_num
  have hradius : (0 : ℝ) < start.radius := by
    show (0 : ℝ) < 1
    norm_num
  have hbounds : start.minDiagonal ≤ start.maxDiagonal := (real_le _ _).mp real_defaultBounds
  have hfits : oneEquation.fitsLeft r.size = true := rfl
  obtain ⟨linear, hlinear⟩ := exists_linearize hbounds hfits
  obtain ⟨hdiagonal, hgradient⟩ :=
    ((sound_new solver hmin).linearize oneEquation r).2 (congrArg Prod.fst hlinear)
  have hkept := (start.frame_linearize oneEquation r).radius
  rw [hlinear] at hdiagonal hgradient hkept
  have hs : Course start (linear.answered oneEquation (Vec.ofList [3, 4]) solver 1) :=
    .answered .start hlinear (x := Vec.ofList [3, 4]) rfl solver 1
  have hplanned : (linear.answered oneEquation (Vec.ofList [3, 4]) solver 1).Fits :=
    fits_planned (hgradient.trans hdiagonal.symm) hdiagonal.symm
  obtain ⟨step, hstep⟩ := hplanned.exists_finish 0
  have hfirst : ((linear.answered oneEquation (Vec.ofList [3, 4]) solver 1).computeStep
      oneEquation r).1 = .ok step := hstep
  exact ⟨_, step, hs, hfirst,
    (length_computeStep solver hmin hs (hradius.trans_eq hkept.symm) hfirst).1.2⟩

end Dogleg

end LeastSquares
