import LeastSquares.Proofs.DoglegLengths

/-!
# Dogleg steps lower the linear model

In the scaled variables the linear model is a convex function. Along the gradient
it falls up to its minimizer there, and it is lower at the Gauss-Newton point than
at no step at all, although this point is regularized and so is not where the model
is least. On the segment between the two points it is lower as well, since it is
convex. So every point of the path lowers the model, and the decrease that the
minimizer predicts is positive.

The path depends on the radius only by where it ends. So the same holds of all
steps that are taken from what is stored after rejections.

## Main definitions

* `fall` — how far the model falls at a step.
* `LinearSolver.exactly` — the answers of a linear solver that finds solutions.
* `Dogleg.Solved` — what is stored is exact.
* `Dogleg.Asked` — a strategy that is asked for steps until one is not rejected.

## Main results

* `fall_gradient`, `fall_solution`, `fall_segment` — the parts of the path.
* `Dogleg.Solved.descends` — every step from what is stored.
* `Dogleg.proposals_descend` — every proposal.
-/

namespace LeastSquares

open Matrix

/-! ## Linear models -/

section Model

variable {ι κ : Type} [Fintype ι] [Fintype κ] {K : Matrix κ ι ℝ} {r : κ → ℝ} {x y : ι → ℝ}

/-- How far the linear model with residuals `r` and Jacobian `K` falls at a step. -/
noncomputable def fall (K : Matrix κ ι ℝ) (r : κ → ℝ) (y : ι → ℝ) : ℝ :=
  -(r ⬝ᵥ K *ᵥ y + 0.5 * (K *ᵥ y ⬝ᵥ K *ᵥ y))

theorem dotProduct_gradient (K : Matrix κ ι ℝ) (r : κ → ℝ) (y : ι → ℝ) :
    r ⬝ᵥ K *ᵥ y = (Kᵀ *ᵥ r) ⬝ᵥ y := by
  rw [mulVec_transpose, ← dotProduct_mulVec]

/-- Against the gradient the model falls up to its minimizer there, and beyond. -/
theorem fall_gradient {g : ι → ℝ} {t : ℝ} (hgradient : Kᵀ *ᵥ r = g) (hg : g ≠ 0) (ht : 0 < t)
    (hshort : t * (K *ᵥ g ⬝ᵥ K *ᵥ g) ≤ g ⬝ᵥ g) : 0 < fall K r (-t • g) := by
  have hvalue : fall K r (-t • g) = t * (g ⬝ᵥ g) - 0.5 * (t * (t * (K *ᵥ g ⬝ᵥ K *ᵥ g))) := by
    rw [fall, dotProduct_gradient, hgradient, mulVec_smul, smul_dotProduct, dotProduct_smul,
      dotProduct_smul]
    simp only [smul_eq_mul]
    ring
  have hsquare : 0 < g ⬝ᵥ g := dotProduct_star_self_pos_iff.mpr hg
  have hhalf : t * (t * (K *ᵥ g ⬝ᵥ K *ᵥ g)) ≤ t * (g ⬝ᵥ g) := mul_le_mul_of_nonneg_left hshort ht.le
  have hfirst : 0 < t * (g ⬝ᵥ g) := mul_pos ht hsquare
  rw [hvalue]
  linarith

/-- The solution of the regularized normal equations lowers the model. -/
theorem fall_solution {mu : ℝ} (hmu : 0 < mu) (hgradient : Kᵀ *ᵥ r ≠ 0)
    (hsolves : (Kᵀ * K) *ᵥ y + mu • y = -(Kᵀ *ᵥ r)) : 0 < fall K r y := by
  have hne : y ≠ 0 := by
    rintro rfl
    rw [mulVec_zero, smul_zero, add_zero, eq_comm, neg_eq_zero] at hsolves
    exact hgradient hsolves
  have hgain : r ⬝ᵥ K *ᵥ y = -(K *ᵥ y ⬝ᵥ K *ᵥ y) - mu * (y ⬝ᵥ y) := by
    have himage : (Kᵀ * K) *ᵥ y ⬝ᵥ y = K *ᵥ y ⬝ᵥ K *ᵥ y := by
      rw [← mulVec_mulVec, dotProduct_gradient]
    rw [dotProduct_gradient, ← neg_neg (Kᵀ *ᵥ r), ← hsolves, neg_dotProduct, add_dotProduct,
      himage, smul_dotProduct, smul_eq_mul]
    ring
  have hsquare : 0 < y ⬝ᵥ y := dotProduct_star_self_pos_iff.mpr hne
  have himage : 0 ≤ K *ᵥ y ⬝ᵥ K *ᵥ y := dotProduct_star_self_nonneg _
  have hdamping : 0 < mu * (y ⬝ᵥ y) := mul_pos hmu hsquare
  rw [fall, hgain]
  linarith

/-- The model is convex, so that between two steps that lower it every step does. -/
theorem fall_segment {beta : ℝ} (hlo : 0 ≤ beta) (hhi : beta ≤ 1) (hx : 0 < fall K r x)
    (hy : 0 < fall K r y) : 0 < fall K r (x + beta • (y - x)) := by
  have hconvex : fall K r (x + beta • (y - x)) = (1 - beta) * fall K r x + beta * fall K r y +
      0.5 * (beta * (1 - beta)) * (K *ᵥ (y - x) ⬝ᵥ K *ᵥ (y - x)) := by
    have hcomm : K *ᵥ y ⬝ᵥ K *ᵥ x = K *ᵥ x ⬝ᵥ K *ᵥ y := dotProduct_comm _ _
    simp only [fall, mulVec_add, mulVec_smul, mulVec_sub, dotProduct_add, add_dotProduct,
      dotProduct_smul, smul_dotProduct, dotProduct_sub, sub_dotProduct, smul_eq_mul, hcomm]
    ring
  have hspread : 0 ≤ 0.5 * (beta * (1 - beta)) * (K *ᵥ (y - x) ⬝ᵥ K *ᵥ (y - x)) :=
    mul_nonneg (mul_nonneg (by norm_num) (mul_nonneg hlo (by linarith)))
      (dotProduct_star_self_nonneg _)
  have hends : 0 < (1 - beta) * fall K r x + beta * fall K r y := by
    rcases hlo.eq_or_lt with rfl | hlo
    · linarith
    · exact add_pos_of_nonneg_of_pos (mul_nonneg (by linarith) hx.le) (mul_pos hlo hy)
  rw [hconvex]
  linarith

end Model

/-! ## Scaled variables -/

section Scaled

variable {a : BlockMatrix ℝ} {d r y : Vec ℝ}

/-- The Jacobian in the variables that are scaled by `d`. -/
noncomputable def BlockMatrix.inScaled (a : BlockMatrix ℝ) (d : Vec ℝ) :
    Matrix (Fin a.numRows) (Fin a.numCols) ℝ :=
  a.toMatrix * diagonal fun i : Fin a.numCols => (d.get i)⁻¹

theorem Vec.toFun_divEntries {n : Nat} (hy : y.size = n) :
    (y.divEntries d).toFun n = diagonal (fun i : Fin n => (d.get i)⁻¹) *ᵥ y.toFun n := by
  funext i
  rw [mulVec_diagonal, toFun_apply, toFun_apply, ← div_eq_inv_mul]
  exact get_ofFn_of_lt _ (i.isLt.trans_eq hy.symm)

/-- The product with a step that is scaled back. -/
theorem BlockMatrix.inScaled_mulVec (hy : y.size = a.numCols) :
    a.inScaled d *ᵥ y.toFun a.numCols = a.toMatrix *ᵥ (y.divEntries d).toFun a.numCols := by
  rw [inScaled, ← mulVec_mulVec, Vec.toFun_divEntries hy]

theorem BlockMatrix.transpose_inScaled_mulVec (a : BlockMatrix ℝ) (d : Vec ℝ)
    (z : Fin a.numRows → ℝ) : (a.inScaled d)ᵀ *ᵥ z =
      diagonal (fun i : Fin a.numCols => (d.get i)⁻¹) *ᵥ (a.toMatrixᵀ *ᵥ z) := by
  rw [inScaled, transpose_mul, diagonal_transpose, mulVec_mulVec]

/-- The decrease of the linear model is how far the model falls in the scaled
variables. -/
theorem modelDecrease_divEntries (hy : y.size = a.numCols) :
    modelDecrease a r (y.divEntries d) =
      fall (a.inScaled d) (r.toFun a.numRows) (y.toFun a.numCols) := by
  rw [modelDecrease, fall, BlockMatrix.inScaled_mulVec hy]

/-- The regularized normal equations in the scaled variables. -/
theorem BlockMatrix.inScaled_solves {x : Vec ℝ} {mu : ℝ} (hmu : 0 ≤ mu) (hd : d.size = a.numCols)
    (hpos : ∀ i < a.numCols, 0 < d.get i) (hx : x.size = a.numCols)
    (h : normalSystem a ((d.scale √mu).mulEntries (d.scale √mu)) *ᵥ x.toFun a.numCols =
      a.toMatrixᵀ *ᵥ (-r).toFun a.numRows) :
    ((a.inScaled d)ᵀ * a.inScaled d) *ᵥ (x.mulEntries d).toFun a.numCols +
      mu • (x.mulEntries d).toFun a.numCols = -((a.inScaled d)ᵀ *ᵥ r.toFun a.numRows) := by
  have hback : (x.mulEntries d).divEntries d = x := by
    refine Vec.ext_get ((Vec.size_divEntries _ _).trans (Vec.size_mulEntries _ _)) fun i hi => ?_
    have hi : i < (x.mulEntries d).size := hi.trans_eq (Vec.size_divEntries _ _)
    have hget : ((x.mulEntries d).divEntries d).get i = (x.mulEntries d).get i / d.get i :=
      Vec.get_ofFn_of_lt _ hi
    have hi : i < x.size := hi.trans_eq (Vec.size_mulEntries _ _)
    rw [hget, Vec.get_mulEntries hi, mul_div_cancel_right₀ _ (hpos i (hi.trans_eq hx)).ne']
  rw [← mulVec_mulVec, inScaled_mulVec ((Vec.size_mulEntries _ _).trans hx), hback,
    transpose_inScaled_mulVec, transpose_inScaled_mulVec]
  rw [Vec.toFun_neg, mulVec_neg, normalSystem, add_mulVec, ← mulVec_mulVec] at h
  funext i
  have hdi : 0 < d.get i := hpos i i.isLt
  have hsquare : ((d.scale √mu).mulEntries (d.scale √mu)).get i = d.get i ^ 2 * mu := by
    rw [Vec.get_mulEntries ((i.isLt.trans_eq hd.symm).trans_eq (Vec.size_scale _ _).symm),
      Vec.get_scale, mul_mul_mul_comm, Real.mul_self_sqrt hmu, sq]
  have hentry : (x.mulEntries d).get i = x.get i * d.get i :=
    Vec.get_mulEntries (i.isLt.trans_eq hx.symm)
  have hi := congrFun h i
  rw [Pi.add_apply, mulVec_diagonal, Pi.neg_apply, Vec.toFun_apply, Vec.toFun_apply, hsquare] at hi
  rw [Pi.add_apply, Pi.smul_apply, Pi.neg_apply, mulVec_diagonal, mulVec_diagonal, Vec.toFun_apply,
    hentry, smul_eq_mul]
  field_simp
  linear_combination hi

end Scaled

/-! ## Exact answers -/

/-- The answers of a linear solver that finds the solution of every system with a
positive regularizer. -/
def LinearSolver.exactly : Answering ℝ := fun a b settings answer =>
  ∀ d, settings.regularizer = some d → d.size = a.numCols → (∀ i < a.numCols, 0 < d.get i) →
    ∃ found, answer = .ok found ∧ found.x.size = a.numCols ∧
      normalSystem a (d.mulEntries d) *ᵥ found.x.toFun a.numCols =
        a.toMatrixᵀ *ᵥ b.toFun a.numRows

/-- A linear solver finds the solutions for a matrix and a right-hand side. -/
def LinearSolver.Exact (s : LinearSolver) (a : BlockMatrix ℝ) (b : Vec ℝ) : Prop :=
  ∀ settings, exactly a b settings (s.solve a b settings).1

/-- All solvers that factor do. -/
theorem LinearSolver.Suits.exact {s : LinearSolver} {o : LinearSolverOptions}
    {a : BlockMatrix ℝ} {b : Vec ℝ} (hs : s.Suits o a) (helim : Eliminates o a)
    (ha : a.WellFormed) (hkind : s.kind.isIterative = false) (hb : b.size = a.numRows) :
    s.Exact a b := by
  rintro ⟨regularizer, tolerance⟩ d rfl hd hpos
  refine hs.solve_direct helim ha hkind _ hb (regularizerSquared_some hd)
    (posDef_normalSystem fun i hi => ?_)
  rw [Vec.get_mulEntries (hi.trans_eq hd.symm)]
  exact mul_pos (hpos i hi) (hpos i hi)

namespace Dogleg

variable {a : BlockMatrix ℝ} {r : Vec ℝ} {s : Dogleg ℝ}

/-! ## The path -/

/-- The root of the quadratic equation lies between zero and one, if the point
beyond lies outside the sphere. -/
theorem segment_root_mem {c gap abSq : ℝ} (habSq : 0 < abSq) (hgap : 0 < gap)
    (hfar : gap < 2 * c + abSq) :
    0 < (√(c * c + abSq * gap) - c) / abSq ∧ (√(c * c + abSq * gap) - c) / abSq < 1 := by
  have hroot : |c| < √(c * c + abSq * gap) := by
    rw [Real.lt_sqrt (abs_nonneg c), sq_abs]
    nlinarith [mul_pos habSq hgap]
  have hbelow : √(c * c + abSq * gap) < c + abSq := by
    rw [Real.sqrt_lt' (by linarith)]
    nlinarith [mul_pos habSq (sub_pos.mpr hfar)]
  rw [div_lt_one habSq]
  exact ⟨div_pos (sub_pos.mpr ((le_abs_self c).trans_lt hroot)) habSq, by linarith⟩

/-- The segment is left between its ends, whichever form of the root is taken. -/
theorem segment_mem {u v : Vec ℝ} {radius : ℝ} (hsize : u.size = v.size)
    (hnear : u.norm < radius) (hfar : radius < v.norm) :
    let c := u.dot (v - u)
    let abSq := (v - u).normSq
    let gap := radius * radius - u.normSq
    let root := √(c * c + abSq * gap)
    ((root - c) / abSq ∈ Set.Ioo 0 1) ∧ (0 < c → gap / (root + c) ∈ Set.Ioo 0 1) := by
  intro c abSq gap root
  obtain ⟨habSq, hgap⟩ := segment_pos hsize hnear hfar
  have hwhole : v.normSq = u.normSq + 2 * c + abSq := by
    have hsum : u.toFun v.size + (v - u).toFun v.size = v.toFun v.size := by
      rw [Vec.toFun_sub rfl, add_sub_cancel]
    have hcomm : (v - u).toFun v.size ⬝ᵥ u.toFun v.size = u.toFun v.size ⬝ᵥ (v - u).toFun v.size :=
      dotProduct_comm _ _
    show v.normSq = u.normSq + 2 * u.dot (v - u) + (v - u).normSq
    rw [Vec.normSq, Vec.normSq, Vec.normSq, Vec.dot_eq_dotProduct rfl, Vec.dot_eq_dotProduct hsize,
      Vec.dot_eq_dotProduct hsize, Vec.dot_eq_dotProduct (Vec.size_sub v u), ← hsum,
      add_dotProduct, dotProduct_add, dotProduct_add, hcomm]
    ring
  have hbeyond : gap < 2 * c + abSq := by
    have hsquare : radius * radius < v.normSq := by
      rw [← Vec.norm_sq, ← sq]
      exact pow_lt_pow_left₀ hfar (u.norm_nonneg.trans hnear.le) two_ne_zero
    show radius * radius - u.normSq < 2 * c + abSq
    linarith
  have hmem := segment_root_mem habSq hgap hbeyond
  exact ⟨hmem, fun hc => by rwa [segment_root_eq habSq hgap hc]⟩

/-- Scaling, gradient and the length along it are those of a linear model whose
gradient is not zero. -/
structure Linearized (a : BlockMatrix ℝ) (r : Vec ℝ) (s : Dogleg ℝ) : Prop where
  size : s.diagonal.size = a.numCols
  diagonal : ∀ i < a.numCols, 0 < s.diagonal.get i
  sizeGradient : s.gradient.size = a.numCols
  gradient : (a.inScaled s.diagonal)ᵀ *ᵥ r.toFun a.numRows = s.gradient.toFun a.numCols
  moving : s.gradient.toFun a.numCols ≠ 0
  cauchy : s.cauchy * (a.inScaled s.diagonal *ᵥ s.gradient.toFun a.numCols ⬝ᵥ
    a.inScaled s.diagonal *ᵥ s.gradient.toFun a.numCols) =
      s.gradient.toFun a.numCols ⬝ᵥ s.gradient.toFun a.numCols

/-- What is stored is exact for a linear model. The Gauss-Newton point solves the
normal equations in the scaled variables, with some regularization. -/
structure Solved (a : BlockMatrix ℝ) (r : Vec ℝ) (s : Dogleg ℝ) : Prop extends
    Linearized a r s where
  plane : s.plane = none
  sizePoint : s.gaussNewton.size = a.numCols
  point : ∃ mu : ℝ, 0 < mu ∧ ((a.inScaled s.diagonal)ᵀ * a.inScaled s.diagonal) *ᵥ
    s.gaussNewton.toFun a.numCols + mu • s.gaussNewton.toFun a.numCols =
      -((a.inScaled s.diagonal)ᵀ *ᵥ r.toFun a.numRows)

theorem Solved.cauchy_pos (hs : s.Solved a r) : 0 < s.cauchy := by
  have hsquare : 0 < s.gradient.toFun a.numCols ⬝ᵥ s.gradient.toFun a.numCols :=
    dotProduct_star_self_pos_iff.mpr hs.moving
  refine pos_of_mul_pos_left (hs.cauchy.symm ▸ hsquare) ?_
  exact dotProduct_star_self_nonneg _

theorem Solved.fall_point (hs : s.Solved a r) :
    0 < fall (a.inScaled s.diagonal) (r.toFun a.numRows) (s.gaussNewton.toFun a.numCols) := by
  obtain ⟨mu, hmu, hsolves⟩ := hs.point
  exact fall_solution hmu (hs.gradient ▸ hs.moving) hsolves

/-- The model falls along the gradient as far as the path follows it. -/
theorem Solved.fall_along (hs : s.Solved a r) {t : ℝ} (ht : 0 < t) (hle : t ≤ s.cauchy) :
    0 < fall (a.inScaled s.diagonal) (r.toFun a.numRows)
      ((s.gradient.scale (-t)).toFun a.numCols) := by
  rw [Vec.toFun_scale]
  refine fall_gradient hs.gradient hs.moving ht ?_
  rw [← hs.cauchy]
  exact mul_le_mul_of_nonneg_right hle (dotProduct_star_self_nonneg _)

/-- Between the minimizer along the gradient and the Gauss-Newton point. -/
theorem Solved.fall_between (hs : s.Solved a r) {beta : ℝ} (hbeta : beta ∈ Set.Ioo 0 1) :
    0 < fall (a.inScaled s.diagonal) (r.toFun a.numRows)
      ((s.gradient.scale (-s.cauchy) +
        (s.gaussNewton - s.gradient.scale (-s.cauchy)).scale beta).toFun a.numCols) := by
  have hinner : (s.gradient.scale (-s.cauchy)).size = a.numCols :=
    (Vec.size_scale _ _).trans hs.sizeGradient
  rw [Vec.toFun_add hinner, Vec.toFun_scale (s.gaussNewton - _), Vec.toFun_sub hs.sizePoint]
  exact fall_segment hbeta.1.le hbeta.2.le (hs.fall_along hs.cauchy_pos le_rfl) hs.fall_point

/-- The path lowers the model where it ends. -/
theorem Solved.fall_pathStep (hs : s.Solved a r) (hradius : 0 < s.radius)
    (hfar : s.radius < s.gaussNewton.norm) {scaled : Vec ℝ}
    (h : s.pathStep s.gaussNewton.norm = .ok scaled) : scaled.size = a.numCols ∧
      0 < fall (a.inScaled s.diagonal) (r.toFun a.numRows) (scaled.toFun a.numCols) := by
  have hgradient : 0 < s.gradient.norm := lt_of_le_of_ne s.gradient.norm_nonneg fun hzero =>
    hs.moving ((Vec.norm_eq_zero_iff hs.sizeGradient).mp hzero.symm)
  unfold pathStep at h
  dsimp only at h
  split at h
  · rename_i hzero
    exact absurd ((real_beq _ _).mp hzero) (real_zero ▸ hgradient.ne')
  · split at h
    · -- along the gradient
      rename_i hcauchy
      rw [real_le, real_mul] at hcauchy
      cases h
      refine ⟨(Vec.size_scale _ _).trans hs.sizeGradient, ?_⟩
      rw [real_div, real_neg, neg_div]
      exact hs.fall_along (div_pos hradius hgradient)
        ((div_le_iff₀ hgradient).mpr (by rwa [mul_comm]))
    · rename_i hcauchy
      rw [real_le, real_mul, not_le] at hcauchy
      split at h
      · cases h
      · -- on the segment
        cases h
        have hinner : (s.gradient.scale (-s.cauchy)).size = a.numCols :=
          (Vec.size_scale _ _).trans hs.sizeGradient
        have hnear : (s.gradient.scale (-s.cauchy)).norm < s.radius := by
          rwa [Vec.norm_scale, abs_neg, abs_of_pos hs.cauchy_pos, mul_comm]
        obtain ⟨hquotient, hinverse⟩ := segment_mem (hinner.trans hs.sizePoint.symm) hnear hfar
        refine ⟨(Vec.size_add _ _).trans hinner, hs.fall_between ?_⟩
        split
        · exact hquotient
        · rename_i hc
          rw [real_le, real_zero, not_le] at hc
          exact hinverse hc

/-- Every step from what is stored lowers the model. -/
theorem Solved.descends (hs : s.Solved a r) (hradius : 0 < s.radius) {step : Vec ℝ}
    (h : s.step.1 = .ok step) : 0 < modelDecrease a r step := by
  have hback : ∀ {scaled : Vec ℝ}, scaled.size = a.numCols →
      0 < fall (a.inScaled s.diagonal) (r.toFun a.numRows) (scaled.toFun a.numCols) →
      quotient? scaled s.diagonal = .ok step → 0 < modelDecrease a r step := by
    intro scaled hsize hfall h
    unfold quotient? at h
    split at h
    · cases h
      exact (modelDecrease_divEntries hsize).symm ▸ hfall
    · cases h
  unfold Dogleg.step at h
  dsimp only at h
  split at h
  · exact hback hs.sizePoint hs.fall_point h
  · rename_i houtside
    rw [real_le, not_le] at houtside
    have hpath : s.boundaryStep s.gaussNewton.norm = s.pathStep s.gaussNewton.norm := by
      rw [boundaryStep, hs.plane]
      cases s.kind <;> rfl
    rw [hpath] at h
    cases hend : s.pathStep s.gaussNewton.norm with
    | error f =>
        rw [hend] at h
        cases h
    | ok scaled =>
        rw [hend] at h
        obtain ⟨hsize, hfall⟩ := hs.fall_pathStep hradius houtside hend
        exact hback hsize hfall h

theorem Solved.fits (hs : s.Solved a r) : s.Fits where
  gradient := hs.sizeGradient.trans hs.size.symm
  gaussNewton := hs.sizePoint.trans hs.size.symm
  plane := by
    rw [hs.plane]
    exact nofun

/-! ## Proposals -/

/-- A proposal has a step that lowers the model, and leaves what is exact for it. -/
structure Descends (a : BlockMatrix ℝ) (r : Vec ℝ) (radius : ℝ)
    (p : Outcome LinearError (TrustRegionStep ℝ) × Dogleg ℝ) : Prop where
  step : ∃ step, p.1 = .ok step ∧ 0 < modelDecrease a r step.step
  solved : p.2.Solved a r
  radius : p.2.radius = radius

theorem Solved.finish (hs : s.Solved a r) (hradius : 0 < s.radius) (iterations : Nat) :
    Descends a r s.radius (s.finish iterations) := by
  obtain ⟨step, hstep⟩ := hs.fits.exists_finish iterations
  obtain ⟨norm, hnote⟩ := s.exists_note iterations
  refine ⟨⟨step, hstep, ?_⟩, ?_, hnote ▸ rfl⟩
  · unfold Dogleg.finish at hstep
    split at hstep
    · rename_i h
      cases hstep
      exact hs.descends hradius (congrArg Prod.fst h)
    · cases hstep
  · rw [hnote]
    exact ⟨⟨hs.size, hs.diagonal, hs.sizeGradient, hs.gradient, hs.moving, hs.cauchy⟩, hs.plane,
      hs.sizePoint, hs.point⟩

/-- What a strategy was set up with, and that it regularizes. -/
structure SetUp (o : MinimizerOptions ℝ) (s : Dogleg ℝ) : Prop where
  kind : s.kind = o.dogleg
  minDiagonal : s.minDiagonal = o.minDiagonal
  maxDiagonal : s.maxDiagonal = o.maxDiagonal
  mu : 0 < s.mu

theorem minMu_pos : (0 : ℝ) < minMu := by
  show (0 : ℝ) < 1e-8
  norm_num

theorem raised_pos {mu : ℝ} (hmu : 0 < mu) : 0 < mu * muFactor := by
  refine mul_pos hmu ?_
  show (0 : ℝ) < 10.0
  norm_num

theorem setUp_new (solver : LinearSolver) (o : MinimizerOptions ℝ) : (new solver o).SetUp o :=
  ⟨rfl, rfl, rfl, minMu_pos⟩

variable {answers : Answering ℝ} {o : MinimizerOptions ℝ}

theorem Searches.mu_pos {b : Vec ℝ} {result : Outcome LinearError Nat × Dogleg ℝ}
    (h : Searches answers a b s result) (hmu : 0 < s.mu) : 0 < result.2.mu := by
  induction h with
  | found _ _ _ =>
      show 0 < Scalar.max _ _
      rw [real_max]
      exact lt_max_of_lt_right minMu_pos
  | stopped _ _ => exact hmu
  | raised _ _ _ _ ih => exact ih (raised_pos hmu)
  | ended _ _ _ _ => exact raised_pos hmu

theorem Proposes.mu_pos {p : Outcome LinearError (TrustRegionStep ℝ) × Dogleg ℝ}
    (h : s.Proposes answers a r p) (hmu : 0 < s.mu) : 0 < p.2.mu := by
  have hlinear : 0 < (s.linearize a r).2.mu := by
    obtain ⟨_, _, _, hkept⟩ := s.exists_linearized a r
    rw [hkept]
    exact hmu
  cases h with
  | stored _ =>
      obtain ⟨norm, hnote⟩ := s.exists_note 0
      rw [hnote]
      exact hmu
  | unscaled _ linearized =>
      rw [linearized] at hlinear
      exact hlinear
  | unsolved _ linearized searched =>
      rw [linearized] at hlinear
      exact searched.mu_pos hlinear
  | @solved _ _ s' iterations linearized searched =>
      obtain ⟨norm, hnote⟩ :=
        exists_note { s' with plane := s'.planeFor a, reuse := true } iterations
      rw [linearized] at hlinear
      rw [hnote]
      exact searched.mu_pos hlinear

theorem setUp_of_course {solver : LinearSolver} {allowed : ℝ → Prop}
    (h : Strategy.Course answers allowed (.dogleg (new solver o)) (.dogleg s)) : s.SetUp o := by
  obtain ⟨_, ⟨⟩, hs⟩ := h.dogleg (P := SetUp o) (setUp_new solver o)
    (fun hs hp => ⟨hp.frame.kind.trans hs.kind, hp.frame.minDiagonal.trans hs.minDiagonal,
      hp.frame.maxDiagonal.trans hs.maxDiagonal, hp.mu_pos hs.mu⟩)
    (fun _ hs => ⟨hs.kind, hs.minDiagonal, hs.maxDiagonal, hs.mu⟩)
    (fun hs => ⟨hs.kind, hs.minDiagonal, hs.maxDiagonal, hs.mu⟩)
    fun hs => ⟨hs.kind, hs.minDiagonal, hs.maxDiagonal, raised_pos hs.mu⟩
  exact hs

/-- An exact answer to what is asked with a positive regularization. -/
theorem exists_found {b : Vec ℝ} {mu eta : ℝ} {d : Vec ℝ} (hd : d.size = a.numCols)
    (hpos : ∀ i < a.numCols, 0 < d.get i) (hmu : 0 < mu)
    {answer : Outcome LinearError (LinearSolution ℝ)}
    (h : LinearSolver.exactly a b ⟨some (d.scale (Scalar.sqrt mu)), eta⟩ answer) :
    ∃ found, answer = .ok found ∧ found.x.size = a.numCols ∧
      normalSystem a ((d.scale √mu).mulEntries (d.scale √mu)) *ᵥ found.x.toFun a.numCols =
        a.toMatrixᵀ *ᵥ b.toFun a.numRows := by
  refine h _ rfl ((Vec.size_scale _ _).trans hd) fun i hi => ?_
  rw [Vec.get_scale]
  exact mul_pos (hpos i hi) (Real.sqrt_pos.mpr hmu)

/-- With exact answers the first attempt is enough. -/
theorem Searches.exists_iterations {b : Vec ℝ} {result : Outcome LinearError Nat × Dogleg ℝ}
    (h : Searches LinearSolver.exactly a b s result) (hd : s.diagonal.size = a.numCols)
    (hpos : ∀ i < a.numCols, 0 < s.diagonal.get i) (hmu : 0 < s.mu) :
    ∃ iterations, result.1 = .ok iterations := by
  cases h with
  | found _ _ _ => exact ⟨_, rfl⟩
  | stopped answer _ =>
      obtain ⟨found, hfound, -⟩ := exists_found hd hpos hmu answer
      cases hfound
  | raised answer failed _ _ =>
      obtain ⟨found, hfound, -⟩ := exists_found hd hpos hmu answer
      exact absurd (failed found hfound) (by rw [Vec.isFinite_real]; nofun)
  | ended answer failed _ _ =>
      obtain ⟨found, hfound, -⟩ := exists_found hd hpos hmu answer
      exact absurd (failed found hfound) (by rw [Vec.isFinite_real]; nofun)

/-- The length along the gradient is a quotient, if the gradient is not zero. -/
theorem cauchy_spec {K : Matrix (Fin a.numRows) (Fin a.numCols) ℝ} {g : Fin a.numCols → ℝ}
    {gSq imageSq zero : ℝ} (hgradient : Kᵀ *ᵥ r.toFun a.numRows = g) (hg : g ≠ 0)
    (hgSq : gSq = g ⬝ᵥ g) (himage : imageSq = K *ᵥ g ⬝ᵥ K *ᵥ g) :
    (Scalar.quotient? gSq imageSq).getD zero * (K *ᵥ g ⬝ᵥ K *ᵥ g) = g ⬝ᵥ g := by
  have hne : K *ᵥ g ≠ 0 := by
    intro hzero
    have hsquare : 0 < g ⬝ᵥ g := dotProduct_star_self_pos_iff.mpr hg
    rw [← hgradient, ← dotProduct_gradient, hgradient, hzero, dotProduct_zero] at hsquare
    exact lt_irrefl 0 hsquare
  have hpos : imageSq ≠ 0 := by
    rw [himage]
    exact (dotProduct_star_self_pos_iff.mpr hne).ne'
  have hquotient : Scalar.quotient? gSq imageSq = some (gSq / imageSq) := by
    unfold Scalar.quotient?
    rw [if_neg (by simpa using hpos), real_isFinite, if_pos rfl, real_div]
  rw [hquotient, Option.getD_some, ← himage, ← hgSq, div_mul_cancel₀ _ hpos]

theorem linearized_of_linearize {linear : Dogleg ℝ} (hmin : 0 < s.minDiagonal)
    (ha : a.WellFormed) (hr : r.size = a.numRows) (hne : a.toMatrixᵀ *ᵥ r.toFun a.numRows ≠ 0)
    (h : s.linearize a r = (.ok (), linear)) : linear.Linearized a r := by
  obtain ⟨clamped, g, hclamped, hg, rfl⟩ := linearize_eq_ok h
  obtain ⟨hsize, hpos⟩ := scaling_spec hmin hclamped
  obtain rfl : a.leftMultiply r = g := Except.ok.inj ((ha.leftMultiply?_eq hr).symm.trans hg)
  generalize clamped.map Scalar.sqrt = d at hsize hpos ⊢
  have hsizeGradient : ((a.leftMultiply r).divEntries d).size = a.numCols :=
    (Vec.size_divEntries _ _).trans (a.size_leftMultiply r)
  have hgradient : (a.inScaled d)ᵀ *ᵥ r.toFun a.numRows =
      ((a.leftMultiply r).divEntries d).toFun a.numCols := by
    rw [a.transpose_inScaled_mulVec, Vec.toFun_divEntries (a.size_leftMultiply r),
      ha.toFun_leftMultiply]
  have hmoving : ((a.leftMultiply r).divEntries d).toFun a.numCols ≠ 0 := by
    intro hzero
    refine hne (funext fun i => ?_)
    have hi := congrFun hzero i
    rw [Vec.toFun_divEntries (a.size_leftMultiply r), mulVec_diagonal, ha.toFun_leftMultiply,
      Pi.zero_apply] at hi
    exact (mul_eq_zero.mp hi).resolve_left (inv_ne_zero (hpos i (i.isLt.trans_eq hsize.symm)).ne')
  generalize (a.leftMultiply r).divEntries d = gradient at hsizeGradient hgradient hmoving ⊢
  refine ⟨hsize, fun i hi => hpos i (hi.trans_eq hsize.symm), hsizeGradient, hgradient, hmoving,
    cauchy_spec hgradient hmoving ?_ ?_⟩
  · rw [Vec.normSq, Vec.dot_eq_dotProduct hsizeGradient]
  · rw [Vec.normSq, Vec.dot_eq_dotProduct (ha.size_rightMultiply _), ha.toFun_rightMultiply,
      BlockMatrix.inScaled_mulVec hsizeGradient]

/-- The point that a search finds with exact answers, and all that is stored with
it. -/
theorem Searches.solved {linear s' : Dogleg ℝ} {iterations : Nat}
    (h : Searches LinearSolver.exactly a (-r) linear (.ok iterations, s'))
    (hlinear : linear.Linearized a r) (hkind : linear.kind = .traditional) (hmu : 0 < linear.mu) :
    ({ s' with plane := s'.planeFor a, reuse := true } : Dogleg ℝ).Solved a r := by
  obtain ⟨mu, solution, hmu, hanswer, hpoint⟩ :=
    h.exists_answer (fun _ => raised_pos) hmu iterations rfl
  obtain ⟨_, ⟨⟩, hsize, hsolves⟩ := exists_found hlinear.size hlinear.diagonal hmu hanswer
  obtain ⟨solver, mu', point, hsearched⟩ := h.exists_eq
  obtain rfl : s' = { linear with solver, mu := mu', gaussNewton := point } := hsearched
  obtain rfl : point = solution.x.mulEntries linear.diagonal := hpoint
  refine ⟨⟨hlinear.size, hlinear.diagonal, hlinear.sizeGradient, hlinear.gradient,
    hlinear.moving, hlinear.cauchy⟩, ?_, (Vec.size_mulEntries _ _).trans hsize, mu, hmu,
    BlockMatrix.inScaled_solves hmu.le hlinear.size hlinear.diagonal hsize hsolves⟩
  show planeFor { linear with solver, mu := mu', gaussNewton := _ } a = none
  rw [planeFor, hkind]

/-- The linearization for a model whose gradient is not zero. -/
theorem SetUp.exists_linearized (hs : s.SetUp o) (hmin : 0 < o.minDiagonal)
    (hmax : o.minDiagonal ≤ o.maxDiagonal) (ha : a.WellFormed) (hr : r.size = a.numRows)
    (hne : a.toMatrixᵀ *ᵥ r.toFun a.numRows ≠ 0) :
    ∃ linear, s.linearize a r = (.ok (), linear) ∧ linear.Linearized a r ∧
      s.Frame linear ∧ 0 < linear.mu ∧ linear.solver = s.solver := by
  have hbounds : s.minDiagonal ≤ s.maxDiagonal :=
    (hs.minDiagonal.trans_le hmax).trans_eq hs.maxDiagonal.symm
  obtain ⟨linear, hlinear⟩ := exists_linearize hbounds (ha.fitsLeft_iff.mpr hr.ge)
  have hframe := s.frame_linearize a r
  obtain ⟨_, _, _, hkept⟩ := Dogleg.exists_linearized s a r
  rw [hlinear] at hframe hkept
  refine ⟨linear, hlinear,
    linearized_of_linearize (hmin.trans_eq hs.minDiagonal.symm) ha hr hne hlinear, hframe, ?_, ?_⟩
  · exact hs.mu.trans_eq (congrArg Dogleg.mu hkept).symm
  · have hsame := congrArg Dogleg.solver hkept
    exact hsame

/-- A proposal for a linear model whose gradient is not zero, with exact answers. -/
theorem SetUp.descends (hs : s.SetUp o) (hkind : o.dogleg = .traditional)
    (hmin : 0 < o.minDiagonal) (hmax : o.minDiagonal ≤ o.maxDiagonal) (hradius : 0 < s.radius)
    (hfresh : s.reuse = false) (ha : a.WellFormed) (hr : r.size = a.numRows)
    (hne : a.toMatrixᵀ *ᵥ r.toFun a.numRows ≠ 0)
    {p : Outcome LinearError (TrustRegionStep ℝ) × Dogleg ℝ}
    (h : s.Proposes LinearSolver.exactly a r p) : Descends a r s.radius p := by
  obtain ⟨linear, hlinear, hlinearized, hframe, hmu, -⟩ := hs.exists_linearized hmin hmax ha hr hne
  cases h with
  | stored reuse => exact absurd (hfresh.symm.trans reuse) nofun
  | unscaled _ linearized => cases hlinear.symm.trans linearized
  | unsolved _ linearized searched =>
      cases hlinear.symm.trans linearized
      obtain ⟨_, ⟨⟩⟩ := searched.exists_iterations hlinearized.size hlinearized.diagonal hmu
  | @solved _ _ s' iterations linearized searched =>
      cases hlinear.symm.trans linearized
      have hkept : s'.radius = s.radius := (hframe.trans searched.frame).radius
      have hsolved :=
        searched.solved hlinearized ((hframe.kind.trans hs.kind).trans hkind) hmu
      exact hkept ▸ hsolved.finish (hradius.trans_eq hkept.symm) iterations

/-- A strategy whose own linear solver is exact. -/
theorem SetUp.proposes_computeStep (hs : s.SetUp o) (hmin : 0 < o.minDiagonal)
    (hmax : o.minDiagonal ≤ o.maxDiagonal) (hfresh : s.reuse = false) (ha : a.WellFormed)
    (hr : r.size = a.numRows) (hne : a.toMatrixᵀ *ᵥ r.toFun a.numRows ≠ 0)
    (hexact : s.solver.Exact a (-r)) :
    s.Proposes LinearSolver.exactly a r (s.computeStep a r) := by
  obtain ⟨linear, hlinear, hlinearized, -, hmu, hsolver⟩ :=
    hs.exists_linearized hmin hmax ha hr hne
  have hanswer := hexact linear.request
  rw [← hsolver] at hanswer
  obtain ⟨found, hfound, -⟩ := exists_found hlinearized.size hlinearized.diagonal hmu hanswer
  exact proposes_of_found hfresh hlinear hfound (hfound ▸ hanswer) (Vec.isFinite_real _)

/-! ## Steps that are asked for again -/

/-- A strategy that is asked for steps for one linear model: at first as it is, and
then after each step that was rejected. -/
inductive Asked (answers : Answering ℝ) (a : BlockMatrix ℝ) (r : Vec ℝ) (s : Dogleg ℝ) :
    Dogleg ℝ → Prop
  | fresh : Asked answers a r s s
  | rejected {t : Dogleg ℝ} {p : Outcome LinearError (TrustRegionStep ℝ) × Dogleg ℝ}
      (h : Asked answers a r s t) (proposal : t.Proposes answers a r p) :
      Asked answers a r s p.2.rejected

theorem Descends.rejected {radius : ℝ} {p : Outcome LinearError (TrustRegionStep ℝ) × Dogleg ℝ}
    (h : Descends a r radius p) (hradius : 0 < radius) :
    p.2.rejected.Solved a r ∧ 0 < p.2.rejected.radius := by
  have hs := h.solved
  refine ⟨⟨⟨hs.size, hs.diagonal, hs.sizeGradient, hs.gradient, hs.moving, hs.cauchy⟩, hs.plane,
    hs.sizePoint, hs.point⟩, ?_⟩
  show 0 < p.2.radius * 0.5
  rw [h.radius]
  positivity

/-- A proposal from what is stored. -/
theorem Solved.proposal (hs : s.Solved a r) (hradius : 0 < s.radius) (hreuse : s.reuse = true)
    {p : Outcome LinearError (TrustRegionStep ℝ) × Dogleg ℝ} (h : s.Proposes answers a r p) :
    Descends a r s.radius p := by
  cases h with
  | stored _ => exact hs.finish hradius 0
  | unscaled reuse _ => exact absurd (hreuse.symm.trans reuse) nofun
  | unsolved reuse _ _ => exact absurd (hreuse.symm.trans reuse) nofun
  | solved reuse _ _ => exact absurd (hreuse.symm.trans reuse) nofun

/-- After a rejection all steps are taken from what is stored. -/
theorem Asked.cases_of_descends {t : Dogleg ℝ} (h : Asked answers a r s t) (hradius : 0 < s.radius)
    (hfirst : ∀ p, s.Proposes answers a r p → Descends a r s.radius p) :
    t = s ∨ t.Solved a r ∧ t.reuse = true ∧ 0 < t.radius := by
  induction h with
  | fresh => exact .inl rfl
  | rejected _ proposal ih =>
      refine .inr ?_
      rcases ih with rfl | ⟨hsolved, hreuse, hpos⟩
      · obtain ⟨hsolved, hpos⟩ := (hfirst _ proposal).rejected hradius
        exact ⟨hsolved, rfl, hpos⟩
      · obtain ⟨hsolved, hpos⟩ := (hsolved.proposal hpos hreuse proposal).rejected hpos
        exact ⟨hsolved, rfl, hpos⟩

/-- In exact arithmetic and with exact answers of the linear solver, every step that
a traditional dogleg strategy proposes for a linear model whose gradient is not zero
lowers the model: there is a step, the predicted decrease is positive, and the
minimizer tries the step. This holds in every state that a strategy can be in when
it is handed the model, and again after each rejection, when the step is taken from
what is stored. A strategy whose own linear solver is exact proposes such steps. -/
theorem proposals_descend {solver : LinearSolver} {allowed : ℝ → Prop}
    (hkind : o.dogleg = .traditional) (hmin : 0 < o.minDiagonal)
    (hmax : o.minDiagonal ≤ o.maxDiagonal)
    (hs : Strategy.Course answers allowed (.dogleg (new solver o)) (.dogleg s))
    (hradius : 0 < s.radius) (hfresh : s.reuse = false) (ha : a.WellFormed)
    (hr : r.size = a.numRows) (hne : a.toMatrixᵀ *ᵥ r.toFun a.numRows ≠ 0) :
    (∀ t, Asked LinearSolver.exactly a r s t → ∀ p, t.Proposes LinearSolver.exactly a r p →
      ∃ step, p.1 = .ok step ∧ 0 < modelDecrease a r step.step ∧
        ∀ (σ : Type) (m : TrustRegion ℝ σ) (state : TrustRegion.State ℝ),
          state.linear.jacobian = a → state.linear.residuals = r →
            m.TriesWith state (p.1, .dogleg p.2)) ∧
    (s.solver.Exact a (-r) → ∀ t, Asked LinearSolver.exactly a r s t →
      t.Proposes LinearSolver.exactly a r (t.computeStep a r) ∧
        ∀ (σ : Type) (m : TrustRegion ℝ σ) (state : TrustRegion.State ℝ),
          state.strategy = .dogleg t → state.linear.jacobian = a → state.linear.residuals = r →
            m.Tries state) := by
  have hsetUp := setUp_of_course hs
  have hfirst : ∀ p, s.Proposes LinearSolver.exactly a r p → Descends a r s.radius p :=
    fun p hp => hsetUp.descends hkind hmin hmax hradius hfresh ha hr hne hp
  have hall : ∀ t, Asked LinearSolver.exactly a r s t → ∀ p,
      t.Proposes LinearSolver.exactly a r p →
      ∃ step, p.1 = .ok step ∧ 0 < modelDecrease a r step.step ∧
        ∀ (σ : Type) (m : TrustRegion ℝ σ) (state : TrustRegion.State ℝ),
          state.linear.jacobian = a → state.linear.residuals = r →
            m.TriesWith state (p.1, .dogleg p.2) := by
    intro t ht p hp
    have hdescends : Descends a r t.radius p := by
      rcases ht.cases_of_descends hradius hfirst with rfl | ⟨hsolved, hreuse, hpos⟩
      · exact hfirst p hp
      · exact hsolved.proposal hpos hreuse hp
    obtain ⟨step, hstep, hpos⟩ := hdescends.step
    refine ⟨step, hstep, hpos, fun σ m state hjacobian hresiduals => ?_⟩
    subst hjacobian hresiduals
    rw [hstep]
    exact m.triesWith_of_decrease _ ha hr hpos
  refine ⟨hall, fun hexact t ht => ?_⟩
  have hproposes : t.Proposes LinearSolver.exactly a r (t.computeStep a r) := by
    rcases ht.cases_of_descends hradius hfirst with rfl | ⟨-, hreuse, -⟩
    · exact hsetUp.proposes_computeStep hmin hmax hfresh ha hr hne hexact
    · rw [computeStep, if_pos hreuse]
      exact .stored hreuse
  refine ⟨hproposes, fun σ m state hstrategy hjacobian hresiduals => ?_⟩
  obtain ⟨-, -, -, htries⟩ := hall t ht _ hproposes
  refine TrustRegion.TriesWith.tries ?_
  have htried := htries σ m state hjacobian hresiduals
  rw [hstrategy, hjacobian, hresiduals]
  exact htried

/-- A first step and one after a rejection. -/
theorem proposals_descend_oneEquation :
    ∃ solver, LinearSolver.create? { kind := .denseQR } = .ok solver ∧
      let s : Dogleg ℝ := new solver {}
      let r : Vec ℝ := Vec.ofList [3]
      let t := (s.computeStep oneEquation r).2.rejected
      (∃ step, (s.computeStep oneEquation r).1 = .ok step ∧
        0 < modelDecrease oneEquation r step.step) ∧
      ∃ step, (t.computeStep oneEquation r).1 = .ok step ∧
        0 < modelDecrease oneEquation r step.step := by
  refine ⟨_, rfl, ?_⟩
  intro s r t
  have hmin : (0 : ℝ) < s.minDiagonal := by
    show (0 : ℝ) < 1e-6
    norm_num
  have hradius : (0 : ℝ) < s.radius := by
    show (0 : ℝ) < 1e4
    norm_num
  have hexact : s.solver.Exact oneEquation (-r) := by
    refine (LinearSolver.suits_create oneEquation (o := { kind := .denseQR }) rfl).exact nofun
      wellFormed_oneEquation rfl (Vec.size_neg r)
  have hs : Strategy.Course LinearSolver.answering (fun _ => True) (.dogleg s) (.dogleg s) := .start
  obtain ⟨hall, hown⟩ := proposals_descend (r := r) (o := {}) rfl hmin
    ((real_le _ _).mp real_defaultBounds) hs hradius rfl wellFormed_oneEquation rfl
    gradient_oneEquation
  have hfirst := (hown hexact s .fresh).1
  have hask : Asked LinearSolver.exactly oneEquation r s t := .rejected .fresh hfirst
  obtain ⟨step, hstep, hpos, -⟩ := hall s .fresh _ hfirst
  obtain ⟨next, hnext, hpos', -⟩ := hall t hask _ (hown hexact t hask).1
  exact ⟨⟨step, hstep, hpos⟩, next, hnext, hpos'⟩

end Dogleg

end LeastSquares
