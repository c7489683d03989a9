import LeastSquares.Proofs.DenseForm
import LeastSquares.Proofs.LinearSolvers
import LeastSquares.Proofs.Proposals

/-!
# Levenberg-Marquardt steps over the real numbers

The regularizer of a Levenberg-Marquardt step has no zeros, so the damped normal
equations have a positive definite matrix, and every linear solver returns a
vector that lowers their model as long as the gradient is not zero. The damping
only adds to that model, so the linear model without it is lowered as well: the
decrease that the minimizer predicts is positive, and it tries the step.

Scaling the columns of the Jacobian scales the entries of the gradient, so it
does not matter whether the gradient is that of the scaled problem.

## Main results

* `LevenbergMarquardt.computeStep_spec` — the step and the decrease.
* `TrustRegion.triesWith_of_decrease` — the minimizer tries a step that predicts a
  decrease.
* `LevenbergMarquardt.computeStep_descends` — steps of all solvers are usable.
-/

namespace LeastSquares

open Matrix
open Finset (range)

/-! ## Scaled columns -/

namespace BlockMatrix

variable {a : BlockMatrix ℝ} {c v : Vec ℝ} {row : BlockRow ℝ} {b : Block} {k i t : Nat}

/-- Scaling columns leaves the structure alone. -/
theorem shape_scaleColumns (a : BlockMatrix ℝ) (c : Vec ℝ) :
    (a.scaleColumns c).shape = a.shape := by
  rw [shape, shape, scaleColumns, mapCells, List.map_map]
  refine congrArg (Prod.mk a.columns) (List.map_congr_left fun row _ => ?_)
  rw [Function.comp_apply, List.map_map]
  rfl

/-- Scaling columns scales the entries of the gradient. -/
theorem WellFormed.get_leftMultiply_scaleColumns (ha : a.WellFormed) (c v : Vec ℝ) {q : Nat}
    (hq : q < a.numCols) :
    ((a.scaleColumns c).leftMultiply v).get q = (a.leftMultiply v).get q * c.get q := by
  obtain ⟨k, b, hb, i, hi, rfl⟩ := ha.exists_column hq
  rw [(ha.scaleColumns c).get_leftMultiply hb hi, ha.get_leftMultiply hb hi, moment, moment,
    rows_scaleColumns, List.map_map, ← List.sum_map_mul_right]
  refine congrArg List.sum (List.map_congr_left fun row hrow => ?_)
  rw [Function.comp_apply, Finset.sum_mul]
  refine Finset.sum_congr rfl fun t ht => ?_
  rw [ha.entry_scaledRow hrow hb (Finset.mem_range.mp ht) hi]
  exact mul_right_comm _ _ _

/-- A gradient that is not zero stays so if no column is scaled by zero. -/
theorem WellFormed.gradient_scaleColumns (ha : a.WellFormed)
    (hc : ∀ q < a.numCols, c.get q ≠ 0) (h : (a.leftMultiply v).toFun a.numCols ≠ 0) :
    ((a.scaleColumns c).leftMultiply v).toFun (a.scaleColumns c).numCols ≠ 0 := by
  intro hzero
  refine h (funext fun q => ?_)
  have hget : ((a.scaleColumns c).leftMultiply v).get q = 0 := congrFun hzero q
  rw [ha.get_leftMultiply_scaleColumns c v q.isLt] at hget
  exact (mul_eq_zero.mp hget).resolve_right (hc q q.isLt)

end BlockMatrix

/-! ## The linear model -/

/-- The decrease of the linear model by a step. -/
noncomputable def modelDecrease (a : BlockMatrix ℝ) (r x : Vec ℝ) : ℝ :=
  -(r.toFun a.numRows ⬝ᵥ a.toMatrix *ᵥ x.toFun a.numCols +
    0.5 * (a.toMatrix *ᵥ x.toFun a.numCols ⬝ᵥ a.toMatrix *ᵥ x.toFun a.numCols))

/-- What lowers the damped model lowers the linear model, and even more. -/
theorem modelDecrease_pos {a : BlockMatrix ℝ} {r d x : Vec ℝ} (hd : d.size = a.numCols)
    (h : quadratic (normalSystem a (d.mulEntries d)) (a.toMatrixᵀ *ᵥ (-r).toFun a.numRows)
      (x.toFun a.numCols) < 0) : 0 < modelDecrease a r x := by
  have hgain : (a.toMatrixᵀ *ᵥ (-r).toFun a.numRows) ⬝ᵥ x.toFun a.numCols =
      -(r.toFun a.numRows ⬝ᵥ a.toMatrix *ᵥ x.toFun a.numCols) := by
    rw [Vec.toFun_neg, mulVec_neg, neg_dotProduct, mulVec_transpose, ← dotProduct_mulVec]
  have himage : x.toFun a.numCols ⬝ᵥ (a.toMatrixᵀ * a.toMatrix) *ᵥ x.toFun a.numCols =
      a.toMatrix *ᵥ x.toFun a.numCols ⬝ᵥ a.toMatrix *ᵥ x.toFun a.numCols := by
    rw [← mulVec_mulVec, dotProduct_mulVec, vecMul_transpose]
  have hdamping : 0 ≤ x.toFun a.numCols ⬝ᵥ
      diagonal ((d.mulEntries d).toFun a.numCols) *ᵥ x.toFun a.numCols := by
    have hdiagonal : (diagonal ((d.mulEntries d).toFun a.numCols)).PosSemidef :=
      posSemidef_diagonal_iff.mpr fun i => by
        rw [Vec.toFun_apply, Vec.get_mulEntries (i.isLt.trans_eq hd.symm)]
        exact mul_self_nonneg _
    exact hdiagonal.dotProduct_mulVec_nonneg _
  rw [quadratic, hgain, normalSystem, add_mulVec, dotProduct_add, himage] at h
  rw [modelDecrease]
  linarith

/-! ## The step -/

namespace LevenbergMarquardt

variable {o : LinearSolverOptions} {s : LevenbergMarquardt ℝ} {a : BlockMatrix ℝ} {r : Vec ℝ}

/-- The regularizer of a step. -/
def regularizer {α : Type} [Scalar α] (s : LevenbergMarquardt α) (a : BlockMatrix α) : Vec α :=
  (a.squaredColumnNorms.map (Scalar.clamp s.minDiagonal s.maxDiagonal)).map fun v =>
    Scalar.sqrt (v / s.radius)

theorem size_regularizer (s : LevenbergMarquardt ℝ) (a : BlockMatrix ℝ) :
    (s.regularizer a).size = a.numCols := by
  rw [regularizer, Vec.size_map, Vec.size_map, BlockMatrix.size_squaredColumnNorms]

theorem regularizer_pos (hradius : 0 < s.radius) (hmin : 0 < s.minDiagonal)
    (hmax : s.minDiagonal ≤ s.maxDiagonal) {i : Nat} (hi : i < a.numCols) :
    0 < (s.regularizer a).get i := by
  have hsize := a.size_squaredColumnNorms
  rw [regularizer, Vec.get_map _ (by rwa [Vec.size_map, hsize]), Vec.get_map _ (by rwa [hsize])]
  exact Real.sqrt_pos.mpr (div_pos (hmin.trans_le (clamp_mem _ hmax).1) hradius)

/-- What a strategy of a structure is set up with. -/
structure Ready (s : LevenbergMarquardt ℝ) (o : LinearSolverOptions) (a : BlockMatrix ℝ) :
    Prop where
  solver : s.solver.Prepared o a
  radius : 0 < s.radius
  min : 0 < s.minDiagonal
  max : s.minDiagonal ≤ s.maxDiagonal

theorem Ready.congr {a' : BlockMatrix ℝ} (hs : s.Ready o a) (h : a'.shape = a.shape) :
    s.Ready o a' := ⟨hs.solver.congr h, hs.radius, hs.min, hs.max⟩

/-- What a step is made of: the clamping never fails if the bounds are ordered,
and every number is finite. -/
theorem computeStep_eq (hmax : s.minDiagonal ≤ s.maxDiagonal) {found : LinearSolution ℝ}
    (h : (s.solver.solve a (-r) ⟨some (s.regularizer a), s.eta⟩).1 = .ok found) :
    s.computeStep a r = (.ok ⟨found.x, found.iterations⟩,
      { s with solver := (s.solver.solve a (-r) ⟨some (s.regularizer a), s.eta⟩).2 }) := by
  have hclamp : a.squaredColumnNorms.clampEntries s.minDiagonal s.maxDiagonal =
      .ok (a.squaredColumnNorms.map (Scalar.clamp s.minDiagonal s.maxDiagonal)) := by
    rw [Vec.clampEntries, if_pos]
    simp [hmax]
  unfold computeStep
  rw [hclamp]
  dsimp only
  rw [← regularizer]
  generalize s.solver.solve a (-r) ⟨some (s.regularizer a), s.eta⟩ = answer at h ⊢
  obtain ⟨result, solver⟩ := answer
  subst h
  exact if_pos (Vec.isFinite_real _)

/-- A strategy that is set up for the structure of a Jacobian finds a step. If the
gradient is not zero, the linear model is lower there. -/
theorem computeStep_spec (hs : s.Ready o a) (helim : LinearSolver.Eliminates o a)
    (ha : a.WellFormed) (hr : r.size = a.numRows) :
    ∃ step s', s.computeStep a r = (.ok step, s') ∧ s'.Ready o a ∧ step.step.size = a.numCols ∧
      (a.toMatrixᵀ *ᵥ r.toFun a.numRows ≠ 0 → 0 < modelDecrease a r step.step) := by
  have hsize := s.size_regularizer a
  have hd : regularizerSquared (some (s.regularizer a)) a.numCols =
      .ok ((s.regularizer a).mulEntries (s.regularizer a)) := regularizerSquared_some hsize
  have hpos : (normalSystem a ((s.regularizer a).mulEntries (s.regularizer a))).PosDef := by
    obtain ⟨d2, hd2, -, hsquare⟩ := regularizerSquared_spec (d := some (s.regularizer a))
      fun u hu => Option.some.inj hu ▸ hsize
    obtain rfl := Except.ok.inj (hd.symm.trans hd2)
    rw [normalSystem, hsquare]
    exact posDef_regularized fun i hi => (regularizer_pos hs.radius hs.min hs.max hi).ne'
  obtain ⟨found, hfound, hx, hlow⟩ := hs.solver.suits.solve_spec helim ha
    ⟨some (s.regularizer a), s.eta⟩ ((Vec.size_neg r).trans hr) hd hpos
  refine ⟨_, _, computeStep_eq hs.max hfound, ⟨?_, hs.radius, hs.min, hs.max⟩, hx, fun hne => ?_⟩
  · exact hs.solver.solve rfl _ _
  · refine modelDecrease_pos hsize (hlow ?_)
    rwa [Vec.toFun_neg, mulVec_neg, neg_ne_zero]

end LevenbergMarquardt

/-! ## The minimizer -/

namespace TrustRegion

variable {σ : Type} {s : State ℝ} {a : BlockMatrix ℝ} {r : Vec ℝ}

/-- The decrease that the minimizer predicts is that of the linear model. -/
theorem predictedDecrease?_eq {linear : Linearization ℝ} (ha : linear.jacobian.WellFormed)
    (hr : linear.residuals.size = linear.jacobian.numRows) {x : Vec ℝ}
    (hpos : 0 < modelDecrease linear.jacobian linear.residuals x) :
    predictedDecrease? linear x = some (modelDecrease linear.jacobian linear.residuals x) := by
  have hvalue : -(linear.residuals.dot (linear.jacobian.rightMultiply x) +
      0.5 * (linear.jacobian.rightMultiply x).normSq) =
        modelDecrease linear.jacobian linear.residuals x := by
    rw [Vec.normSq, Vec.dot_eq_dotProduct hr, Vec.dot_eq_dotProduct (ha.size_rightMultiply x),
      ha.toFun_rightMultiply, modelDecrease]
  refine (if_pos ?_).trans (congrArg some hvalue)
  rw [real_isFinite, Bool.true_and, decide_eq_true_iff, real_lt, real_zero]
  exact hpos.trans_eq hvalue.symm

/-- The linear model of a state is that of a Jacobian whose columns have been
scaled, and the gradient is still that of the Jacobian. -/
structure State.Scales (s : State ℝ) (a : BlockMatrix ℝ) (r : Vec ℝ) : Prop where
  jacobian : s.linear.jacobian = a.scaleColumns s.scale
  residuals : s.linear.residuals = r
  gradient : s.linear.gradient = a.leftMultiply r
  scale : ∀ q < a.numCols, s.scale.get q ≠ 0

/-- The iteration that begins at a state tries the step of its strategy: it has
predicted a decrease and does not count the step as invalid. -/
def Tries (m : TrustRegion ℝ σ) (s : State ℝ) : Prop :=
  ∃ (step : TrustRegionStep ℝ) (strategy : Strategy ℝ) (decrease : ℝ), 0 < decrease ∧
    m.step s = do
      let opened := begin s (← Run.now)
      let start ← Run.now
      let time ← Run.since start
      m.attempt
        { opened with
          strategy
          history := { opened.history with
            linearSolverTime := opened.history.linearSolverTime + time }
          record := { opened.record with linearIterations := step.iterations } }
        (step.step.mulEntries s.scale) decrease

/-- The iteration with a proposal tries its step: it has predicted a decrease and
does not count the step as invalid. -/
def TriesWith (m : TrustRegion ℝ σ) (s : State ℝ)
    (p : Outcome LinearError (TrustRegionStep ℝ) × Strategy ℝ) : Prop :=
  ∃ (step : TrustRegionStep ℝ) (decrease : ℝ), p.1 = .ok step ∧ 0 < decrease ∧
    m.stepWith s p = do
      let opened := begin s (← Run.now)
      let start ← Run.now
      let time ← Run.since start
      m.attempt
        { opened with
          strategy := p.2
          history := { opened.history with
            linearSolverTime := opened.history.linearSolverTime + time }
          record := { opened.record with linearIterations := step.iterations } }
        (step.step.mulEntries s.scale) decrease

/-- The minimizer tries a step that predicts a decrease. -/
theorem triesWith_of_decrease (m : TrustRegion ℝ σ) {step : TrustRegionStep ℝ}
    (strategy : Strategy ℝ) (ha : s.linear.jacobian.WellFormed)
    (hr : s.linear.residuals.size = s.linear.jacobian.numRows)
    (hpos : 0 < modelDecrease s.linear.jacobian s.linear.residuals step.step) :
    m.TriesWith s (.ok step, strategy) := by
  refine ⟨step, _, rfl, hpos, ?_⟩
  unfold stepWith
  simp only [begin, pursue, predictedDecrease?_eq ha hr hpos]

theorem TriesWith.tries {m : TrustRegion ℝ σ}
    (h : m.TriesWith s (s.strategy.computeStep s.linear.jacobian s.linear.residuals)) :
    m.Tries s := by
  obtain ⟨step, decrease, -, hpos, htried⟩ := h
  exact ⟨step, _, decrease, hpos, (m.step_eq_stepWith s).trans htried⟩

/-- Away from a stationary point a Levenberg-Marquardt step is tried. -/
theorem tries_of_ready (m : TrustRegion ℝ σ) {o : LinearSolverOptions}
    {lm : LevenbergMarquardt ℝ} (hstrategy : s.strategy = .levenbergMarquardt lm)
    (hlm : lm.Ready o a) (helim : LinearSolver.Eliminates o a) (ha : a.WellFormed)
    (hr : r.size = a.numRows) (hs : s.Scales a r)
    (hgradient : s.linear.gradient.toFun a.numCols ≠ 0) : m.Tries s := by
  have hshape := a.shape_scaleColumns s.scale
  have hscaled := ha.scaleColumns s.scale
  have hrows : r.size = (a.scaleColumns s.scale).numRows :=
    hr.trans (BlockMatrix.numRows_congr hshape).symm
  obtain ⟨step, lm', hstep, -, -, hpos⟩ := LevenbergMarquardt.computeStep_spec
    (hlm.congr hshape) (helim.congr hshape) hscaled hrows
  rw [hs.gradient] at hgradient
  have hne := ha.gradient_scaleColumns hs.scale hgradient
  rw [hscaled.toFun_leftMultiply] at hne
  have hdecrease := hpos hne
  rw [← hs.jacobian, ← hs.residuals] at hstep hdecrease
  refine TriesWith.tries ?_
  rw [hstrategy, Strategy.computeStep, hstep]
  exact m.triesWith_of_decrease _ (hs.jacobian ▸ hscaled)
    (by rw [hs.jacobian, hs.residuals, hrows]) hdecrease

end TrustRegion

/-! ## All solvers -/

/-- The one equation has a gradient that is not zero. -/
theorem gradient_oneEquation : oneEquation.toMatrixᵀ *ᵥ
    (Vec.ofList [3] : Vec ℝ).toFun oneEquation.numRows ≠ 0 := by
  intro hzero
  have hmoment := wellFormed_oneEquation.get_leftMultiply (y := Vec.ofList [3]) (k := 0) (j := 0)
    rfl one_pos
  rw [← wellFormed_oneEquation.toFun_leftMultiply] at hzero
  have hget : (oneEquation.leftMultiply (Vec.ofList [3])).get 0 = 0 :=
    congrFun hzero ⟨0, Nat.two_pos⟩
  refine (three_ne_zero : (3 : ℝ) ≠ 0) ?_
  refine Eq.trans ?_ (hmoment.symm.trans hget)
  simp [BlockMatrix.moment, oneEquation, BlockRow.entry, BlockRow.cell?, Mat.get, Mat.ofRows,
    Vec.get, Vec.ofList]

namespace LevenbergMarquardt

variable {o : LinearSolverOptions} {s : LevenbergMarquardt ℝ} {a : BlockMatrix ℝ} {r : Vec ℝ}

/-- The steps of all linear solvers are usable, also those of an iteration that
stops early. A step is found for every Jacobian of the structure and all
residuals. Where the gradient is not zero the linear model is lower at the step,
so an iteration of the minimizer, which scales the columns of its Jacobian,
tries it. -/
theorem computeStep_descends (hs : s.Ready o a) (helim : LinearSolver.Eliminates o a)
    (ha : a.WellFormed) (hr : r.size = a.numRows) :
    (∃ step s', s.computeStep a r = (.ok step, s') ∧ s'.Ready o a ∧
      step.step.size = a.numCols ∧
        (a.toMatrixᵀ *ᵥ r.toFun a.numRows ≠ 0 → 0 < modelDecrease a r step.step)) ∧
    ∀ (σ : Type) (m : TrustRegion ℝ σ) (state : TrustRegion.State ℝ),
      state.strategy = .levenbergMarquardt s → state.Scales a r →
        state.linear.gradient.toFun a.numCols ≠ 0 → m.Tries state :=
  ⟨computeStep_spec hs helim ha hr, fun _ m _ hstrategy hstate hgradient =>
    m.tries_of_ready hstrategy hs helim ha hr hstate hgradient⟩

theorem computeStep_descends_oneEquation :
    ∃ solver, LinearSolver.create? { kind := .iterativeSchur, eliminationGroups := [1, 1] } =
      .ok solver ∧
        let s : LevenbergMarquardt ℝ := ⟨solver, 1, 1, 1, 1, 2, 1 / 10⟩
        let r : Vec ℝ := Vec.ofList [3]
        ∃ step s', s.computeStep oneEquation r = (.ok step, s') ∧
          0 < modelDecrease oneEquation r step.step := by
  refine ⟨_, rfl, ?_⟩
  intro s r
  have hs : s.Ready { kind := .iterativeSchur, eliminationGroups := [1, 1] } oneEquation :=
    ⟨.create rfl, one_pos, one_pos, le_refl 1⟩
  have helim : LinearSolver.Eliminates { kind := .iterativeSchur, eliminationGroups := [1, 1] }
      oneEquation := by
    refine fun _ => ⟨Nat.le_succ 1, fun row _ c _ c' _ hc hc' => ?_⟩
    have hc : c.column < 1 := hc
    have hc' : c'.column < 1 := hc'
    omega
  obtain ⟨⟨step, s', hstep, -, -, hpos⟩, -⟩ :=
    computeStep_descends (r := r) hs helim wellFormed_oneEquation rfl
  exact ⟨step, s', hstep, hpos gradient_oneEquation⟩

end LevenbergMarquardt

end LeastSquares
