import LeastSquares.Proofs.Course
import LeastSquares.Proofs.Descent
import LeastSquares.Proofs.RunCompletion

/-!
# Solves that come to an end

A solve is turned down by what it finds before its minimizer runs, and by
nothing after that. So if the problem can be reduced, a minimizer assembled
and the state read, and if the run of the minimizer does not meet a fault,
then the solve returns without an error and tells what the run came to.

A line search of a single iteration is such a run wherever the first trial
leads to a cost that is low enough.

## Main definitions

* `Evaluator.Determines` — the cost and the gradient at a state.
* `SolveOptions.Prepared` — a solve gets as far as the run of its minimizer.

## Main results

* `LineSearch.succeeds_minimize_once`, `LineSearch.succeeds_minimize_steepest` —
  a run of one iteration that moves.
* `SolveOptions.Prepared.succeeds_solve` — a solve.
-/

namespace LeastSquares

variable {α σ : Type} [Scalar α]

/-! ## A single iteration -/

namespace Evaluator

variable {e : Evaluator α σ} {x gradient : Vec α} {cost : α}

/-- Every evaluation at the state finds this cost, and this gradient if it asks
for Jacobians, whatever users' functions have done before. -/
def Determines (e : Evaluator α σ) (x : Vec α) (cost : α) (gradient : Vec α) : Prop :=
  ∀ wantJacobian t, Succeeds (e.evaluate x wantJacobian) t fun r _ => ∃ ev, r = some ev ∧
    ev.cost = cost ∧ (wantJacobian = true → ev.gradient = some gradient)

theorem Determines.succeeds_measured (h : e.Determines x cost gradient) {wantJacobian : Bool}
    {counts : EvaluationCounts} {w : World α σ} :
    Succeeds (e.measured counts x wantJacobian) w fun r w' => w'.clock = w.clock ∧
      ∃ ev, r.1 = some ev ∧ ev.cost = cost ∧ (wantJacobian = true → ev.gradient = some gradient) := by
  unfold measured
  simp only [succeeds_bind]
  refine Run.succeeds_now (Run.succeeds_ofCalls ((h wantJacobian _).mono ?_))
  rintro _ t ⟨ev, rfl, hev⟩
  exact Run.succeeds_since (succeeds_pure.mpr ⟨rfl, ev, rfl, hev⟩)

end Evaluator

namespace LineSearch

variable {m : LineSearch α σ} {s : State α} {x y gradient gradient' : Vec α}
  {cost cost' length : α} {ray : Ray α} {counts : EvaluationCounts} {w : World α σ}

theorem succeeds_evaluateGradient_of (h : m.evaluator.Determines x cost gradient) :
    Succeeds (m.evaluateGradient counts x) w fun r w' =>
      w'.clock = w.clock ∧ r.1 = some (cost, gradient) := by
  rw [evaluateGradient, succeeds_bind]
  refine h.succeeds_measured.mono ?_
  rintro ⟨_, counts'⟩ w1 ⟨hclock, ⟨_, residuals, _, jacobian⟩, rfl, rfl, hgradient⟩
  obtain rfl := hgradient rfl
  exact succeeds_pure.mpr ⟨hclock, rfl⟩

/-- A search whose first trial is low enough ends there. -/
theorem succeeds_backtrack_of_low {left done : Nat}
    (hplus : m.evaluator.plus x (ray.direction.scale length) = .ok y)
    (hy : m.evaluator.Determines y cost' gradient')
    (hlow : m.low cost ray.slope length (some cost') = true) :
    Succeeds (m.backtrack x cost ray left done length counts) w fun r _ =>
      r.1.move = some (length, y) := by
  unfold backtrack
  rw [succeeds_bind]
  refine Run.succeeds_ofFault hplus ?_
  rw [succeeds_bind]
  refine hy.succeeds_measured.mono ?_
  rintro ⟨_, counts'⟩ w1 ⟨-, ev, rfl, rfl, -⟩
  dsimp only
  split
  · exact succeeds_pure.mpr rfl
  · rename_i hhigh
    exact absurd hlow hhigh

/-- An iteration whose first trial is low enough moves there. -/
theorem succeeds_step_of_low
    (hplus : m.evaluator.plus s.x ((m.ray s).direction.scale (m.firstLength s)) = .ok y)
    (hy : m.evaluator.Determines y cost' gradient')
    (hlow : m.low s.cost (m.ray s).slope (m.firstLength s) (some cost') = true) :
    Succeeds (m.step s) w fun r _ => ∃ s', r = .next s' ∧
      s'.record.iteration = s.record.iteration + 1 ∧ s'.record.cost = cost' ∧
      s'.history.newestFirst = s.history.newestFirst := by
  rw [step, succeeds_bind]
  refine Run.succeeds_now ?_
  dsimp only
  rw [succeeds_bind]
  refine (succeeds_backtrack_of_low hplus hy hlow).mono ?_
  rintro ⟨⟨_, evaluations⟩, counts'⟩ w1 rfl
  dsimp only
  rw [succeeds_bind]
  refine (succeeds_evaluateGradient_of hy).mono ?_
  rintro ⟨_, counts''⟩ w2 ⟨-, rfl⟩
  exact succeeds_pure.mpr ⟨_, rfl, rfl, rfl, rfl⟩

/-- A gradient that is not small does not end a run at its first report. -/
theorem stop?_first (hfirst : s.record.iteration = 0)
    (htime : ¬ m.options.maxTime ≤ secondsScalar 0)
    (hlarge : ¬ s.record.gradientMaxNorm ≤ m.options.gradientTolerance) :
    m.stop? s 0 = none := by
  rw [stop?, if_neg htime, if_neg hlarge, if_neg (by rw [hfirst]; exact Nat.lt_irrefl 0)]

section Reports

variable [ScalarText α]

/-- Without stages nothing ends a run at its reports. -/
theorem succeeds_report_of_callbacks (h : m.callbacks = {}) :
    Succeeds (m.report s) w fun r w' => r.1 = .continue ∧ w'.clock = w.clock ∧
      ∃ iterationTime cumulativeTime, r.2 =
        let record := { s.record with iterationTime, cumulativeTime }
        { s with record, history := s.history.add record } := by
  unfold report
  simp only [succeeds_bind]
  refine Run.succeeds_since (Run.succeeds_since ?_)
  rw [h]
  exact ⟨.continue, _, rfl, succeeds_pure.mpr ⟨rfl, rfl, _, _, rfl⟩⟩

/-- A run of one iteration comes to the limit of iterations, with a report at
either state, if the gradient is not small and the first trial along the ray is low
enough. -/
theorem succeeds_minimize_once (hcallbacks : m.callbacks = {})
    (hlimit : m.options.maxIterations = 1) (hclock : ∀ n, w.clock n = 0)
    (htime : ¬ m.options.maxTime ≤ secondsScalar 0) (hx : m.evaluator.Determines x cost gradient)
    (hlarge : ¬ gradient.maxNorm ≤ m.options.gradientTolerance)
    (hray : (m.chooseRay (.new m.options.maxLbfgsRank) gradient).1 = ray)
    (hlength : m.initialStep none gradient ray.slope = length)
    (hplus : m.evaluator.plus x (ray.direction.scale length) = .ok y)
    (hy : m.evaluator.Determines y cost' gradient')
    (hlow : m.low cost ray.slope length (some cost') = true) :
    Succeeds (m.minimize counts x) w fun r _ =>
      r.reason = .iterationLimit 1 ∧ r.history.records.map IterationRecord.cost = [cost, cost'] := by
  subst hray hlength
  rw [minimize, succeeds_bind]
  refine Run.succeeds_now ?_
  rw [succeeds_bind]
  refine (succeeds_evaluateGradient_of hx).mono ?_
  rintro ⟨_, counts1⟩ w1 ⟨hw1, rfl⟩
  dsimp only
  rw [hlimit, succeeds_bind, iterate, succeeds_bind]
  refine (succeeds_report_of_callbacks hcallbacks).mono ?_
  rintro ⟨_, s1⟩ w2 ⟨rfl, hw2, time, total, rfl⟩
  dsimp only [Decision.reason?]
  rw [succeeds_bind]
  refine Run.succeeds_since ?_
  have helapsed : w2.clock w2.ticks - w.clock w.ticks = 0 := by
    rw [hw2, hw1, Run.tick, hclock, Nat.zero_sub]
  rw [helapsed, m.stop?_first rfl htime hlarge]
  dsimp only
  rw [succeeds_bind]
  refine (succeeds_step_of_low hplus hy hlow).mono ?_
  rintro _ w3 ⟨s2, rfl, hiteration, rfl, hrecords⟩
  dsimp only
  rw [iterate, succeeds_bind]
  refine (succeeds_report_of_callbacks hcallbacks).mono ?_
  rintro ⟨_, s3⟩ w4 ⟨rfl, -, time', total', rfl⟩
  refine succeeds_pure.mpr (succeeds_pure.mpr ⟨?_, ?_⟩)
  · exact congrArg Reason.iterationLimit hiteration
  · simp [History.records, History.add, hrecords]

end Reports

/-- Over the real numbers, for steepest descent. -/
theorem succeeds_minimize_steepest [ScalarText ℝ] {m : LineSearch ℝ σ} {w : World ℝ σ}
    {x y gradient gradient' : Vec ℝ} {cost cost' length : ℝ} {counts : EvaluationCounts}
    (hdirection : m.options.direction = .steepestDescent) (hcallbacks : m.callbacks = {})
    (hlimit : m.options.maxIterations = 1) (hclock : ∀ n, w.clock n = 0)
    (htime : 0 < m.options.maxTime) (hx : m.evaluator.Determines x cost gradient)
    (hlarge : m.options.gradientTolerance < gradient.maxNorm)
    (hlength : min (1 / gradient.maxNorm) 1 = length)
    (hplus : m.evaluator.plus x ((-gradient).scale length) = .ok y)
    (hy : m.evaluator.Determines y cost' gradient')
    (hlow : cost' ≤ cost + m.options.sufficientDecrease * length * -gradient.normSq) :
    Succeeds (m.minimize counts x) w fun r _ =>
      r.reason = .iterationLimit 1 ∧ r.history.records.map IterationRecord.cost = [cost, cost'] := by
  have hray : (m.chooseRay (.new m.options.maxLbfgsRank) gradient).1 = steepest gradient := by
    unfold chooseRay
    rw [hdirection]
    dsimp only
    split
    · rw [steepest, gradient.dot_neg_self]
    · rfl
  refine succeeds_minimize_once hcallbacks hlimit hclock ?_ hx ?_ hray ?_ hplus hy ?_
  · have hzero : (secondsScalar 0 : ℝ) = ((0 : ℕ) : ℝ) + ((0 : ℕ) : ℝ) / 1e9 := rfl
    rw [real_le, not_le, hzero]
    simpa using htime
  · rwa [real_le, not_le]
  · rw [initialStep, real_min, real_one, real_div, hlength]
  · rw [low, Scalar.within]
    exact decide_eq_true ((real_le _ _).mpr hlow)

end LineSearch

/-! ## Solves -/

namespace SolveOptions

open Attempt

variable {o : SolveOptions α} {s : SolveSummary α} {w v : World α σ} {p : Problem α σ}
  {reduced : ReducedProgram α} {g : Program} {x : Vec α} {result : MinimizerSummary α}

/-- The problem takes over a state of its size. -/
theorem completes_writeBack (hn : g.blocks.Nodup)
    (hsize : result.termination.writesBack = true →
      g.numParameters w.problem = .ok result.best.size) :
    Completes (writeBack g result x) s w fun _ s' _ => s' = s := by
  unfold writeBack
  split
  · rename_i hwrites
    obtain ⟨q, hq, -⟩ := Program.scatter_spec hn (hsize hwrites)
    rw [MinimizerSummary.finalState, if_pos hwrites]
    refine Completes.bind (completes_ofRun ⟨_, _, rfl, ?_⟩)
    exact Completes.bind (completes_ofModel hq (completes_ofRun ⟨_, _, rfl, rfl⟩))
  · exact completes_pure.mpr rfl

variable [ScalarText α] {m : Minimizer α σ} {callbacks : List (Callback α σ)} {start : Nat}

/-- A solve gets as far as the run of its minimizer: the problem is there, the
options pass their check, the reduction leaves something to optimize, the log
can be opened, and minimizer and state are ready. -/
structure Prepared (o : SolveOptions α) (w v : World α σ) (reduced : ReducedProgram α)
    (m : Minimizer α σ) (x : Vec α) : Prop where
  full : ∃ size, (Program.ofProblem w.problem).size w.problem = .ok size
  inhabited : ¬ (w.problem.numBlocks = 0 ∨ w.problem.numResidualBlocks = 0)
  valid : o.validate = .ok ()
  created : o.Created w v reduced
  size : ∃ size, reduced.program.size v.problem = .ok size
  remains : reduced.program.blocks.isEmpty = false
  assembled : ∀ s w, Completes (o.assemble v.problem reduced) s w fun minimize s' w' =>
    minimize = m.minimize ∧ s' = s ∧ w' = w
  opens : ∀ path, o.logPath = some path → w.logRefusal path = none
  gathered : reduced.program.gather v.problem = .ok x

/-- A line search is assembled from its evaluator. -/
theorem completes_assemble_lineSearch {e : Evaluator α σ} (hkind : o.minimizerKind = .lineSearch)
    (he : createEvaluator p reduced o.gradientCheck? = .ok e) :
    Completes (o.assemble p reduced) s w fun minimize s' w' =>
      minimize = (Minimizer.lineSearch o.minimizer e).minimize ∧ s' = s ∧ w' = w := by
  unfold assemble
  rw [hkind]
  exact Completes.bind (completes_ofModel he (completes_pure.mpr ⟨rfl, rfl, rfl⟩))

omit [ScalarText α] in
theorem completes_openLog (h : ∀ path, o.logPath = some path → w.logRefusal path = none) :
    Completes (o.openLog : Attempt α σ Unit) s w fun _ s' w' => s' = s ∧
      w'.problem = w.problem ∧ w'.tally = w.tally ∧ w'.clock = w.clock := by
  unfold openLog
  split
  · exact completes_pure.mpr ⟨rfl, rfl, rfl, rfl⟩
  · rename_i path hpath
    refine Completes.bind (completes_ofRun ⟨_, _, rfl, ?_⟩)
    dsimp only
    rw [h path hpath]
    exact completes_ofRun ⟨_, _, rfl, rfl, rfl, rfl, rfl⟩

namespace Prepared

theorem tick (h : o.Prepared w v reduced m x) : o.Prepared (Run.tick w) v reduced m x := { h with }

theorem completes_checkRequest (h : o.Prepared w v reduced m x) :
    Completes (o.checkRequest w.problem (.ofProblem w.problem)) s w fun _ s' w' =>
      s'.error = s.error ∧ w' = w := by
  obtain ⟨size, hsize⟩ := h.full
  unfold checkRequest
  refine Completes.bind (completes_ofModel hsize ?_)
  refine Completes.bind (completes_note ?_)
  rw [if_neg h.inhabited, h.valid]
  exact Completes.bind (completes_pure.mpr (completes_ofExcept rfl ⟨rfl, rfl⟩))

theorem completes_reduce (h : o.Prepared w v reduced m x) :
    Completes (o.reduce w.problem (.ofProblem w.problem)) s w fun r s' w' =>
      r = (reduced, v.problem) ∧ s'.error = s.error ∧
        w' = { w with problem := v.problem, tally := v.tally } := by
  obtain ⟨order, horder, hcreate⟩ := h.created
  obtain ⟨size, hsize⟩ := h.size
  unfold reduce onProblem
  refine Completes.bind (completes_ofModel horder ?_)
  refine Completes.bind (Completes.bind (completes_ofRun (Run.succeeds_onProblem ?_)))
  refine ⟨_, _, hcreate, completes_ofModel rfl ?_⟩
  refine Completes.bind (completes_ofRun ⟨_, _, rfl, ?_⟩)
  refine Completes.bind (completes_ofModel hsize ?_)
  exact Completes.bind (completes_note (completes_pure.mpr ⟨rfl, rfl, rfl⟩))

section Runs

variable (callbacks) (h : o.Prepared w v reduced m x)
  (ho : ∀ order, o.eliminationOrder = some order → order.Reachable)
  {Q : MinimizerSummary α → Prop}
  (hrun : ∀ w', w'.problem = v.problem → w'.tally = v.tally → w'.clock = w.clock →
    Succeeds (m.minimize (o.pipeline reduced.program callbacks) x) w' fun result _ => Q result)

include h ho hrun

/-- Once the minimizer has run, nothing turns the solve down. -/
theorem completes_minimizeReduced {w1 : World α σ}
    (hw1 : w1 = { w with problem := v.problem, tally := v.tally }) :
    Completes (o.minimizeReduced callbacks start v.problem reduced) s w1 fun _ s' _ =>
      s'.error = s.error ∧ ∃ result, Q result ∧ s'.termination = result.termination ∧
        s'.records = result.history.records := by
  have hnodup := h.created.nodup ho
  unfold minimizeReduced
  refine Completes.bind (((h.assembled s w1).and ends_assemble).mono ?_)
  rintro _ s1 _ ⟨⟨rfl, rfl, rfl⟩, -, -, hassembled⟩
  obtain ⟨m', hm', hsame⟩ := hassembled _ rfl
  refine Completes.bind (completes_ofModel h.gathered ?_)
  refine Completes.bind (completes_ofRun (Run.succeeds_since ?_))
  refine Completes.bind (completes_note ?_)
  refine Completes.bind ((completes_openLog ?_).mono ?_)
  · exact hw1 ▸ h.opens
  rintro _ _ w2 ⟨rfl, hw2⟩
  rw [hw1] at hw2
  obtain ⟨hproblem, htally, hclock⟩ : w2.problem = v.problem ∧ w2.tally = v.tally ∧
    w2.clock = w.clock := hw2
  refine Completes.bind (completes_ofRun ⟨_, _, rfl, ?_⟩)
  refine Completes.bind (completes_ofRun (Run.succeeds_now ?_))
  have hvisits : Returns (m.minimize (o.pipeline reduced.program callbacks) x) (Run.tick w2) _ :=
    hsame ▸ m'.returns_visits
  refine Completes.bind (completes_ofRun
    (((hrun (Run.tick w2) hproblem htally hclock).and hvisits).mono ?_))
  rintro result w3 ⟨hresult, trace, hvisits⟩
  have hmin := hvisits.minimized
  have hmoved : w2.problem.Moved reduced.program w3.problem :=
    hmin.moved (hproblem ▸ hm'.evaluator) hnodup pipeline_update
  refine Completes.bind (completes_ofRun (Run.succeeds_since ?_))
  refine Completes.bind (completes_note ?_)
  refine Completes.bind ((completes_writeBack hnodup fun hwrites => ?_).mono ?_)
  · obtain ⟨c, hc⟩ := hmin.best hwrites
    rw [hc.size, ← hm'.evaluator.numParameters, ← hproblem]
    exact hmoved.numParameters
  · rintro _ _ w4 rfl
    refine Completes.bind (completes_ofRun ⟨_, _, rfl, ?_⟩)
    refine Completes.bind (completes_ofRun (Run.succeeds_since (completes_note ?_)))
    exact ⟨tell_error, result, hresult, rfl, rfl⟩

theorem completes_attempt :
    Completes (o.attempt callbacks start w.problem (.ofProblem w.problem)) s w fun _ s' _ =>
      s'.error = s.error ∧ ∃ result, Q result ∧ s'.termination = result.termination ∧
        s'.records = result.history.records := by
  unfold attempt
  refine Completes.bind (h.completes_checkRequest.mono ?_)
  rintro _ s1 _ ⟨hs1, rfl⟩
  refine Completes.bind (h.completes_reduce.mono ?_)
  rintro _ s2 w2 ⟨rfl, hs2, hw2⟩
  dsimp only
  rw [h.remains]
  refine (h.completes_minimizeReduced callbacks ho hrun hw2).mono ?_
  rintro _ s3 _ ⟨hs3, hran⟩
  exact ⟨hs3.trans (hs2.trans hs1), hran⟩

/-- A solve whose minimizer comes to an end returns without an error, and tells
what the run came to. -/
theorem succeeds_solve :
    Succeeds (solve o callbacks) w fun s _ => s.error = none ∧ ∃ result, Q result ∧
      s.termination = result.termination ∧ s.records = result.history.records := by
  rw [solve, succeeds_bind]
  refine Run.succeeds_now ?_
  rw [succeeds_bind]
  refine ⟨_, _, rfl, ?_⟩
  show Succeeds (_ >>= _) _ _
  rw [succeeds_bind]
  refine Succeeds.mono (h.tick.completes_attempt callbacks ho hrun) ?_
  rintro ⟨_, s1⟩ w1 ⟨_, rfl, herror, hran⟩
  dsimp only
  rw [succeeds_bind]
  refine ⟨_, _, rfl, ?_⟩
  show Succeeds (_ >>= _) _ _
  rw [succeeds_bind]
  exact Run.succeeds_since (succeeds_pure.mpr ⟨herror, hran⟩)

end Runs

end Prepared

end SolveOptions

namespace Gallery

/-- Options for a line search of some moves against the gradient. -/
def searching (α : Type) [Scalar α] (moves : Nat) : SolveOptions α where
  minimizerKind := .lineSearch
  direction := .steepestDescent
  linearSolver := .denseQR
  maxIterations := moves
  logging := .silent

theorem validate_searching (moves : Nat) : (searching ℝ moves).validate = .ok () := by
  have hflaw : (searching ℝ moves).flaw? = none := by
    simp [searching, SolveOptions.flaw?, SolveOptions.nonnegative, SolveOptions.isNegative,
      SolveOptions.minimizerFlaw?, SolveOptions.lineSearchFlaw?, SolveOptions.gradientCheckFlaw?]
    norm_num
  rw [SolveOptions.validate, hflaw]

/-- Where the first trial leads low enough, a solve by one move over the real
numbers writes the state back. -/
theorem exists_searched [ScalarText ℝ] {w v : World ℝ σ} {reduced : ReducedProgram ℝ}
    {e : Evaluator ℝ σ} {x y gradient gradient' : Vec ℝ} {cost cost' length : ℝ}
    (h : (searching ℝ 1).Prepared w v reduced (.lineSearch (searching ℝ 1).minimizer e) x)
    (hclock : ∀ n, w.clock n = 0) (hx : e.Determines x cost gradient)
    (hlarge : (1e-10 : ℝ) < gradient.maxNorm) (hlength : min (1 / gradient.maxNorm) 1 = length)
    (hplus : e.plus x ((-gradient).scale length) = .ok y) (hy : e.Determines y cost' gradient')
    (hlow : cost' ≤ cost + (1e-4 : ℝ) * length * -gradient.normSq) :
    ∃ s w', solve (searching ℝ 1) [] w = .ok s w' ∧ s.error = none ∧
      s.termination.writesBack = true ∧ s.records.map IterationRecord.cost = [cost, cost'] := by
  have htime : (0 : ℝ) < 1e9 := by norm_num
  obtain ⟨s, w', hsolve, herror, result, ⟨hreason, hcosts⟩, hstop, hrecords⟩ :=
    h.succeeds_solve [] (fun _ horder => by cases horder) fun w1 _ _ hsame =>
      LineSearch.succeeds_minimize_steepest rfl rfl rfl (fun n => by rw [hsame, hclock]) htime hx
        hlarge hlength hplus hy hlow
  refine ⟨s, w', hsolve, herror, ?_, hrecords ▸ hcosts⟩
  rw [hstop, MinimizerSummary.termination, hreason]
  rfl

end Gallery

end LeastSquares
