import LeastSquares.Proofs.Blocks
import LeastSquares.Proofs.Completion
import LeastSquares.Proofs.CoordinateDescent
import LeastSquares.Proofs.Factorizations
import LeastSquares.Proofs.LineSearch
import LeastSquares.Proofs.Objective
import LeastSquares.Proofs.TwoLoops

/-!
# Runs that cannot break

A trust region run that solves its linear systems by reflections always comes
to an end: its evaluations cannot break, the linear solver answers with a step
of the right length or says in words why it has none, and such a step can be
taken from every state of the run. Callbacks cannot break either. So a sweep
of coordinate descent, which is made of such runs, always leads somewhere. A
line search run has no linear systems to solve, and comes to an end as well.

## Main definitions

* `Strategy.Reflects` — Levenberg-Marquardt steps by reflections.
* `TrustRegion.Robust` — a run is set up with nothing that can break.

## Main results

* `Strategy.Reflects.computeStep` — steps that fit.
* `TrustRegion.Robust.succeeds_minimize`, `LineSearch.succeeds_minimize` — a
  run.
* `CoordinateDescent.succeeds_sweep` — a sweep.
-/

namespace LeastSquares

variable {α σ : Type} [Scalar α]

/-! ## Steps by reflections -/

private theorem size_of_solved {stacked : Mat α} {rhs x : Vec α}
    (h : (match leastSquares? stacked rhs with
      | none => throw LinearError.singular
      | some x => if x.isFinite then pure x else throw LinearError.singular :
        Except LinearError (Vec α)) = .ok x) :
    x.size = stacked.cols := by
  split at h
  · cases h
  · rename_i y hy
    exact eq_of_ite_ok h ▸ Factorizations.lawful_provided.size_leastSquares hy

/-- A solution by reflections has an entry for every column. -/
theorem size_denseReflections? {a : BlockMatrix α} {b x : Vec α} {d : Option (Vec α)}
    (h : denseReflections? a b d = .ok x) : x.size = a.numCols := by
  unfold denseReflections? at h
  dsimp only at h
  split at h
  · cases h
  · -- with and without a regularizer the stacked matrix has the columns of the matrix
    cases d with
    | none =>
        dsimp only at h
        rw [pure_bind] at h
        split at h
        · cases h
        · exact size_of_solved h
    | some d =>
        dsimp only at h
        split at h
        · cases h
        · rw [pure_bind] at h
          split at h
          · cases h
          · exact size_of_solved h

/-! ## Levenberg-Marquardt steps -/

namespace Strategy

variable {strategy : Strategy α}

/-- Levenberg-Marquardt steps whose systems are solved by reflections. -/
def Reflects : Strategy α → Prop
  | levenbergMarquardt s => s.solver.kind = .denseQR ∧ s.minDiagonal ≤ s.maxDiagonal
  | dogleg _ => False

theorem Reflects.accepted (h : strategy.Reflects) (quality : α) :
    (strategy.accepted quality).Reflects := by
  cases strategy with
  | levenbergMarquardt s => exact h
  | dogleg s => exact h

theorem Reflects.rejected (h : strategy.Reflects) : strategy.rejected.Reflects := by
  cases strategy with
  | levenbergMarquardt s => exact h
  | dogleg s => exact h

theorem Reflects.invalid (h : strategy.Reflects) : strategy.invalid.Reflects := by
  cases strategy with
  | levenbergMarquardt s => exact h
  | dogleg s => exact h

/-- What a strategy answers: a step with an entry for every column, or a reason
in words. -/
def Fits (jacobian : BlockMatrix α) : Outcome LinearError (TrustRegionStep α) → Prop
  | .ok step => step.step.size = jacobian.numCols
  | .error (.error _) => True
  | .error (.fault _) => False

theorem Reflects.computeStep (h : strategy.Reflects) (jacobian : BlockMatrix α)
    (residuals : Vec α) : Fits jacobian (strategy.computeStep jacobian residuals).1 ∧
      (strategy.computeStep jacobian residuals).2.Reflects := by
  cases strategy with
  | dogleg s => exact h.elim
  | levenbergMarquardt s =>
      obtain ⟨hkind, hbounds⟩ := h
      have hclamp : jacobian.squaredColumnNorms.clampEntries s.minDiagonal s.maxDiagonal =
          .ok (jacobian.squaredColumnNorms.map (Scalar.clamp s.minDiagonal s.maxDiagonal)) := by
        rw [Vec.clampEntries, if_pos]
        simp [hbounds]
      unfold Strategy.computeStep LevenbergMarquardt.computeStep LinearSolver.solve
      simp only [hclamp, hkind]
      generalize hsolved : denseReflections? jacobian (-residuals) _ = solved
      cases solved with
      | error e => exact ⟨trivial, hkind, hbounds⟩
      | ok x =>
          dsimp only [Outcome.ofExcept, Except.map, LinearSolver.direct]
          split
          · exact ⟨size_denseReflections? hsolved, hkind, hbounds⟩
          · exact ⟨trivial, hkind, hbounds⟩

end Strategy

/-- A Jacobian has a column for every degree of freedom. -/
theorem Evaluator.WellFormed.numCols_eq {e : Evaluator α σ} (he : e.WellFormed)
    {jacobian : BlockMatrix α} (h : jacobian.columns = e.template.columns) :
    jacobian.numCols = e.numEffectiveParameters := by
  rw [BlockMatrix.numCols, h, he.template]
  exact congrArg total (map_size_layout _)

/-! ## Callbacks -/

section Callbacks

variable [ScalarText α] {record : IterationRecord α} {x : Vec α} {w : World α σ}

theorem Stage.succeeds_run (stage : Stage α σ) :
    Succeeds (stage.run record x) w fun _ _ => True := by
  cases stage with
  | updateState g =>
      unfold Stage.run Succeeds
      dsimp only
      split
      · split <;> exact ⟨_, _, rfl, trivial⟩
      · exact ⟨_, _, rfl, trivial⟩
  | showProgress kind => exact succeeds_pure.mpr trivial
  | writeLog kind => exact ⟨_, _, rfl, trivial⟩
  | user callback => exact ⟨_, _, rfl, trivial⟩

theorem Stage.succeeds_runAll (stages : List (Stage α σ)) :
    Succeeds (Stage.runAll record x stages) w fun _ _ => True := by
  induction stages generalizing w with
  | nil => exact succeeds_pure.mpr trivial
  | cons stage stages ih =>
      rw [Stage.runAll, succeeds_bind]
      refine stage.succeeds_run.mono fun d w1 _ => ?_
      split
      · exact ih
      · exact succeeds_pure.mpr trivial

end Callbacks

/-! ## Runs -/

/-- A run that has stopped does not go on. -/
theorem Progress.forall_next_of_stop {β γ : Type} (result : β) (P : γ → Prop) :
    ∀ s, (.stop result : Progress β γ) = .next s → P s := nofun

namespace TrustRegion

/-- A run is set up with nothing that can break. -/
structure Robust (m : TrustRegion α σ) : Prop where
  evaluator : m.evaluator.Robust
  inner : ∀ sweep, m.inner = some sweep → ∀ x w, x.size = m.evaluator.numParameters →
    Succeeds (sweep x) w fun r _ => r.2.size = x.size

/-- From such a state the run cannot break. -/
structure Ready (m : TrustRegion α σ) (s : State α) : Prop where
  size : s.x.size = m.evaluator.numParameters
  columns : s.linear.jacobian.columns = m.evaluator.template.columns
  strategy : s.strategy.Reflects

variable {m : TrustRegion α σ} {s : State α} {w : World α σ} {x : Vec α} {trial : Trial α}

theorem Robust.succeeds_linearize (hm : m.Robust) {counts : EvaluationCounts}
    {scale : Option (Vec α)} : Succeeds (m.linearize counts x scale) w fun r _ =>
      ∀ linear, r.1 = some linear → linear.jacobian.columns = m.evaluator.template.columns := by
  rw [linearize, succeeds_bind]
  refine hm.evaluator.succeeds_measured.mono ?_
  rintro ⟨_ | ev, counts'⟩ w1 ⟨hlaid, hmeasures⟩
  · refine succeeds_pure.mpr fun linear hlinear => ?_
    cases hlinear
  · obtain ⟨gradient, jacobian, hev⟩ := hmeasures.full rfl ev rfl
    rw [hev] at hlaid ⊢
    refine succeeds_pure.mpr fun linear hlinear => ?_
    cases hlinear
    have hjacobian := (hlaid _ rfl).jacobian jacobian rfl
    cases scale <;> exact hjacobian

theorem Robust.succeeds_accept (hm : m.Robust) (hs : m.Ready s)
    (htrial : trial.x.size = m.evaluator.numParameters) {costChange quality : α} :
    Succeeds (m.accept s trial costChange quality) w fun r _ =>
      ∀ s', r = .next s' → m.Ready s' := by
  rw [accept, succeeds_bind]
  refine hm.succeeds_linearize.mono ?_
  rintro ⟨_ | linear, counts⟩ w1 hcolumns
  · exact succeeds_pure.mpr (Progress.forall_next_of_stop _ _)
  · refine succeeds_pure.mpr fun s' hs' => ?_
    cases hs'
    exact ⟨htrial, hcolumns linear rfl, hs.strategy.accepted quality⟩

theorem Robust.succeeds_judge (hm : m.Robust) (hs : m.Ready s)
    (htrial : trial.x.size = m.evaluator.numParameters) :
    Succeeds (m.judge s trial) w fun r _ => ∀ s', r = .next s' → m.Ready s' := by
  unfold judge
  dsimp only
  split
  · exact succeeds_pure.mpr (Progress.forall_next_of_stop _ _)
  · split
    · exact succeeds_pure.mpr (Progress.forall_next_of_stop _ _)
    · split
      · refine hm.succeeds_accept ?_ htrial
        exact ⟨hs.size, hs.columns, hs.strategy⟩
      · refine succeeds_pure.mpr fun s' hs' => ?_
        cases hs'
        exact ⟨hs.size, hs.columns, hs.strategy.rejected⟩

theorem Robust.succeeds_improve (hm : m.Robust) (hs : m.Ready s)
    (htrial : trial.x.size = m.evaluator.numParameters) :
    Succeeds (m.improve s trial) w fun r _ =>
      r.1.x.size = m.evaluator.numParameters ∧ m.Ready r.2 := by
  unfold improve
  split
  · rename_i sweep cost hsweep _ _
    simp only [succeeds_bind]
    refine Run.succeeds_now ((hm.inner sweep hsweep trial.x _ htrial).mono ?_)
    rintro ⟨updated, y⟩ w1 hy
    refine hm.evaluator.succeeds_measured.mono ?_
    rintro ⟨evaluation, counts⟩ w2 -
    refine Run.succeeds_since (succeeds_pure.mpr ⟨?_, hs.size, hs.columns, hs.strategy⟩)
    dsimp only
    split
    · split
      · exact hy.trans htrial
      · exact htrial
    · exact htrial
  · exact succeeds_pure.mpr ⟨htrial, hs⟩

theorem Robust.succeeds_attempt (hm : m.Robust) (hs : m.Ready s) {delta : Vec α} {decrease : α}
    (hdelta : delta.size = m.evaluator.numEffectiveParameters) :
    Succeeds (m.attempt s delta decrease) w fun r _ => ∀ s', r = .next s' → m.Ready s' := by
  unfold attempt
  dsimp only
  rw [succeeds_bind]
  refine Run.succeeds_since ?_
  split
  · exact succeeds_pure.mpr (Progress.forall_next_of_stop _ _)
  · obtain ⟨y, hy⟩ := hm.evaluator.wellFormed.exists_plus hs.size hdelta
    have hsize : y.size = m.evaluator.numParameters :=
      (hm.evaluator.wellFormed.plus_spec hm.evaluator.placed hy).1.trans hs.size
    rw [succeeds_bind]
    refine Run.succeeds_ofFault hy ?_
    rw [succeeds_bind]
    refine hm.evaluator.succeeds_measured.mono ?_
    rintro ⟨evaluation, counts⟩ w1 -
    rw [succeeds_bind]
    have htrial : (⟨y, evaluation.map Evaluation.cost, decrease⟩ : Trial α).x.size =
        m.evaluator.numParameters := hsize
    refine (hm.succeeds_improve ?_ htrial).mono ?_
    · exact ⟨hs.size, hs.columns, hs.strategy⟩
    · rintro ⟨trial, s1⟩ w2 ⟨htrial, hs1⟩
      exact hm.succeeds_judge hs1 htrial

theorem Ready.discard (hs : m.Ready s) : ∀ s', m.discard s = .next s' → m.Ready s' := by
  intro s' hs'
  unfold TrustRegion.discard at hs'
  dsimp only at hs'
  split at hs'
  · cases hs'
  · cases hs'
    exact ⟨hs.size, hs.columns, hs.strategy.invalid⟩

theorem Robust.succeeds_pursue (hm : m.Robust) (hs : m.Ready s)
    {answer : Outcome LinearError (TrustRegionStep α)}
    (hfits : Strategy.Fits s.linear.jacobian answer) :
    Succeeds (m.pursue s answer) w fun r _ => ∀ s', r = .next s' → m.Ready s' := by
  unfold pursue
  split
  · exact hfits.elim
  · split
    · exact succeeds_pure.mpr (Progress.forall_next_of_stop _ _)
    · exact succeeds_pure.mpr hs.discard
  · rename_i step
    dsimp only
    split
    · refine succeeds_pure.mpr (Ready.discard ?_)
      exact ⟨hs.size, hs.columns, hs.strategy⟩
    · have hsize : (step.step.mulEntries s.scale).size = m.evaluator.numEffectiveParameters := by
        rw [Vec.size_mulEntries, ← hm.evaluator.wellFormed.numCols_eq hs.columns]
        exact hfits
      refine hm.succeeds_attempt ?_ hsize
      exact ⟨hs.size, hs.columns, hs.strategy⟩

/-- One iteration. -/
theorem Robust.succeeds_step (hm : m.Robust) (hs : m.Ready s) :
    Succeeds (m.step s) w fun r _ => ∀ s', r = .next s' → m.Ready s' := by
  unfold step
  simp only [succeeds_bind]
  refine Run.succeeds_now (Run.succeeds_now (Run.succeeds_since ?_))
  obtain ⟨hfits, hstrategy⟩ := hs.strategy.computeStep s.linear.jacobian s.linear.residuals
  refine hm.succeeds_pursue ?_ hfits
  exact ⟨hs.size, hs.columns, hstrategy⟩

section Reports

variable [ScalarText α]

theorem Ready.succeeds_report (hs : m.Ready s) :
    Succeeds (m.report s) w fun r _ => m.Ready r.2 := by
  unfold report
  simp only [succeeds_bind]
  refine Run.succeeds_since (Run.succeeds_since ?_)
  refine (Stage.succeeds_runAll _).mono fun d w1 _ => succeeds_pure.mpr ?_
  split <;> exact ⟨hs.size, hs.columns, hs.strategy⟩

/-- A run comes to an end. -/
theorem Robust.succeeds_minimize (hm : m.Robust) {strategy : Strategy α}
    (hstrategy : strategy.Reflects) {counts : EvaluationCounts} :
    Succeeds (m.minimize strategy counts x) w fun _ _ => True := by
  rw [minimize, succeeds_bind]
  refine Run.succeeds_now ?_
  rw [succeeds_bind]
  refine (hm.succeeds_linearize.and returns_linearize).mono ?_
  rintro ⟨_ | linear, counts'⟩ w1 ⟨hcolumns, hlinear⟩
  · exact succeeds_pure.mpr trivial
  · dsimp only
    have hready : m.Ready (m.initial strategy x linear counts' (w.clock w.ticks)) :=
      ⟨(hlinear.found linear rfl).size, hcolumns linear rfl, hstrategy⟩
    rw [iterate_eq, succeeds_bind]
    refine (Loop.succeeds_iterate (I := m.Ready) _ (fun s w hs => hs.succeeds_report)
      (fun s w hs => hm.succeeds_step hs) hready).mono ?_
    rintro ⟨reason, s⟩ w2 -
    exact succeeds_pure.mpr trivial

end Reports

end TrustRegion

/-! ## Line searches -/

namespace LineSearch

variable {m : LineSearch α σ} {s : State α} {w : World α σ} {x : Vec α} {cost length : α}
  {ray : Ray α} {left done : Nat} {counts : EvaluationCounts}

/-- From such a state the run cannot break. -/
structure Ready (m : LineSearch α σ) (s : State α) : Prop where
  size : s.x.size = m.evaluator.numParameters
  gradient : s.gradient.size = m.evaluator.numEffectiveParameters

theorem size_direction (m : LineSearch α σ) (s : State α) :
    (m.ray s).direction.size = s.gradient.size := by
  rw [ray_eq]
  split
  · unfold proposed
    split
    · exact Vec.size_neg _
    · exact Lbfgs.size_direction _ _
  · exact Vec.size_neg _

/-- A trial cannot break, nor can those after it. -/
theorem succeeds_trial (he : m.evaluator.Robust) (hx : x.size = m.evaluator.numParameters)
    (hray : ray.direction.size = m.evaluator.numEffectiveParameters)
    (hrest : ∀ n, left = n + 1 → ∀ done length counts w,
      Succeeds (m.backtrack x cost ray n done length counts) w fun _ _ => True) :
    Succeeds (m.backtrack x cost ray left done length counts) w fun _ _ => True := by
  obtain ⟨y, hy⟩ := he.wellFormed.exists_plus hx ((Vec.size_scale _ length).trans hray)
  unfold backtrack
  rw [succeeds_bind]
  refine Run.succeeds_ofFault hy ?_
  rw [succeeds_bind]
  refine he.succeeds_measured.mono ?_
  rintro ⟨evaluation, counts'⟩ w1 -
  dsimp only
  split
  · exact succeeds_pure.mpr trivial
  · cases left with
    | zero => exact succeeds_pure.mpr trivial
    | succ n =>
        dsimp only
        split
        · exact succeeds_pure.mpr trivial
        · exact hrest n rfl _ _ _ w1

theorem succeeds_backtrack (he : m.evaluator.Robust) (hx : x.size = m.evaluator.numParameters)
    (hray : ray.direction.size = m.evaluator.numEffectiveParameters) :
    Succeeds (m.backtrack x cost ray left done length counts) w fun _ _ => True := by
  induction left generalizing w done length counts with
  | zero => exact succeeds_trial he hx hray nofun
  | succ left ih =>
      refine succeeds_trial he hx hray fun n hn done length counts w => ?_
      obtain rfl : left = n := by omega
      exact ih

theorem succeeds_evaluateGradient (he : m.evaluator.Robust) :
    Succeeds (m.evaluateGradient counts x) w fun r _ => ∀ cost gradient,
      r.1 = some (cost, gradient) → gradient.size = m.evaluator.numEffectiveParameters := by
  rw [evaluateGradient, succeeds_bind]
  refine he.succeeds_measured.mono ?_
  rintro ⟨_ | ev, counts'⟩ w1 ⟨hlaid, hmeasures⟩
  · refine succeeds_pure.mpr fun cost gradient hnone => ?_
    cases hnone
  · obtain ⟨gradient, jacobian, hev⟩ := hmeasures.full rfl ev rfl
    rw [hev] at hlaid ⊢
    refine succeeds_pure.mpr fun cost g hg => ?_
    cases hg
    exact ((hlaid _ rfl).gradient gradient rfl).trans (he.wellFormed.numCols_eq rfl)

/-- One iteration. -/
theorem Ready.succeeds_step (hs : m.Ready s) (he : m.evaluator.Robust) :
    Succeeds (m.step s) w fun r _ => ∀ s', r = .next s' → m.Ready s' := by
  have hray := (m.size_direction s).trans hs.gradient
  rw [step, succeeds_bind]
  refine Run.succeeds_now ?_
  dsimp only
  rw [succeeds_bind]
  refine ((succeeds_backtrack he hs.size hray).and returns_backtrack).mono ?_
  rintro ⟨⟨_ | ⟨length, y⟩, evaluations⟩, counts⟩ w1 ⟨-, lengths, htrials, -⟩
  · exact succeeds_pure.mpr (Progress.forall_next_of_stop _ _)
  · have hplus := (htrials.ends rfl).2.2
    have hsize := (he.wellFormed.plus_spec he.placed hplus).1.trans hs.size
    dsimp only
    rw [succeeds_bind]
    refine (succeeds_evaluateGradient he).mono ?_
    rintro ⟨_ | ⟨cost, gradient⟩, counts'⟩ w2 hgradient
    · exact succeeds_pure.mpr (Progress.forall_next_of_stop _ _)
    · refine succeeds_pure.mpr fun s' hs' => ?_
      cases hs'
      exact ⟨hsize, hgradient cost gradient rfl⟩

section Reports

variable [ScalarText α]

theorem Ready.succeeds_report (hs : m.Ready s) :
    Succeeds (m.report s) w fun r _ => m.Ready r.2 := by
  unfold report
  simp only [succeeds_bind]
  refine Run.succeeds_since (Run.succeeds_since ?_)
  exact (Stage.succeeds_runAll _).mono fun d w1 _ => succeeds_pure.mpr ⟨hs.size, hs.gradient⟩

/-- A run comes to an end. -/
theorem succeeds_minimize (he : m.evaluator.Robust) :
    Succeeds (m.minimize counts x) w fun _ _ => True := by
  rw [minimize, succeeds_bind]
  refine Run.succeeds_now ?_
  rw [succeeds_bind]
  refine ((succeeds_evaluateGradient he).and returns_evaluateGradient).mono ?_
  rintro ⟨_ | ⟨cost, gradient⟩, counts'⟩ w1 ⟨hgradient, hfound⟩
  · exact succeeds_pure.mpr trivial
  · dsimp only
    have hready : m.Ready (m.initial x cost gradient counts' (w.clock w.ticks)) :=
      ⟨(hfound.found cost gradient rfl).size, hgradient cost gradient rfl⟩
    rw [iterate_eq, succeeds_bind]
    refine (Loop.succeeds_iterate (I := m.Ready) _ (fun s w hs => hs.succeeds_report)
      (fun s w hs => hs.succeeds_step he) hready).mono ?_
    rintro ⟨reason, s⟩ w2 -
    exact succeeds_pure.mpr trivial

end Reports

end LineSearch

/-! ## Sweeps -/

namespace CoordinateDescent

variable [ScalarText α] {e : Evaluator α σ} {x : Vec α} {w : World α σ}

omit [ScalarText α] in
theorem size_apply (e : Evaluator α σ) (moves : List (Nat × Option (Vec α)))
    (result : Nat × Vec α) : (apply e result moves).2.size = result.2.size := by
  induction moves generalizing result with
  | nil => rfl
  | cons move moves ih =>
      obtain ⟨n, x⟩ := result
      obtain ⟨k, _ | v⟩ := move
      · rw [apply]
        exact ih _
      · rw [apply]
        split
        · exact ih _
        · exact (ih _).trans (Vec.size_splice _ _ _)

theorem succeeds_solveBlock (he : e.Robust) (hbounds : (1e-6 : α) ≤ 1e32)
    (hx : x.size = e.numParameters) (k : Nat) :
    Succeeds (solveBlock e x k) w fun _ _ => True := by
  have hrestricts : e.restrictTo? k x = .ok (e.restrictTo k x) := by
    rw [Evaluator.restrictTo?, if_pos]
    exact List.all_eq_true.mpr fun l _ => he.placed.reaches hx l
  rw [solveBlock, succeeds_bind]
  refine Run.succeeds_ofFault hrestricts ?_
  split
  · exact succeeds_pure.mpr trivial
  · rw [he.placed.reaches hx k]
    simp only [Bool.not_true, Bool.false_eq_true, if_false]
    split
    · exact succeeds_pure.mpr trivial
    · rename_i b hb
      have hrobust : (blockRun e x k).Robust := by
        refine ⟨he.restrictTo hb, fun sweep hsweep => ?_⟩
        cases hsweep
      have hstrategy : (Strategy.levenbergMarquardt (.new solver options) : Strategy α).Reflects :=
        ⟨rfl, hbounds⟩
      rw [succeeds_bind]
      refine (hrobust.succeeds_minimize hstrategy).mono fun summary w1 _ => ?_
      split <;> exact succeeds_pure.mpr trivial

/-- A sweep comes to an end. -/
theorem succeeds_sweep (he : e.Robust) (hbounds : (1e-6 : α) ≤ 1e32)
    (hx : x.size = e.numParameters) (c : CoordinateDescent) :
    Succeeds (c.sweep e x) w fun r _ => r.2.size = x.size := by
  have hgroups : ∀ (groups : List (List Nat)) (result : Nat × Vec α) (w : World α σ),
      result.2.size = e.numParameters → Succeeds (sweepGroups e groups result) w fun r _ =>
        r.2.size = e.numParameters := by
    intro groups
    induction groups with
    | nil => exact fun result w hresult => succeeds_pure.mpr hresult
    | cons group groups ih =>
        rintro ⟨n, y⟩ w hresult
        rw [sweepGroups, succeeds_bind]
        refine (Succeeds.mapM (I := fun _ => True) (P := fun _ _ => True)
          (fun k _ w1 _ => (succeeds_solveBlock he hbounds hresult k).mono
            fun _ _ _ => ⟨trivial, trivial⟩) trivial).mono fun better w1 _ => ?_
        exact ih _ w1 ((size_apply e _ _).trans hresult)
  exact (hgroups c.groups (0, x) w hx).mono fun r _ hr => hr.trans hx.symm

end CoordinateDescent

/-- A run with inner iterations, or without them. -/
theorem TrustRegion.Robust.ofSweep [ScalarText α] {e : Evaluator α σ} (he : e.Robust)
    (hbounds : (1e-6 : α) ≤ 1e32) (o : MinimizerOptions α) (inner : Option CoordinateDescent)
    (callbacks : Pipeline α σ) :
    Robust ⟨o, e, inner.map fun c => c.sweep e, callbacks⟩ := by
  refine ⟨he, fun sweep hsweep x w hx => ?_⟩
  obtain ⟨c, -, rfl⟩ := Option.map_eq_some_iff.mp hsweep
  exact CoordinateDescent.succeeds_sweep he hbounds hx c

/-! ## Default bounds -/

theorem real_defaultBounds : @LE.le ℝ instLEOfScalar 1e-6 1e32 :=
  (real_le _ _).mpr (by norm_num)

theorem Strategy.reflects_default : (Strategy.levenbergMarquardt
    (.new CoordinateDescent.solver {}) : Strategy ℝ).Reflects := ⟨rfl, real_defaultBounds⟩

/-- The anchored blocks have an evaluator that cannot break. -/
theorem Gallery.exists_evaluator_anchored : ∃ e : Evaluator ℝ Unit,
    Evaluator.create (anchored ℝ) (.ofProblem (anchored ℝ)) .denseQR 0 none = .ok e ∧
      e.Pure ∧ e.Robust := by
  obtain ⟨e, hcreate⟩ : ∃ e : Evaluator ℝ Unit,
      Evaluator.create (anchored ℝ) (.ofProblem (anchored ℝ)) .denseQR 0 none = .ok e := by
    with_unfolding_all exact ⟨_, rfl⟩
  obtain ⟨hmade, -, hcheck⟩ := Evaluator.create_eq_ok hcreate
  exact ⟨e, hcreate, hmade.pure pure_anchored, hmade.robust reachable_anchored.coherent
    (.inl hcheck)⟩

end LeastSquares
