import LeastSquares.Proofs.EvaluationLayout
import LeastSquares.Proofs.Proposals
import LeastSquares.Proofs.TrustRegion

/-!
# What dogleg strategies use again

A dogleg strategy that is marked for it takes a step from what it has stored and
does not look at the linear model that it is handed. In a run of the trust region
minimizer that is right: what is stored was then computed from this very model,
whatever the options and the cost functions are and whatever any linear solver
has answered.

Only two things set the mark, a proposal that has stored everything anew and a
rejection. An iteration that ends with a rejection had a step and keeps the model.
One that moves on to another model ends with an accepted step, which takes the mark
back, and so does a step that could not be used, whether there was none or it
promised nothing.

## Main definitions

* `Dogleg.ComputedFrom` — what is stored belongs to a linear model.
* `TrustRegion.Fate` — what becomes of a proposal.
* `TrustRegion.Asks` — the states at which a strategy is asked for a step.

## Main results

* `Dogleg.Proposes.computedFrom` — what a proposal leaves.
* `TrustRegion.settles_stepWith` — what an iteration tells the strategy.
* `TrustRegion.reuse_current` — what is used again in a run is current.
-/

namespace LeastSquares

variable {α σ : Type} [Scalar α]

/-! ## What is stored -/

namespace Dogleg

variable {answers : Answering α} {jacobian : BlockMatrix α} {residuals : Vec α} {s : Dogleg α}

/-- What is stored was computed from a linear model: scaling, gradient, the length
along it, the Gauss-Newton point from an answer of the linear solver, and the
plane. -/
structure ComputedFrom (answers : Answering α) (jacobian : BlockMatrix α) (residuals : Vec α)
    (s : Dogleg α) : Prop where
  diagonal : ∃ clamped,
    jacobian.squaredColumnNorms.clampEntries s.minDiagonal s.maxDiagonal = .ok clamped ∧
    s.diagonal = clamped.map Scalar.sqrt
  gradient : ∃ g, jacobian.leftMultiply? residuals = .ok g ∧
    s.gradient = g.divEntries s.diagonal
  cauchy : s.cauchy = (Scalar.quotient? s.gradient.normSq
    (jacobian.rightMultiply (s.gradient.divEntries s.diagonal)).normSq).getD 0
  gaussNewton : ∃ mu solution, answers jacobian (-residuals)
    ⟨some (s.diagonal.scale (Scalar.sqrt mu)), s.eta⟩ (.ok solution) ∧
    s.gaussNewton = solution.x.mulEntries s.diagonal
  plane : s.plane = s.planeFor jacobian

/-- What is marked for use again after a proposal was computed from the linear
model for which the step was proposed, if that held before. -/
theorem Proposes.computedFrom {p : Outcome LinearError (TrustRegionStep α) × Dogleg α}
    (h : s.Proposes answers jacobian residuals p)
    (hs : s.reuse = true → s.ComputedFrom answers jacobian residuals) :
    p.2.reuse = true → p.2.ComputedFrom answers jacobian residuals := by
  cases h with
  | stored reuse =>
      obtain ⟨norm, hnote⟩ := s.exists_note 0
      obtain ⟨hdiagonal, hgradient, hcauchy, hpoint, hplane⟩ := hs reuse
      rw [hnote]
      exact fun _ => ⟨hdiagonal, hgradient, hcauchy, hpoint, hplane⟩
  | unscaled reuse linearized =>
      obtain ⟨diagonal, gradient, cauchy, hkept⟩ := s.exists_linearized jacobian residuals
      rw [linearized] at hkept
      subst hkept
      exact fun hmarked => absurd (reuse.symm.trans hmarked) nofun
  | unsolved reuse linearized searched =>
      obtain ⟨diagonal, gradient, cauchy, hkept⟩ := s.exists_linearized jacobian residuals
      obtain ⟨solver, mu, point, hsearched⟩ := searched.exists_eq
      rw [linearized] at hkept
      subst hkept hsearched
      exact fun hmarked => absurd (reuse.symm.trans hmarked) nofun
  | @solved _ linear s' iterations linearized searched =>
      obtain ⟨clamped, g, hclamped, hg, hlinear⟩ := linearize_eq_ok linearized
      obtain ⟨answeredMu, solution, -, hanswer, hpoint⟩ :=
        searched.exists_answer (P := fun _ => True) (fun _ => id) trivial iterations rfl
      obtain ⟨solver, mu, point, hsearched⟩ := searched.exists_eq
      obtain ⟨norm, hnote⟩ :=
        exists_note { s' with plane := s'.planeFor jacobian, reuse := true } iterations
      rw [hnote]
      subst hlinear hsearched
      exact fun _ =>
        ⟨⟨clamped, hclamped, rfl⟩, ⟨g, hg, rfl⟩, rfl, ⟨answeredMu, solution, hanswer, hpoint⟩, rfl⟩

/-- With every step that is proposed, something is stored. -/
theorem Proposes.reuse_of_ok {step : TrustRegionStep α}
    {p : Outcome LinearError (TrustRegionStep α) × Dogleg α}
    (h : s.Proposes answers jacobian residuals p) (hstep : p.1 = .ok step) :
    p.2.reuse = true := by
  cases h with
  | stored reuse =>
      obtain ⟨norm, hnote⟩ := s.exists_note 0
      rw [hnote]
      exact reuse
  | unscaled _ _ => cases hstep
  | unsolved _ _ _ => cases hstep
  | @solved _ linear s' iterations _ _ =>
      obtain ⟨norm, hnote⟩ :=
        exists_note { s' with plane := s'.planeFor jacobian, reuse := true } iterations
      rw [hnote]

/-- A rejection changes nothing that is stored. -/
theorem ComputedFrom.rejected (h : s.ComputedFrom answers jacobian residuals) :
    s.rejected.ComputedFrom answers jacobian residuals :=
  ⟨h.diagonal, h.gradient, h.cauchy, h.gaussNewton, h.plane⟩

end Dogleg

/-! ## One iteration -/

namespace TrustRegion

variable {m : TrustRegion α σ} {s s' : State α} {w w' : World α σ} {trial : Trial α}
  {p : Outcome LinearError (TrustRegionStep α) × Strategy α}

/-- What an iteration does with a proposal, if the run goes on. The model is kept
after a rejection, which a step must have preceded. -/
inductive Fate (s : State α) (p : Outcome LinearError (TrustRegionStep α) × Strategy α)
    (s' : State α) : Prop
  | accepted (quality : α) (strategy : s'.strategy = p.2.accepted quality)
  | rejected (strategy : s'.strategy = p.2.rejected) (linear : s'.linear = s.linear)
      (step : TrustRegionStep α) (proposed : p.1 = .ok step)
  | invalid (strategy : s'.strategy = p.2.invalid)

/-- A state within an iteration that has seen a proposal. -/
structure Holds (s : State α) (p : Outcome LinearError (TrustRegionStep α) × Strategy α)
    (s' : State α) : Prop where
  strategy : s'.strategy = p.2
  linear : s'.linear = s.linear

/-- What an iteration comes to for a proposal. Nothing is said of a run that ends. -/
def Settles (s : State α) (p : Outcome LinearError (TrustRegionStep α) × Strategy α) :
    StepResult α → Prop
  | .stop _ => True
  | .next s' => Fate s p s'

theorem Holds.discard (h : Holds s p s') : Settles s p (m.discard s') := by
  unfold TrustRegion.discard
  dsimp only
  split
  · exact trivial
  · exact .invalid (congrArg Strategy.invalid h.strategy)

theorem settles_accept (h : Holds s p s') {costChange quality : α} :
    Returns (m.accept s' trial costChange quality) w fun r _ => Settles s p r := by
  rw [accept, returns_bind]
  rintro ⟨_ | linear, counts⟩ w1 -
  · exact returns_pure.mpr trivial
  · refine returns_pure.mpr (.accepted quality ?_)
    exact congrArg (Strategy.accepted · quality) h.strategy

theorem settles_judge (h : Holds s p s') {step : TrustRegionStep α} (hp : p.1 = .ok step) :
    Returns (m.judge s' trial) w fun r _ => Settles s p r := by
  unfold judge
  dsimp only
  split
  · exact returns_pure.mpr trivial
  · split
    · exact returns_pure.mpr trivial
    · split
      · refine settles_accept ?_
        exact ⟨h.strategy, h.linear⟩
      · refine returns_pure.mpr (.rejected ?_ h.linear step hp)
        exact congrArg Strategy.rejected h.strategy

theorem holds_improve (h : Holds s p s') :
    Returns (m.improve s' trial) w fun r _ => Holds s p r.2 := by
  unfold improve
  split
  · simp only [returns_bind, Run.returns_now, Run.returns_since]
    rintro ⟨updated, y⟩ w1 - ⟨evaluation, counts⟩ w2 -
    refine returns_pure.mpr ?_
    exact ⟨h.strategy, h.linear⟩
  · exact returns_pure.mpr h

theorem settles_attempt (h : Holds s p s') {step : TrustRegionStep α} (hp : p.1 = .ok step)
    {delta : Vec α} {decrease : α} :
    Returns (m.attempt s' delta decrease) w fun r _ => Settles s p r := by
  unfold attempt
  dsimp only
  rw [returns_bind, Run.returns_since]
  split
  · exact returns_pure.mpr trivial
  · simp only [returns_bind, Run.returns_ofFault]
    rintro y - ⟨evaluation, counts⟩ w1 -
    refine (holds_improve (s := s) (p := p) ?_).mono ?_
    · exact ⟨h.strategy, h.linear⟩
    rintro ⟨trial, s2⟩ w2 h2
    exact settles_judge h2 hp

theorem settles_pursue (h : Holds s p s') :
    Returns (m.pursue s' p.1) w fun r _ => Settles s p r := by
  unfold pursue
  split
  · exact returns_throw
  · split
    · exact returns_pure.mpr trivial
    · exact returns_pure.mpr h.discard
  · rename_i step hp
    dsimp only
    split
    · refine returns_pure.mpr (Holds.discard ?_)
      exact ⟨h.strategy, h.linear⟩
    · refine settles_attempt ?_ hp
      exact ⟨h.strategy, h.linear⟩

/-- An iteration tells the strategy what became of its proposal. -/
theorem settles_stepWith : Returns (m.stepWith s p) w fun r _ => Settles s p r := by
  unfold stepWith
  simp only [returns_bind, Run.returns_now, Run.returns_since]
  refine settles_pursue ?_
  exact ⟨rfl, rfl⟩

/-! ## All iterations -/

/-- What is marked for use again was computed from the linear model of the
state. -/
def Current (answers : Answering α) (s : State α) : Prop :=
  ∃ d, s.strategy = .dogleg d ∧
    (d.reuse = true → d.ComputedFrom answers s.linear.jacobian s.linear.residuals)

variable {answers : Answering α} {counts : EvaluationCounts} {x : Vec α} {strategy : Strategy α}

/-- The next state is current, whatever has become of the proposal. -/
theorem Fate.current (h : Fate s p s') (hs : Current answers s)
    (hp : s.strategy.Proposes answers s.linear.jacobian s.linear.residuals p) :
    Current answers s' := by
  obtain ⟨d, hd, hcurrent⟩ := hs
  rw [hd] at hp
  obtain ⟨q, rfl, hq⟩ := hp.exists_dogleg
  cases h with
  | accepted quality strategy => exact ⟨_, strategy, nofun⟩
  | rejected strategy linear step proposed =>
      refine ⟨_, strategy, fun _ => ?_⟩
      rw [linear]
      exact (hq.computedFrom hcurrent (hq.reuse_of_ok proposed)).rejected
  | invalid strategy => exact ⟨_, strategy, nofun⟩

variable [ScalarText α]

theorem returns_report_holds : Returns (m.report s) w fun r _ =>
    r.2.strategy = s.strategy ∧ r.2.linear = s.linear := by
  unfold report
  simp only [returns_bind, Run.returns_since]
  intro d w' hd
  refine returns_pure.mpr ?_
  dsimp only
  split <;> exact ⟨rfl, rfl⟩

theorem Current.report {d : Decision} (hs : Current answers s)
    (h : m.report s w = .ok (d, s') w') : Current answers s' := by
  obtain ⟨hstrategy, hlinear⟩ := returns_report_holds _ _ h
  rw [Current, hstrategy, hlinear]
  exact hs

/-- The states of a run at which the strategy is asked for a step: after the report
of the initial state, and after that of every state to which an iteration leads,
with any proposal that the answers of the linear solver allow. -/
inductive Asks (m : TrustRegion α σ) (answers : Answering α) (strategy : Strategy α)
    (counts : EvaluationCounts) (x : Vec α) : State α → Prop
  | first {linear : Linearization α} {counts' : EvaluationCounts} {start : Nat} {s : State α}
      {d : Decision} {w w1 w2 : World α σ}
      (found : m.linearize counts x none w = .ok (some linear, counts') w1)
      (shown : m.report (m.initial strategy x linear counts' start) w1 = .ok (d, s) w2) :
      Asks m answers strategy counts x s
  | next {s s' s'' : State α} {p : Outcome LinearError (TrustRegionStep α) × Strategy α}
      {d : Decision} {w w1 w2 : World α σ} (h : Asks m answers strategy counts x s)
      (proposal : s.strategy.Proposes answers s.linear.jacobian s.linear.residuals p)
      (taken : m.stepWith s p w = .ok (.next s') w1) (shown : m.report s' w1 = .ok (d, s'') w2) :
      Asks m answers strategy counts x s''

/-- Passes visit such states, if they begin with one. -/
theorem asks_of_passes {states : List (State α)} {result : Reason α × State α}
    (h : m.loop.Passes s w states result w')
    (hs : ∀ d s' w', m.report s w = .ok (d, s') w' →
      m.Asks LinearSolver.answering strategy counts x s') :
    ∀ s' ∈ states, m.Asks LinearSolver.answering strategy counts x s' := by
  induction h with
  | halt shown _ =>
      intro s' hs'
      obtain rfl := List.mem_singleton.mp hs'
      exact hs _ _ _ shown
  | stop shown _ =>
      intro s' hs'
      obtain rfl := List.mem_singleton.mp hs'
      exact hs _ _ _ shown
  | next shown taken _ ih =>
      have hasks := hs _ _ _ shown
      intro s' hs'
      rcases List.mem_cons.mp hs' with rfl | hs'
      · exact hasks
      · refine ih (fun d s'' w3 hshown => ?_) s' hs'
        exact .next hasks (Strategy.proposes_computeStep _ _ _) taken hshown

theorem Visits.asks {states : List (State α)} {summary : MinimizerSummary α}
    (h : m.Visits strategy counts x w states summary w') :
    ∀ s ∈ states, m.Asks LinearSolver.answering strategy counts x s := by
  cases h with
  | none _ => exact fun _ hs => absurd hs List.not_mem_nil
  | some found passes _ => exact asks_of_passes passes fun _ _ _ hshown => .first found hshown

theorem Asks.current {start : Dogleg α} (hreuse : start.reuse = false)
    (h : m.Asks answers (.dogleg start) counts x s) : Current answers s := by
  induction h with
  | first _ shown =>
      exact Current.report ⟨start, rfl, fun hmarked => absurd (hreuse.symm.trans hmarked) nofun⟩
        shown
  | next _ proposal taken shown ih =>
      exact (Fate.current (settles_stepWith _ _ taken) ih proposal).report shown

/-- In a run with a dogleg strategy that begins with nothing stored, and at every
state at which the strategy is asked for a step: what it has marked for use again
was computed from the scaled Jacobian and the residuals that it is handed now.
Options, cost functions, callbacks, inner iterations and the answers of the linear
solver are any. The states that a run of the minimizer reports are of this kind. -/
theorem reuse_current (m : TrustRegion α σ) {start : Dogleg α} (hreuse : start.reuse = false)
    (counts : EvaluationCounts) (x : Vec α) :
    (∀ answers s, m.Asks answers (.dogleg start) counts x s →
      ∃ d, s.strategy = .dogleg d ∧
        (d.reuse = true → d.ComputedFrom answers s.linear.jacobian s.linear.residuals)) ∧
    ∀ w summary w', m.minimize (.dogleg start) counts x w = .ok summary w' →
      ∃ states, m.Visits (.dogleg start) counts x w states summary w' ∧
        ∀ s ∈ states, m.Asks LinearSolver.answering (.dogleg start) counts x s := by
  refine ⟨fun answers s h => h.current hreuse, fun w summary w' h => ?_⟩
  obtain ⟨states, hvisits⟩ := returns_visits _ _ h
  exact ⟨states, hvisits, hvisits.asks⟩

end TrustRegion

namespace Gallery

/-- The zero of a parabola, sought from a point where it is nearly level. -/
def level (α : Type) [Scalar α] : Problem α Unit where
  slots := #[⟨0, some { values := .ofList [0.1] }⟩]
  residuals := #[some ⟨[⟨0, 0⟩], polynomial [-4.0, 0, 1], none⟩]
  numBlocks := 1
  numResidualBlocks := 1

end Gallery

namespace TrustRegion

/-- The second state that a run reports, if it gets that far. -/
def second? [ScalarText α] (m : TrustRegion α σ) (strategy : Strategy α)
    (counts : EvaluationCounts) (x : Vec α) : Run α σ (Option (State α)) := do
  match ← m.linearize counts x none with
  | (none, _) => pure none
  | (some linear, counts) =>
      let (_, s) ← m.report (m.initial strategy x linear counts 0)
      match ← m.step s with
      | .stop _ => pure none
      | .next s =>
          let (_, s) ← m.report s
          pure (some s)

theorem returns_second? [ScalarText α] {m : TrustRegion α σ} {strategy : Strategy α}
    {counts : EvaluationCounts} {x : Vec α} {w : World α σ} :
    Returns (m.second? strategy counts x) w fun r _ => ∀ s, r = some s →
      m.Asks LinearSolver.answering strategy counts x s := by
  rw [second?, returns_bind]
  rintro ⟨_ | linear, counts'⟩ w1 hlinear
  · exact returns_pure.mpr fun _ => nofun
  · simp only [returns_bind]
    rintro ⟨d, s⟩ w2 hshown r w3 htaken
    have hfirst : m.Asks LinearSolver.answering strategy counts x s := .first hlinear hshown
    cases r with
    | stop _ => exact returns_pure.mpr fun _ => nofun
    | next s' =>
        dsimp only
        rw [returns_bind]
        rintro ⟨d', s''⟩ w4 hshown'
        refine returns_pure.mpr fun s hs => ?_
        cases hs
        exact .next hfirst (Strategy.proposes_computeStep _ _ _) htaken hshown'

/-- The first step goes too far and is rejected, so that the next one is taken from
what is stored. -/
theorem reuse_current_level :
    let start : Dogleg Float := .new ⟨.denseQR, .identity, 1, 1, 0, none⟩ { initialRadius := 1 }
    ∃ (e : Evaluator Float Unit) (s : State Float) (d : Dogleg Float),
      Evaluator.create (Gallery.level Float) (.ofProblem (Gallery.level Float)) .denseQR 0 none =
        .ok e ∧
      Asks ⟨{}, e, none, {}⟩ LinearSolver.answering (.dogleg start) {} (.ofList [0.1]) s ∧
      s.strategy = .dogleg d ∧ d.reuse = true ∧
      d.ComputedFrom LinearSolver.answering s.linear.jacobian s.linear.residuals := by
  intro start
  have htest : ∃ e : Evaluator Float Unit,
      Evaluator.create (Gallery.level Float) (.ofProblem (Gallery.level Float)) .denseQR 0 none =
        .ok e ∧
      ∃ r w', second? ⟨{}, e, none, {}⟩ (.dogleg start) {} (.ofList [0.1])
          { problem := Gallery.level Float, tally := ⟨(), 0⟩, clock := id } = .ok r w' ∧
        (r.any fun s => match s.strategy with
          | .dogleg d => d.reuse
          | .levenbergMarquardt _ => false) = true := by
    refine ⟨_, rfl, exists_of_test (fun (r : Option (State Float)) _ => r.any _) ?_⟩
    decide +kernel
  obtain ⟨e, hcreate, r, w', hrun, htest⟩ := htest
  obtain ⟨s, rfl, hs⟩ := (Option.any_eq_true _ r).mp htest
  have hasks := returns_second? _ _ hrun s rfl
  obtain ⟨d, hd, hcurrent⟩ := (reuse_current ⟨{}, e, none, {}⟩ rfl {} (.ofList [0.1])).1 _ s hasks
  rw [hd] at hs
  exact ⟨e, s, d, hcreate, hasks, hd, hs, hcurrent hs⟩

end TrustRegion

end LeastSquares
