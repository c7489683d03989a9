import LeastSquares.Minimizer.StepAcceptance
import LeastSquares.Minimizer.Strategy
import LeastSquares.Minimizer.Summary

/-!
# Trust region minimization

Each iteration asks the strategy for a step of the linearized problem, looks
at the cost where the step leads, and takes the step if it achieves enough
of the decrease that the linear model predicted. A step that is not a number
or predicts no decrease cannot be used; only so many of these in a row are
tolerated. A rejected step leaves the state where it is and narrows the
trust region.

The columns of the Jacobian may be scaled by the lengths they have at the
initial point. Between a step and its judgement, inner iterations may
improve on the point that was reached; what they gain counts as predicted.

An iteration begins with a report on the one before. There are as many
reports as the iteration limit allows and one more, for the initial point.

## Main definitions

* `TrustRegion` — what a run is set up with.
* `TrustRegion.State` — what an iteration hands to the next.
* `TrustRegion.minimize` — a run.
-/

namespace LeastSquares

/-- The linear model at a state. The columns of the Jacobian are scaled. -/
structure Linearization (α : Type) where
  cost : α
  residuals : Vec α
  gradient : Vec α
  jacobian : BlockMatrix α
deriving Repr

/-- What a trust region run is set up with. -/
structure TrustRegion (α σ : Type) [Scalar α] where
  options : MinimizerOptions α
  evaluator : Evaluator α σ
  /-- Improves a state and tells in how many blocks. -/
  inner : Option (Vec α → Run α σ (Nat × Vec α))
  callbacks : Pipeline α σ

namespace TrustRegion

variable {α σ : Type} [Scalar α]

/-- What an iteration hands to the next. -/
structure State (α : Type) [Scalar α] where
  x : Vec α
  /-- Length of the state vector. -/
  norm : α
  linear : Linearization α
  /-- Factors of the Jacobian's columns, the same throughout a run. -/
  scale : Vec α
  best : Vec α
  bestCost : α
  acceptance : StepAcceptance α
  innerEnabled : Bool
  /-- Steps in a row that could not be used. -/
  invalidSteps : Nat
  strategy : Strategy α
  /-- The record of this iteration. -/
  record : IterationRecord α
  history : History α
  /-- Readings of the clock at the start of the run and of the iteration. -/
  start : Nat
  iterationStart : Nat

/-- A point that a step leads to, with its cost, none if it has no usable
evaluation, and the decrease that was predicted. -/
structure Trial (α : Type) where
  x : Vec α
  cost : Option α
  decrease : α
deriving Repr

/-- What an iteration comes to. -/
abbrev StepResult (α : Type) [Scalar α] := Progress (Reason α × State α) (State α)

/-! ## Linearization -/

/-- The linear model at a state, none if the state has no usable
evaluation. -/
def linearize (m : TrustRegion α σ) (counts : EvaluationCounts) (x : Vec α)
    (scale : Option (Vec α)) : Run α σ (Option (Linearization α) × EvaluationCounts) := do
  match ← m.evaluator.measured counts x true with
  | (some ⟨cost, residuals, some gradient, some jacobian⟩, counts) =>
      let jacobian := match scale with
        | some scale => jacobian.scaleColumns scale
        | none => jacobian
      pure (some ⟨cost, residuals, gradient, jacobian⟩, counts)
  | (_, counts) => pure (none, counts)

/-- The factors of the Jacobian's columns. -/
def columnScale (m : TrustRegion α σ) (jacobian : BlockMatrix α) : Vec α :=
  if m.options.jacobiScaling then
    jacobian.squaredColumnNorms.map fun v => 1 / (1 + Scalar.sqrt v)
  else Vec.ofFn m.evaluator.numEffectiveParameters fun _ => 1

/-- The decrease of the linear model by a step, if it is one. -/
def predictedDecrease? (linear : Linearization α) (step : Vec α) : Option α :=
  let image := linear.jacobian.rightMultiply step
  let decrease := -(linear.residuals.dot image + 0.5 * image.normSq)
  if Scalar.isFinite decrease && 0 < decrease then some decrease else none

/-! ## Reports -/

/-- Whether the time is used up, judged by the clock. -/
def outOfTime (m : TrustRegion α σ) (elapsed : Nat) : Bool :=
  m.options.maxTime ≤ secondsScalar elapsed

/-- Completes the record of an iteration, puts it into the history and shows
it to the callbacks. -/
def report [ScalarText α] (m : TrustRegion α σ) (s : State α) :
    Run α σ (Decision × State α) := do
  let iterationTime ← Run.since s.iterationStart
  let cumulativeTime ← Run.since s.start
  let record :=
    { s.record with radius := s.strategy.radius, iterationTime, cumulativeTime }
  let s := { s with record, history := s.history.add record }
  let s :=
    if record.successful && s.linear.cost < s.bestCost then
      { s with best := s.x, bestCost := s.linear.cost }
    else s
  let decision ← m.callbacks.run record s.x
  pure (decision, s)

/-- Why a run stops after a report, apart from the limit of iterations. -/
def stop? (m : TrustRegion α σ) (record : IterationRecord α) (elapsed : Nat) :
    Option (Reason α) :=
  if m.outOfTime elapsed then some (.timeLimit elapsed)
  else if record.gradientMaxNorm ≤ m.options.gradientTolerance then
    some (.gradient record.gradientMaxNorm m.options.gradientTolerance)
  else if record.radius < m.options.minRadius then
    some (.radius record.radius m.options.minRadius)
  else none

/-! ## Iterations -/

/-- The start of the next iteration, with a new record. -/
def begin (s : State α) (iterationStart : Nat) : State α :=
  { s with
    iterationStart
    record :=
      { iteration := s.record.iteration + 1
        cost := s.linear.cost
        gradientMaxNorm := s.record.gradientMaxNorm
        gradientNorm := s.record.gradientNorm } }

/-- After a step that could not be used. -/
def discard (m : TrustRegion α σ) (s : State α) : StepResult α :=
  let s := { s with invalidSteps := s.invalidSteps + 1 }
  if m.options.maxInvalidSteps < s.invalidSteps then
    .stop (.invalidSteps m.options.maxInvalidSteps, s)
  else .next { s with strategy := s.strategy.invalid }

/-- Inner iterations on a trial. They end for good once they gain too
little. -/
def improve (m : TrustRegion α σ) (s : State α) (trial : Trial α) :
    Run α σ (Trial α × State α) :=
  match m.inner, s.innerEnabled, trial.cost with
  | some sweep, true, some cost => do
      let start ← Run.now
      let (updated, x) ← sweep trial.x
      let (evaluation, counts) ← m.evaluator.measured s.history.counts x false
      let time ← Run.since start
      let improved := evaluation.map Evaluation.cost
      let gain := 1 - improved.getD Scalar.infinity / cost
      let trial := match improved with
        | some lower =>
            if lower < cost then ⟨x, some lower, trial.decrease + (cost - lower)⟩ else trial
        | none => trial
      pure (trial,
        { s with
          innerEnabled := m.options.innerTolerance < gain
          history :=
            { s.history with
              innerSteps := s.history.innerSteps + updated
              innerTime := s.history.innerTime + time
              counts } })
  | _, _, _ => pure (trial, s)

/-- Moves the state to a trial. -/
def accept (m : TrustRegion α σ) (s : State α) (trial : Trial α) (costChange quality : α) :
    Run α σ (StepResult α) := do
  let (linear, counts) ← m.linearize s.history.counts trial.x (some s.scale)
  let s := { s with x := trial.x, history := { s.history with counts } }
  match linear with
  | none => pure (.stop (.noAcceptedEvaluation, s))
  | some linear =>
      pure (.next
        { s with
          norm := trial.x.norm
          linear
          strategy := s.strategy.accepted quality
          acceptance := s.acceptance.accept linear.cost trial.decrease
          record :=
            { s.record with
              successful := true
              nonmonotonic := costChange / trial.decrease < m.options.minRelativeDecrease
              cost := linear.cost
              gradientMaxNorm := linear.gradient.maxNorm
              gradientNorm := linear.gradient.norm } })

/-- Judges a trial: the run may have converged, or the trial is accepted or
rejected. -/
def judge (m : TrustRegion α σ) (s : State α) (trial : Trial α) : Run α σ (StepResult α) :=
  let o := m.options
  let cost := s.linear.cost
  let stepNorm := (s.x - trial.x).norm
  let length := s.norm + o.parameterTolerance
  let s := { s with record := { s.record with stepNorm } }
  if stepNorm ≤ o.parameterTolerance * length then
    pure (.stop (.parameter (stepNorm / length) o.parameterTolerance, s))
  else
    let costChange := match trial.cost with
      | some c => cost - c
      | none => -Scalar.infinity
    let s := { s with record := { s.record with costChange } }
    if Scalar.within (trial.cost.map fun c => Scalar.abs (cost - c))
        (o.functionTolerance * cost) then
      pure (.stop (.function (Scalar.abs costChange / cost) o.functionTolerance, s))
    else
      let quality := s.acceptance.quality trial.cost trial.decrease
      let s := { s with record := { s.record with relativeDecrease := quality } }
      if o.minRelativeDecrease < quality then m.accept s trial costChange quality
      else pure (.next { s with strategy := s.strategy.rejected })

/-- Tries a step that predicts a decrease. -/
def attempt (m : TrustRegion α σ) (s : State α) (delta : Vec α) (decrease : α) :
    Run α σ (StepResult α) := do
  let s := { s with invalidSteps := 0, record := { s.record with valid := true } }
  let elapsed ← Run.since s.start
  if m.outOfTime elapsed then pure (.stop (.timeLimit elapsed, s))
  else
    let x ← Run.ofFault (m.evaluator.plus s.x delta)
    let (evaluation, counts) ← m.evaluator.measured s.history.counts x false
    let s := { s with history := { s.history with counts } }
    let (trial, s) ← m.improve s ⟨x, evaluation.map Evaluation.cost, decrease⟩
    m.judge s trial

/-- The rest of an iteration, once the strategy has answered. -/
def pursue (m : TrustRegion α σ) (s : State α) :
    Outcome LinearError (TrustRegionStep α) → Run α σ (StepResult α)
  | .error (.fault f) => throw f
  | .error (.error e) =>
      if e.isFatal then pure (.stop (.linearSolver e, s)) else pure (m.discard s)
  | .ok step =>
      let s := { s with record := { s.record with linearIterations := step.iterations } }
      match predictedDecrease? s.linear step.step with
      | none => pure (m.discard s)
      | some decrease => m.attempt s (step.step.mulEntries s.scale) decrease

/-- One iteration. -/
def step (m : TrustRegion α σ) (s : State α) : Run α σ (StepResult α) := do
  let s := begin s (← Run.now)
  let start ← Run.now
  let (result, strategy) := s.strategy.computeStep s.linear.jacobian s.linear.residuals
  let time ← Run.since start
  m.pursue
    { s with
      strategy
      history := { s.history with linearSolverTime := s.history.linearSolverTime + time } }
    result

/-- The iterations that are left, from the report on. -/
def iterate [ScalarText α] (m : TrustRegion α σ) :
    Nat → State α → Run α σ (Reason α × State α)
  | 0, s => do
      let (decision, s) ← m.report s
      match decision.reason? with
      | some reason => pure (reason, s)
      | none => pure (.iterationLimit s.record.iteration, s)
  | left + 1, s => do
      let (decision, s) ← m.report s
      match decision.reason? with
      | some reason => pure (reason, s)
      | none =>
          let elapsed ← Run.since s.start
          match m.stop? s.record elapsed with
          | some reason => pure (reason, s)
          | none =>
              match ← m.step s with
              | .stop result => pure result
              | .next s => m.iterate left s

/-! ## Runs -/

/-- The state at the initial point. -/
def initial (m : TrustRegion α σ) (strategy : Strategy α) (x : Vec α)
    (linear : Linearization α) (counts : EvaluationCounts) (start : Nat) : State α :=
  let scale := m.columnScale linear.jacobian
  { x
    norm := x.norm
    linear := { linear with jacobian := linear.jacobian.scaleColumns scale }
    scale
    best := x
    bestCost := linear.cost
    acceptance := .new linear.cost
      (if m.options.useNonmonotonicSteps then m.options.maxNonmonotonicSteps else 0)
    innerEnabled := m.inner.isSome
    invalidSteps := 0
    strategy
    record :=
      { valid := true
        successful := true
        cost := linear.cost
        gradientMaxNorm := linear.gradient.maxNorm
        gradientNorm := linear.gradient.norm }
    history := { counts }
    start
    iterationStart := start }

/-- A run from an initial state, on top of evaluations that the evaluator has
counted before. -/
def minimize [ScalarText α] (m : TrustRegion α σ) (strategy : Strategy α)
    (counts : EvaluationCounts) (x : Vec α) : Run α σ (MinimizerSummary α) := do
  let start ← Run.now
  match ← m.linearize counts x none with
  | (none, counts) => pure ⟨.noInitialEvaluation, { counts }, x, 0⟩
  | (some linear, counts) =>
      let (reason, s) ← m.iterate m.options.maxIterations
        (m.initial strategy x linear counts start)
      pure ⟨reason, s.history, s.best, linear.cost⟩

end TrustRegion

end LeastSquares
