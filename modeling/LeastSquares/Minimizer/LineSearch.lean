import LeastSquares.Minimizer.Lbfgs
import LeastSquares.Minimizer.Summary

/-!
# Line search minimization

Each iteration moves along a descent direction. The length of the move is
found by backtracking: a trial length is shortened until the cost falls
below the line `f(x) + c · t · gᵀd`. The next length is where a parabola
through what is known has its minimum, but at least a tenth and at most half
of the last one.

Every move lowers the cost, so the last state is the best one.

## Main definitions

* `LineSearch` — what a run is set up with.
* `LineSearch.backtrack` — the search along a direction.
* `LineSearch.minimize` — a run.
-/

namespace LeastSquares

/-- What a line search run is set up with. -/
structure LineSearch (α σ : Type) [Scalar α] where
  options : MinimizerOptions α
  evaluator : Evaluator α σ
  callbacks : Pipeline α σ

namespace LineSearch

variable {α σ : Type} [Scalar α]

/-- What an iteration hands to the next. -/
structure State (α : Type) [Scalar α] where
  x : Vec α
  cost : α
  gradient : Vec α
  memory : Lbfgs α
  /-- The decrease of the last move, none before the first. -/
  lastChange : Option α
  record : IterationRecord α
  history : History α
  /-- Readings of the clock at the start of the run and of the iteration. -/
  start : Nat
  iterationStart : Nat

/-- What an iteration comes to. -/
abbrev StepResult (α : Type) [Scalar α] := Progress (Reason α × State α) (State α)

/-- Cost and gradient at a state. -/
def evaluateGradient (m : LineSearch α σ) (counts : EvaluationCounts) (x : Vec α) :
    Run α σ (Option (α × Vec α) × EvaluationCounts) := do
  match ← m.evaluator.measured counts x true with
  | (some ⟨cost, _, some gradient, _⟩, counts) => pure (some (cost, gradient), counts)
  | (_, counts) => pure (none, counts)

/-! ## Directions -/

/-- A direction with the slope of the cost along it. -/
structure Ray (α : Type) where
  direction : Vec α
  slope : α
deriving Repr

/-- The direction against the gradient. -/
def steepest (gradient : Vec α) : Ray α := ⟨-gradient, -gradient.normSq⟩

/-- The direction of an iteration, and the memory as it is then. A direction
that does not lead down is replaced by the one against the gradient, and the
memory that it came from is emptied. -/
def chooseRay (m : LineSearch α σ) (memory : Lbfgs α) (gradient : Vec α) : Ray α × Lbfgs α :=
  let direction := match m.options.direction with
    | .steepestDescent => -gradient
    | .lbfgs => memory.direction gradient
  let slope := gradient.dot direction
  if slope < 0 then (⟨direction, slope⟩, memory) else (steepest gradient, memory.reset)

/-- The first trial length: a quasi-Newton direction knows its length,
steepest descent expects the decrease of the last move again, and the first
move has about unit length. -/
def initialStep (m : LineSearch α σ) (lastChange : Option α) (gradient : Vec α) (slope : α) : α :=
  match m.options.direction, lastChange with
  | .lbfgs, some _ => 1
  | .steepestDescent, some change =>
      Scalar.clamp Scalar.epsilon 1 (2.02 * change / -slope)
  | _, none => Scalar.min (1 / gradient.maxNorm) 1

/-! ## Backtracking -/

/-- The next trial length after one that was too long, given the cost there,
if it has one. -/
def shorten (cost slope step : α) (trialCost : Option α) : α :=
  match trialCost.bind fun c =>
      Scalar.quotient? (-slope * step * step) (2.0 * (c - cost - slope * step)) with
  | some next => Scalar.clamp (0.1 * step) (0.5 * step) next
  | none => 0.5 * step

/-- What a search comes to: a length with the state there, or nothing, and
the number of evaluations. -/
structure Found (α : Type) where
  move : Option (α × Vec α)
  evaluations : Nat
deriving Repr

/-- The search from a trial length on, after `done` evaluations and with
`left` more allowed after this one. -/
def backtrack (m : LineSearch α σ) (x : Vec α) (cost : α) (ray : Ray α) :
    Nat → Nat → α → EvaluationCounts → Run α σ (Found α × EvaluationCounts)
  | left, done, step, counts => do
      let trial ← Run.ofFault (m.evaluator.plus x (ray.direction.scale step))
      let (evaluation, counts) ← m.evaluator.measured counts trial false
      let trialCost := evaluation.map Evaluation.cost
      if Scalar.within trialCost
          (cost + m.options.sufficientDecrease * step * ray.slope) then
        pure (⟨some (step, trial), done + 1⟩, counts)
      else
        match left with
        | 0 => pure (⟨none, done + 1⟩, counts)
        | left + 1 =>
            let next := shorten cost ray.slope step trialCost
            if next < m.options.minLineSearchStep then pure (⟨none, done + 1⟩, counts)
            else m.backtrack x cost ray left (done + 1) next counts

/-! ## Iterations -/

/-- Completes the record of an iteration, puts it into the history and shows
it to the callbacks. -/
def report [ScalarText α] (m : LineSearch α σ) (s : State α) : Run α σ (Decision × State α) := do
  let iterationTime ← Run.since s.iterationStart
  let cumulativeTime ← Run.since s.start
  let record := { s.record with iterationTime, cumulativeTime }
  let s := { s with record, history := s.history.add record }
  let decision ← m.callbacks.run record s.x
  pure (decision, s)

/-- Why a run stops after a move that was too small to go on. -/
def converged? (m : LineSearch α σ) (s : State α) : Option (Reason α) :=
  let o := m.options
  let length := s.x.norm + o.parameterTolerance
  let before := s.cost + s.record.costChange
  if s.record.stepNorm ≤ o.parameterTolerance * length then
    some (.parameter (s.record.stepNorm / length) o.parameterTolerance)
  else if Scalar.abs s.record.costChange ≤ o.functionTolerance * before then
    some (.function (Scalar.abs s.record.costChange / before) o.functionTolerance)
  else none

/-- Why a run stops after a report, apart from the limit of iterations. -/
def stop? (m : LineSearch α σ) (s : State α) (elapsed : Nat) : Option (Reason α) :=
  if m.options.maxTime ≤ secondsScalar elapsed then some (.timeLimit elapsed)
  else if s.record.gradientMaxNorm ≤ m.options.gradientTolerance then
    some (.gradient s.record.gradientMaxNorm m.options.gradientTolerance)
  else if 0 < s.record.iteration then m.converged? s
  else none

/-- The state after a move. -/
def advance (s : State α) (ray : Ray α) (step : α) (x : Vec α) (cost : α) (gradient : Vec α)
    (evaluations iterationStart : Nat) : State α :=
  let costChange := s.cost - cost
  { s with
    x
    cost
    gradient
    memory := s.memory.update ⟨ray.direction.scale step, gradient - s.gradient⟩
    lastChange := some costChange
    iterationStart
    record :=
      { iteration := s.record.iteration + 1
        valid := true
        successful := true
        cost
        costChange
        gradientMaxNorm := gradient.maxNorm
        gradientNorm := gradient.norm
        stepNorm := (x - s.x).norm
        stepSize := step
        lineSearchEvaluations := evaluations } }

/-- One iteration. -/
def step (m : LineSearch α σ) (s : State α) : Run α σ (StepResult α) := do
  let iterationStart ← Run.now
  let (ray, memory) := m.chooseRay s.memory s.gradient
  let s := { s with memory }
  let (found, counts) ← m.backtrack s.x s.cost ray (m.options.maxLineSearchEvaluations - 1) 0
    (m.initialStep s.lastChange s.gradient ray.slope) s.history.counts
  let s := { s with history := { s.history with counts } }
  match found.move with
  | none => pure (.stop (.lineSearch found.evaluations, s))
  | some (step, x) =>
      let (result, counts) ← m.evaluateGradient s.history.counts x
      let s := { s with history := { s.history with counts } }
      match result with
      | none => pure (.stop (.noAcceptedEvaluation, s))
      | some (cost, gradient) =>
          pure (.next (advance s ray step x cost gradient found.evaluations iterationStart))

/-- The iterations that are left, from the report on. -/
def iterate [ScalarText α] (m : LineSearch α σ) :
    Nat → State α → Run α σ (Reason α × State α)
  | 0, s => do
      let (decision, s) ← m.report s
      match decision.reason? with
      | some reason => pure (reason, s)
      | none => pure (.iterationLimit s.record.iteration, s)
  | left + 1, s => do
      let (decision, s) ← m.report s
      match decision.reason? with
      | some reason => pure (reason, s)
      | none =>
          let elapsed ← Run.since s.start
          match m.stop? s elapsed with
          | some reason => pure (reason, s)
          | none =>
              match ← m.step s with
              | .stop result => pure result
              | .next s => m.iterate left s

/-- A run from an initial state, on top of evaluations that the evaluator has
counted before. -/
def minimize [ScalarText α] (m : LineSearch α σ) (counts : EvaluationCounts) (x : Vec α) :
    Run α σ (MinimizerSummary α) := do
  let start ← Run.now
  match ← m.evaluateGradient counts x with
  | (none, counts) => pure ⟨.noInitialEvaluation, { counts }, x, 0⟩
  | (some (cost, gradient), counts) =>
      let record : IterationRecord α :=
        { valid := true
          successful := true
          cost
          gradientMaxNorm := gradient.maxNorm
          gradientNorm := gradient.norm }
      let (reason, s) ← m.iterate m.options.maxIterations
        { x, cost, gradient, memory := .new m.options.maxLbfgsRank, lastChange := none, record,
          history := { counts }, start, iterationStart := start }
      pure ⟨reason, s.history, s.x, cost⟩

end LineSearch

end LeastSquares
