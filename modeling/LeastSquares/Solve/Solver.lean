import LeastSquares.Minimizer.LineSearch
import LeastSquares.Solve.Assembly
import LeastSquares.Solve.Summary

/-!
# Solving a problem

A solve checks its options, reduces the problem, assembles a minimizer, runs
it, and lets the problem take over the result. Whatever happens on the way
is told in the summary: a solve that is turned down returns the summary as
far as it had come, with the error. In the end the noted places are again
those of all blocks in their natural order.

A fault ends the solve where it stands. Nothing is put back then.

## Main definitions

* `Attempt` — a solve under way.
* `solve` — a solve.
-/

namespace LeastSquares

/-- A solve under way. It fills in its summary as it goes, and an error ends
it. -/
abbrev Attempt (α σ : Type) [Scalar α] :=
  ExceptT (SolveError α) (StateT (SolveSummary α) (Run α σ))

namespace Attempt

variable {α σ β : Type} [Scalar α]

/-- Fills in the summary. -/
def note (f : SolveSummary α → SolveSummary α) : Attempt α σ Unit := ExceptT.lift (modify f)

/-- A computation in the world. -/
def ofRun (r : Run α σ β) : Attempt α σ β := ExceptT.lift (StateT.lift r)

/-- The result of an operation that can be turned down. -/
def ofExcept (x : Except (SolveError α) β) : Attempt α σ β := ExceptT.mk (pure x)

/-- The result of an operation on the problem. -/
def ofModel (x : Except ModelError β) : Attempt α σ β := ofExcept (x.mapError .model)

/-- A computation that calls users' functions and changes the problem in
place. -/
def onProblem (c : Problem α σ → Calls σ (InPlace ModelError β (Problem α σ))) :
    Attempt α σ β := do
  let result ← ofRun (Run.onProblem c)
  ofModel result

end Attempt

/-- The numbers of a program. -/
def Program.size {α σ : Type} [Scalar α] (g : Program) (p : Problem α σ) :
    Except ModelError ProblemSize := do
  let parameters ← g.numParameters p
  let effectiveParameters ← g.numEffectiveParameters p
  let residuals ← g.numResiduals p
  pure ⟨g.blocks.length, parameters, effectiveParameters, g.residuals.length, residuals⟩

namespace SolveOptions

variable {α σ : Type} [Scalar α]

/-! ## Preparation -/

/-- Looks at problem and options before anything is done. -/
def checkRequest (o : SolveOptions α) (p : Problem α σ) (full : Program) :
    Attempt α σ Unit := do
  let size ← Attempt.ofModel (full.size p)
  Attempt.note fun s => { s with full := size }
  if p.numBlocks = 0 ∨ p.numResidualBlocks = 0 then
    throw (.model (.emptyProblem p.numBlocks p.numResidualBlocks))
  Attempt.ofExcept (o.validate.mapError .options)

/-- The elimination order to start from. -/
def startingOrder (o : SolveOptions α) (p : Problem α σ) (full : Program) :
    Except ModelError EliminationOrder :=
  match o.eliminationOrder with
  | some order => (full.checkOrder p order o.linearSolver).map fun _ => order
  | none => .ok (.single full.blocks)

/-- Reduces the problem, and answers it as it is then. -/
def reduce (o : SolveOptions α) (p : Problem α σ) (full : Program) :
    Attempt α σ (ReducedProgram α × Problem α σ) := do
  let order ← Attempt.ofModel (o.startingOrder p full)
  let reduced ← Attempt.onProblem fun p =>
    ReducedProgram.create p full order o.linearSolver o.preconditioner
  let w ← Attempt.ofRun get
  let size ← Attempt.ofModel (reduced.program.size w.problem)
  Attempt.note fun s =>
    { s with
      linearSolverUsed := reduced.linearSolver
      preconditionerUsed := reduced.preconditioner
      orderUsed := reduced.order.groupSizes
      fixedCost := reduced.fixedCost
      reduced := size }
  pure (reduced, w.problem)

/-! ## Minimization -/

/-- The stages that see every record of the minimizer. -/
def pipeline (o : SolveOptions α) (program : Program) (callbacks : List (Callback α σ)) :
    Pipeline α σ :=
  { update := if o.updateEveryIteration then some program else none
    progress := if o.logging = .silent then none else some o.minimizerKind
    log := o.logPath.map fun _ => o.minimizerKind
    user := callbacks }

/-- The inner iterations that are asked for. -/
def prepareInner (o : SolveOptions α) (p : Problem α σ) (reduced : ReducedProgram α)
    (e : Evaluator α σ) : Attempt α σ (Option CoordinateDescent) := do
  if o.useInnerIterations then
    match ← Attempt.ofExcept (o.innerIterations p reduced e) with
    | none => pure none
    | some (inner, order) =>
        Attempt.note fun s => { s with innerUsed := true, innerOrderUsed := order.groupSizes }
        pure (some inner)
  else pure none

/-- The minimizer for a reduced program, ready for callbacks and a state. -/
def assemble [ScalarText α] (o : SolveOptions α) (p : Problem α σ) (reduced : ReducedProgram α) :
    Attempt α σ (Pipeline α σ → Vec α → Run α σ (MinimizerSummary α)) := do
  match o.minimizerKind with
  | .trustRegion =>
      let solver ← Attempt.ofExcept (o.createLinearSolver reduced)
      let evaluator ← Attempt.ofModel (createEvaluator p reduced o.gradientCheck?)
      let inner ← o.prepareInner p reduced evaluator
      pure fun callbacks x =>
        let run : TrustRegion α σ :=
          { options := o.minimizer
            evaluator
            inner := inner.map fun inner => inner.sweep evaluator
            callbacks }
        run.minimize (.create solver o.minimizer) {} x
  | .lineSearch =>
      let evaluator ← Attempt.ofModel (createEvaluator p reduced o.gradientCheck?)
      pure fun callbacks x =>
        let run : LineSearch α σ := { options := o.minimizer, evaluator, callbacks }
        run.minimize {} x

/-- Opens the log, if one is asked for. -/
def openLog (o : SolveOptions α) : Attempt α σ Unit := do
  match o.logPath with
  | none => pure ()
  | some path =>
      let w ← Attempt.ofRun get
      match w.logRefusal path with
      | some reason => throw (.logFile path reason)
      | none => Attempt.ofRun (modify fun w => { w with log := some [] })

/-- Tells in the summary what the minimizer did. -/
def tell (s : SolveSummary α) (result : MinimizerSummary α) [ScalarText α] : SolveSummary α :=
  let h := result.history
  let s := match result.finalCost? with
    | some cost =>
        { s with
          initialCost := result.initialCost + s.fixedCost
          finalCost := cost + s.fixedCost }
    | none => s
  { s with
    records := h.records
    successfulSteps := h.successfulSteps
    unsuccessfulSteps := h.unsuccessfulSteps
    innerSteps := h.innerSteps
    counts := h.counts
    linearSolverTime := h.linearSolverTime
    innerTime := h.innerTime
    termination := result.termination
    message := result.reason.message }

/-- Writes the result of the minimizer into the problem, if the way it ended
allows it. -/
def writeBack (program : Program) (result : MinimizerSummary α) (x : Vec α) :
    Attempt α σ Unit := do
  if result.termination.writesBack then
    let w ← Attempt.ofRun get
    let p ← Attempt.ofModel (program.scatter (result.finalState x) w.problem)
    Attempt.ofRun (Run.setProblem p)

/-- Minimizes a reduced program that is not empty. -/
def minimizeReduced [ScalarText α] (o : SolveOptions α) (callbacks : List (Callback α σ))
    (start : Nat) (p : Problem α σ) (reduced : ReducedProgram α) : Attempt α σ Unit := do
  let minimize ← o.assemble p reduced
  let x ← Attempt.ofModel (reduced.program.gather p)
  let preprocessorTime ← Attempt.ofRun (Run.since start)
  Attempt.note fun s => { s with preprocessorTime }
  o.openLog
  let before ← Attempt.ofRun get
  let minimizerStart ← Attempt.ofRun Run.now
  let result ← Attempt.ofRun (minimize (o.pipeline reduced.program callbacks) x)
  let minimizerTime ← Attempt.ofRun (Run.since minimizerStart)
  Attempt.note fun s => tell { s with minimizerTime } result
  writeBack reduced.program result x
  let after ← Attempt.ofRun get
  let postprocessorTime ← Attempt.ofRun (Run.since (minimizerStart + minimizerTime))
  Attempt.note fun s =>
    { s with
      mismatches := after.tally.mismatches - before.tally.mismatches
      postprocessorTime }

/-- What is said about a problem in which nothing can change. -/
def nothingToDo (start : Nat) (fixedCost : α) : Attempt α σ Unit := do
  let preprocessorTime ← Attempt.ofRun (Run.since start)
  Attempt.note fun s =>
    { s with
      initialCost := fixedCost
      finalCost := fixedCost
      termination := .functionTolerance
      message := "Function tolerance reached. No non-constant parameter blocks found."
      preprocessorTime }

/-- A solve up to its end or its error. -/
def attempt [ScalarText α] (o : SolveOptions α) (callbacks : List (Callback α σ)) (start : Nat)
    (p : Problem α σ) (full : Program) : Attempt α σ Unit := do
  o.checkRequest p full
  let (reduced, p) ← o.reduce p full
  if reduced.program.blocks.isEmpty then nothingToDo start reduced.fixedCost
  else o.minimizeReduced callbacks start p reduced

end SolveOptions

/-- The summary of a solve that was turned down. -/
def SolveSummary.reject {α : Type} [Scalar α] (s : SolveSummary α) (message : String) :
    SolveSummary α :=
  { s with message, error := some message }

/-- Solves the problem in the world. Callbacks see every record after the
library's own stages, in their order. -/
def solve {α σ : Type} [Scalar α] [ScalarText α] (o : SolveOptions α)
    (callbacks : List (Callback α σ)) : Run α σ (SolveSummary α) := do
  let start ← Run.now
  let w ← get
  let full := Program.ofProblem w.problem
  let (result, summary) ← ((o.attempt callbacks start w.problem full).run).run
    (SolveSummary.ofOptions o)
  let summary := match result with
    | .ok () => summary
    | .error e => summary.reject e.message
  modify fun w => { w with problem := (full.setOffsets w.problem).2 }
  let totalTime ← Run.since start
  pure { summary with totalTime }

end LeastSquares
