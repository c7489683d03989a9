import LeastSquares.Field.Basic
import LeastSquares.Solve.Summary

/-!
# Named parts of summaries

The names of everything that a summary and a record of an iteration hold.
Times have a list of their own, since no two runs agree on them.

## Main definitions

* `IterationRecord.fields` — the parts of a record.
* `SolveSummary.fields`, `SolveSummary.times` — the parts of a summary,
  except for its records.
-/

namespace LeastSquares

variable {α : Type} [Scalar α]

/-- The parts of a record of an iteration. -/
def IterationRecord.fields : List (Field (IterationRecord α) α) :=
  [.count "iteration" (·.iteration) fun n r => { r with iteration := n },
    .flag "step_is_valid" (·.valid) fun b r => { r with valid := b },
    .flag "step_is_nonmonotonic" (·.nonmonotonic) fun b r => { r with nonmonotonic := b },
    .flag "step_is_successful" (·.successful) fun b r => { r with successful := b },
    .real "cost" (·.cost) fun a r => { r with cost := a },
    .real "cost_change" (·.costChange) fun a r => { r with costChange := a },
    .real "gradient_max_norm" (·.gradientMaxNorm) fun a r => { r with gradientMaxNorm := a },
    .real "gradient_norm" (·.gradientNorm) fun a r => { r with gradientNorm := a },
    .real "step_norm" (·.stepNorm) fun a r => { r with stepNorm := a },
    .real "relative_decrease" (·.relativeDecrease) fun a r => { r with relativeDecrease := a },
    .real "trust_region_radius" (·.radius) fun a r => { r with radius := a },
    .real "step_size" (·.stepSize) fun a r => { r with stepSize := a },
    .count "line_search_function_evaluations" (·.lineSearchEvaluations)
      fun n r => { r with lineSearchEvaluations := n },
    .count "linear_solver_iterations" (·.linearIterations)
      fun n r => { r with linearIterations := n },
    .count "iteration_time" (·.iterationTime) fun n r => { r with iterationTime := n },
    .count "cumulative_time" (·.cumulativeTime) fun n r => { r with cumulativeTime := n }]

namespace SolveSummary

/-- What was asked for and what was used. -/
def choices : List (Field (SolveSummary α) α) :=
  [.choice "minimizer_type" (·.minimizerKind) fun k s => { s with minimizerKind := k },
    .choice "trust_region_strategy_type" (·.strategy) fun k s => { s with strategy := k },
    .choice "dogleg_type" (·.dogleg) fun k s => { s with dogleg := k },
    .choice "line_search_direction_type" (·.direction) fun k s => { s with direction := k },
    .choice "sparse_linear_algebra_library_type" (·.sparseLibrary)
      fun k s => { s with sparseLibrary := k },
    .choice "linear_solver_type_given" (·.linearSolverGiven)
      fun k s => { s with linearSolverGiven := k },
    .choice "linear_solver_type_used" (·.linearSolverUsed)
      fun k s => { s with linearSolverUsed := k },
    .choice "preconditioner_type_given" (·.preconditionerGiven)
      fun k s => { s with preconditionerGiven := k },
    .choice "preconditioner_type_used" (·.preconditionerUsed)
      fun k s => { s with preconditionerUsed := k },
    .count "num_threads_given" (·.threadsGiven) fun n s => { s with threadsGiven := n },
    .count "num_threads_used" (·.threadsUsed) fun n s => { s with threadsUsed := n },
    .count "num_linear_solver_threads_given" (·.linearSolverThreadsGiven)
      fun n s => { s with linearSolverThreadsGiven := n },
    .count "num_linear_solver_threads_used" (·.linearSolverThreadsUsed)
      fun n s => { s with linearSolverThreadsUsed := n },
    .counts "linear_solver_ordering_given" (·.orderGiven) fun l s => { s with orderGiven := l },
    .counts "linear_solver_ordering_used" (·.orderUsed) fun l s => { s with orderUsed := l },
    .flag "inner_iterations_given" (·.innerGiven) fun b s => { s with innerGiven := b },
    .flag "inner_iterations_used" (·.innerUsed) fun b s => { s with innerUsed := b },
    .counts "inner_iteration_ordering_given" (·.innerOrderGiven)
      fun l s => { s with innerOrderGiven := l },
    .counts "inner_iteration_ordering_used" (·.innerOrderUsed)
      fun l s => { s with innerOrderUsed := l }]

/-- The sizes of the problem before and after reduction. -/
def sizes : List (Field (SolveSummary α) α) :=
  [.count "num_parameter_blocks" (·.full.blocks) fun n s => { s with full.blocks := n },
    .count "num_parameters" (·.full.parameters) fun n s => { s with full.parameters := n },
    .count "num_effective_parameters" (·.full.effectiveParameters)
      fun n s => { s with full.effectiveParameters := n },
    .count "num_residual_blocks" (·.full.residualBlocks)
      fun n s => { s with full.residualBlocks := n },
    .count "num_residuals" (·.full.residuals) fun n s => { s with full.residuals := n },
    .count "num_parameter_blocks_reduced" (·.reduced.blocks)
      fun n s => { s with reduced.blocks := n },
    .count "num_parameters_reduced" (·.reduced.parameters)
      fun n s => { s with reduced.parameters := n },
    .count "num_effective_parameters_reduced" (·.reduced.effectiveParameters)
      fun n s => { s with reduced.effectiveParameters := n },
    .count "num_residual_blocks_reduced" (·.reduced.residualBlocks)
      fun n s => { s with reduced.residualBlocks := n },
    .count "num_residuals_reduced" (·.reduced.residuals)
      fun n s => { s with reduced.residuals := n }]

/-- How the solve went. -/
def outcomes : List (Field (SolveSummary α) α) :=
  [.real "initial_cost" (·.initialCost) fun a s => { s with initialCost := a },
    .real "final_cost" (·.finalCost) fun a s => { s with finalCost := a },
    .real "fixed_cost" (·.fixedCost) fun a s => { s with fixedCost := a },
    .count "num_successful_steps" (·.successfulSteps) fun n s => { s with successfulSteps := n },
    .count "num_unsuccessful_steps" (·.unsuccessfulSteps)
      fun n s => { s with unsuccessfulSteps := n },
    .count "num_inner_iteration_steps" (·.innerSteps) fun n s => { s with innerSteps := n },
    .count "num_residual_evaluations" (·.counts.residual)
      fun n s => { s with counts.residual := n },
    .count "num_jacobian_evaluations" (·.counts.jacobian)
      fun n s => { s with counts.jacobian := n },
    .count "num_gradient_check_mismatches" (·.mismatches) fun n s => { s with mismatches := n },
    .choice "termination_type" (·.termination) fun k s => { s with termination := k },
    .text "message" (·.message) fun t s => { s with message := t },
    .label "error" (·.error) fun e s => { s with error := e }]

/-- Everything that does not depend on a clock. -/
def fields : List (Field (SolveSummary α) α) := choices ++ sizes ++ outcomes

/-- The times, in nanoseconds. -/
def times : List (Field (SolveSummary α) α) :=
  [.count "residual_evaluation_time" (·.counts.residualTime)
      fun n s => { s with counts.residualTime := n },
    .count "jacobian_evaluation_time" (·.counts.jacobianTime)
      fun n s => { s with counts.jacobianTime := n },
    .count "preprocessor_time" (·.preprocessorTime) fun n s => { s with preprocessorTime := n },
    .count "minimizer_time" (·.minimizerTime) fun n s => { s with minimizerTime := n },
    .count "postprocessor_time" (·.postprocessorTime) fun n s => { s with postprocessorTime := n },
    .count "total_time" (·.totalTime) fun n s => { s with totalTime := n },
    .count "linear_solver_time" (·.linearSolverTime) fun n s => { s with linearSolverTime := n },
    .count "inner_iteration_time" (·.innerTime) fun n s => { s with innerTime := n }]

end SolveSummary

end LeastSquares
