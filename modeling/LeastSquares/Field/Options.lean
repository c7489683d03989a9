import LeastSquares.Field.Basic
import LeastSquares.LinearSolver.Kind
import LeastSquares.Solve.Options

/-!
# Named options

The names of all options.

## Main definitions

* `LinearSolverOptions.fields`, `MinimizerOptions.fields`,
  `SolveOptions.fields` — the options by name.
-/

namespace LeastSquares

/-- The options of a linear solver. -/
def LinearSolverOptions.fields {α : Type} : List (Field LinearSolverOptions α) :=
  [.choice "linear_solver_type" (·.kind) fun k o => { o with kind := k },
    .choice "preconditioner_type" (·.preconditioner) fun k o => { o with preconditioner := k },
    .choice "sparse_linear_algebra_library" (·.sparseLibrary)
      fun k o => { o with sparseLibrary := k },
    .count "min_num_iterations" (·.minIterations) fun n o => { o with minIterations := n },
    .count "max_num_iterations" (·.maxIterations) fun n o => { o with maxIterations := n },
    .count "num_threads" (·.threads) fun n o => { o with threads := n },
    .counts "elimination_groups" (·.eliminationGroups) fun l o => { o with eliminationGroups := l }]

variable {α : Type} [Scalar α]

/-- The options of a minimizer. -/
def MinimizerOptions.fields : List (Field (MinimizerOptions α) α) :=
  [.count "max_num_iterations" (·.maxIterations) fun n o => { o with maxIterations := n },
    .real "max_solver_time_in_seconds" (·.maxTime) fun a o => { o with maxTime := a },
    .real "function_tolerance" (·.functionTolerance) fun a o => { o with functionTolerance := a },
    .real "gradient_tolerance" (·.gradientTolerance) fun a o => { o with gradientTolerance := a },
    .real "parameter_tolerance" (·.parameterTolerance)
      fun a o => { o with parameterTolerance := a },
    .choice "trust_region_strategy_type" (·.strategy) fun k o => { o with strategy := k },
    .choice "dogleg_type" (·.dogleg) fun k o => { o with dogleg := k },
    .real "initial_trust_region_radius" (·.initialRadius) fun a o => { o with initialRadius := a },
    .real "max_trust_region_radius" (·.maxRadius) fun a o => { o with maxRadius := a },
    .real "min_trust_region_radius" (·.minRadius) fun a o => { o with minRadius := a },
    .real "min_relative_decrease" (·.minRelativeDecrease)
      fun a o => { o with minRelativeDecrease := a },
    .real "min_lm_diagonal" (·.minDiagonal) fun a o => { o with minDiagonal := a },
    .real "max_lm_diagonal" (·.maxDiagonal) fun a o => { o with maxDiagonal := a },
    .flag "jacobi_scaling" (·.jacobiScaling) fun b o => { o with jacobiScaling := b },
    .flag "use_nonmonotonic_steps" (·.useNonmonotonicSteps)
      fun b o => { o with useNonmonotonicSteps := b },
    .count "max_consecutive_nonmonotonic_steps" (·.maxNonmonotonicSteps)
      fun n o => { o with maxNonmonotonicSteps := n },
    .count "max_num_consecutive_invalid_steps" (·.maxInvalidSteps)
      fun n o => { o with maxInvalidSteps := n },
    .real "eta" (·.eta) fun a o => { o with eta := a },
    .real "inner_iteration_tolerance" (·.innerTolerance) fun a o => { o with innerTolerance := a },
    .choice "line_search_direction_type" (·.direction) fun k o => { o with direction := k },
    .count "max_lbfgs_rank" (·.maxLbfgsRank) fun n o => { o with maxLbfgsRank := n },
    .real "line_search_sufficient_function_decrease" (·.sufficientDecrease)
      fun a o => { o with sufficientDecrease := a },
    .count "max_num_line_search_step_size_iterations" (·.maxLineSearchEvaluations)
      fun n o => { o with maxLineSearchEvaluations := n },
    .real "min_line_search_step_size" (·.minLineSearchStep)
      fun a o => { o with minLineSearchStep := a }]

/-- The options of a solve. -/
def SolveOptions.fields : List (Field (SolveOptions α) α) :=
  [.choice "minimizer_type" (·.minimizerKind) fun k o => { o with minimizerKind := k },
    .choice "line_search_direction_type" (·.direction) fun k o => { o with direction := k },
    .count "max_lbfgs_rank" (·.maxLbfgsRank) fun n o => { o with maxLbfgsRank := n },
    .choice "trust_region_strategy_type" (·.strategy) fun k o => { o with strategy := k },
    .choice "dogleg_type" (·.dogleg) fun k o => { o with dogleg := k },
    .flag "use_nonmonotonic_steps" (·.useNonmonotonicSteps)
      fun b o => { o with useNonmonotonicSteps := b },
    .count "max_consecutive_nonmonotonic_steps" (·.maxNonmonotonicSteps)
      fun n o => { o with maxNonmonotonicSteps := n },
    .count "max_num_iterations" (·.maxIterations) fun n o => { o with maxIterations := n },
    .real "max_solver_time_in_seconds" (·.maxTime) fun a o => { o with maxTime := a },
    .count "num_threads" (·.threads) fun n o => { o with threads := n },
    .count "num_linear_solver_threads" (·.linearSolverThreads)
      fun n o => { o with linearSolverThreads := n },
    .real "initial_trust_region_radius" (·.initialRadius) fun a o => { o with initialRadius := a },
    .real "max_trust_region_radius" (·.maxRadius) fun a o => { o with maxRadius := a },
    .real "min_trust_region_radius" (·.minRadius) fun a o => { o with minRadius := a },
    .real "min_relative_decrease" (·.minRelativeDecrease)
      fun a o => { o with minRelativeDecrease := a },
    .real "min_lm_diagonal" (·.minDiagonal) fun a o => { o with minDiagonal := a },
    .real "max_lm_diagonal" (·.maxDiagonal) fun a o => { o with maxDiagonal := a },
    .count "max_num_consecutive_invalid_steps" (·.maxInvalidSteps)
      fun n o => { o with maxInvalidSteps := n },
    .real "function_tolerance" (·.functionTolerance) fun a o => { o with functionTolerance := a },
    .real "gradient_tolerance" (·.gradientTolerance) fun a o => { o with gradientTolerance := a },
    .real "parameter_tolerance" (·.parameterTolerance)
      fun a o => { o with parameterTolerance := a },
    .choice "linear_solver_type" (·.linearSolver) fun k o => { o with linearSolver := k },
    .choice "preconditioner_type" (·.preconditioner) fun k o => { o with preconditioner := k },
    .choice "sparse_linear_algebra_library_type" (·.sparseLibrary)
      fun k o => { o with sparseLibrary := k },
    .order "linear_solver_ordering" (·.eliminationOrder)
      fun e o => { o with eliminationOrder := e },
    .flag "use_inner_iterations" (·.useInnerIterations)
      fun b o => { o with useInnerIterations := b },
    .order "inner_iteration_ordering" (·.innerOrder) fun e o => { o with innerOrder := e },
    .real "inner_iteration_tolerance" (·.innerTolerance) fun a o => { o with innerTolerance := a },
    .count "min_linear_solver_iterations" (·.minLinearIterations)
      fun n o => { o with minLinearIterations := n },
    .count "max_linear_solver_iterations" (·.maxLinearIterations)
      fun n o => { o with maxLinearIterations := n },
    .real "eta" (·.eta) fun a o => { o with eta := a },
    .flag "jacobi_scaling" (·.jacobiScaling) fun b o => { o with jacobiScaling := b },
    .choice "logging_type" (·.logging) fun k o => { o with logging := k },
    .flag "minimizer_progress_to_stdout" (·.progressToStdout)
      fun b o => { o with progressToStdout := b },
    .label "solver_log" (·.logPath) fun s o => { o with logPath := s },
    .flag "check_gradients" (·.checkGradients) fun b o => { o with checkGradients := b },
    .real "gradient_check_relative_precision" (·.gradientCheckPrecision)
      fun a o => { o with gradientCheckPrecision := a },
    .real "gradient_check_numeric_derivative_relative_step_size" (·.gradientCheckStep)
      fun a o => { o with gradientCheckStep := a },
    .flag "update_state_every_iteration" (·.updateEveryIteration)
      fun b o => { o with updateEveryIteration := b }]

end LeastSquares
