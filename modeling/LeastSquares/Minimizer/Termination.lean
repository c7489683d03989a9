import LeastSquares.Decimal.Text
import LeastSquares.LinearSolver.Error
import LeastSquares.Named

/-!
# How a minimization ends

A minimizer stops for exactly one reason. The reason tells whether the
outcome is of use, whether the problem takes over the optimized values, and
what is said about it.

## Main definitions

* `Termination` — the ways to end that a caller has to tell apart.
* `Reason` — the ways to end with what is known about each.
* `Reason.message` — the reason in words.
-/

namespace LeastSquares

/-- How a minimization ended. -/
inductive Termination where
  | functionTolerance
  | gradientTolerance
  | parameterTolerance
  /-- Iterations or time were used up. -/
  | noConvergence
  /-- Evaluation or the linear solver kept failing. -/
  | numericalFailure
  | userAbort
  | userSuccess
  | didNotRun
deriving DecidableEq, Repr, Inhabited

namespace Termination

/-- All ways to end, in the order in which they are listed to users. -/
def all : List Termination :=
  [functionTolerance, gradientTolerance, parameterTolerance, noConvergence, numericalFailure,
    userAbort, userSuccess, didNotRun]

/-- The name in reports. -/
def name : Termination → String
  | functionTolerance => "FUNCTION_TOLERANCE"
  | gradientTolerance => "GRADIENT_TOLERANCE"
  | parameterTolerance => "PARAMETER_TOLERANCE"
  | noConvergence => "NO_CONVERGENCE"
  | numericalFailure => "NUMERICAL_FAILURE"
  | userAbort => "USER_ABORT"
  | userSuccess => "USER_SUCCESS"
  | didNotRun => "DID_NOT_RUN"

/-- Whether there is a solution to use. -/
def isUsable : Termination → Bool
  | numericalFailure | userAbort | didNotRun => false
  | _ => true

/-- Whether the problem takes over the optimized values. -/
def writesBack : Termination → Bool
  | numericalFailure | userAbort => false
  | _ => true

instance : Named Termination := ⟨all, name⟩

end Termination

/-- Why a minimizer stopped. -/
inductive Reason (α : Type) where
  /-- The initial point has no usable evaluation. -/
  | noInitialEvaluation
  /-- The point of an accepted step has no usable evaluation. -/
  | noAcceptedEvaluation
  | userAbort
  | userSuccess
  | iterationLimit (iterations : Nat)
  /-- The argument is the time used, in nanoseconds. -/
  | timeLimit (elapsed : Nat)
  | gradient (maxNorm tolerance : α)
  | radius (radius minimum : α)
  | parameter (relativeStep tolerance : α)
  | function (relativeChange tolerance : α)
  | linearSolver (e : LinearError)
  | invalidSteps (allowed : Nat)
  | lineSearch (evaluations : Nat)
deriving Repr

namespace Reason

variable {α : Type}

/-- How a minimization that stopped for this reason ended. -/
def termination : Reason α → Termination
  | noInitialEvaluation | noAcceptedEvaluation | linearSolver _ | invalidSteps _
  | lineSearch _ => .numericalFailure
  | userAbort => .userAbort
  | userSuccess => .userSuccess
  | iterationLimit _ | timeLimit _ => .noConvergence
  | gradient .. => .gradientTolerance
  | radius .. | parameter .. => .parameterTolerance
  | function .. => .functionTolerance

/-- Two numbers and how they compare. -/
def comparison [ScalarText α] (a : α) (relation : String) (b : α) : String :=
  ScalarText.exponential a ++ " " ++ relation ++ " " ++ ScalarText.exponential b

/-- The reason in words. -/
def message [ScalarText α] : Reason α → String
  | noInitialEvaluation => "Residual and Jacobian evaluation failed at the initial point"
  | noAcceptedEvaluation => "Residual and Jacobian evaluation failed at an accepted point"
  | userAbort => "User callback returned Abort"
  | userSuccess => "User callback returned TerminateSuccessfully"
  | iterationLimit n => s!"Maximum number of iterations reached. Number of iterations: {n}"
  | timeLimit elapsed =>
      s!"Maximum solver time reached. Total solver time: {Decimal.seconds 3 elapsed}s"
  | gradient norm tolerance =>
      "Gradient tolerance reached. Gradient max norm: " ++ comparison norm "<=" tolerance
  | radius r minimum =>
      "Minimum trust region radius reached. Trust region radius: " ++ comparison r "<" minimum
  | parameter step tolerance =>
      "Parameter tolerance reached. Relative step norm: " ++ comparison step "<=" tolerance
  | function change tolerance =>
      "Function tolerance reached. |cost_change|/cost: " ++ comparison change "<=" tolerance
  | linearSolver e => "Linear solver failed: " ++ e.message
  | invalidSteps allowed =>
      "Number of consecutive invalid steps more than max_num_consecutive_invalid_steps: " ++
        toString allowed
  | lineSearch evaluations =>
      "Line search failed to find a step satisfying the Armijo condition after " ++
        s!"{evaluations} evaluations"

end Reason

end LeastSquares
