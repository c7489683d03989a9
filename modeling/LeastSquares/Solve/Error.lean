import LeastSquares.Minimizer.CoordinateDescent

/-!
# Errors of a solve

A solve can be turned down for its options, and it passes on the errors of
the problem, of linear algebra, of inner iterations and of the log file.

An error of an option names the option as users write it and repeats the
values that were refused.

## Main definitions

* `OptionsError` — what can be wrong with options.
* `SolveError` — everything that can turn a solve down.
* `SolveError.links` — an error with the errors behind it, in words.
-/

namespace LeastSquares

/-- What is wrong with options. -/
inductive OptionsError (α : Type) where
  | maxTime (seconds : α)
  | threads (evaluation linearSolver : Nat)
  /-- An option that must not be negative is. -/
  | negative (name : String) (value : α)
  | initialRadius (radius : α)
  | radii (min initial max : α)
  | diagonalBounds (min max : α)
  | eta (value : α)
  | lbfgsRank
  | gradientCheck (precision step : α)
  /-- A dogleg strategy was given a linear solver that does not factor. -/
  | doglegNeedsFactorization (kind : LinearSolverKind)
  | linearIterations (min max : Nat)
deriving Repr

namespace OptionsError

variable {α : Type} [ScalarText α]

/-- What happened, in words. -/
def detail : OptionsError α → String
  | maxTime seconds =>
      "max_solver_time_in_seconds must be non-negative, got " ++ ScalarText.plain seconds
  | threads evaluation linearSolver =>
      s!"thread counts must be positive, got num_threads {evaluation} " ++
        s!"and num_linear_solver_threads {linearSolver}"
  | negative name value => name ++ " must be non-negative, got " ++ ScalarText.plain value
  | initialRadius radius =>
      "initial_trust_region_radius must be positive, got " ++ ScalarText.plain radius
  | radii min initial max =>
      "trust region radii must satisfy min (" ++ ScalarText.exponential min ++ ") <= initial (" ++
        ScalarText.exponential initial ++ ") <= max (" ++ ScalarText.exponential max ++ ")"
  | diagonalBounds min max =>
      "LM diagonal bounds must satisfy 0 < min (" ++ ScalarText.exponential min ++ ") <= max (" ++
        ScalarText.exponential max ++ ")"
  | eta value => "eta must be positive, got " ++ ScalarText.plain value
  | lbfgsRank => "max_lbfgs_rank must be positive for L-BFGS"
  | gradientCheck precision step =>
      "gradient checking needs positive precision and step size, got " ++
        ScalarText.exponential precision ++ " and " ++ ScalarText.exponential step
  | doglegNeedsFactorization kind =>
      s!"DOGLEG needs an exact factorization based linear solver, {kind.name} is iterative"
  | linearIterations min max =>
      s!"linear solver iterations must satisfy 0 < min ({min}) <= max ({max})"

end OptionsError

/-- Why a solve was turned down. -/
inductive SolveError (α : Type) where
  | model (e : ModelError)
  | linear (e : LinearError)
  | innerOrder (e : InnerOrderError)
  | logFile (path reason : String)
  | options (e : OptionsError α)
deriving Repr

namespace SolveError

variable {α : Type}

/-- The kind of an error. -/
def kind : SolveError α → ErrorKind
  | model e => e.kind
  | linear e => e.kind
  | innerOrder _ => .innerIterationOrdering
  | logFile .. => .logFileOpen
  | options _ => .invalidOptions

variable [ScalarText α]

/-- What happened, in words. -/
def detail : SolveError α → String
  | model e => e.detail
  | linear e => e.detail
  | innerOrder e => e.detail
  | logFile path reason => logFileDetail path reason
  | options e => e.detail

/-- The error and the errors behind it, in words. An error of this library
has none behind it. -/
def links (e : SolveError α) : List String := [e.kind.describe e.detail]

/-- The error and the errors behind it, on one line. -/
def message (e : SolveError α) : String := compactText e.links

end SolveError

end LeastSquares
