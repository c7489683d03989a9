import LeastSquares.Proofs.CoordinateDescent
import LeastSquares.Proofs.LineSearch

/-!
# Either minimizer

A solve runs one of two minimizers, with inner iterations or without them.
What both do in common is said of a minimizer with all that it is set up
with, and of the states that its run visits.

## Main definitions

* `Minimizer` — either minimizer, with all that it is set up with.
* `Minimizer.Visits` — the states of a run, as they are reported.

## Main results

* `Minimizer.returns_visits` — every run visits states.
* `Minimizer.Visits.minimized` — what a run comes to.
-/

namespace LeastSquares

variable {α σ : Type} [Scalar α]

/-- A minimizer with all that it is set up with. -/
inductive Minimizer (α σ : Type) [Scalar α] where
  | trustRegion (options : MinimizerOptions α) (evaluator : Evaluator α σ)
      (inner : Option CoordinateDescent) (strategy : Strategy α)
  | lineSearch (options : MinimizerOptions α) (evaluator : Evaluator α σ)

namespace Minimizer

/-- What the minimizer was told. -/
def options : Minimizer α σ → MinimizerOptions α
  | trustRegion options _ _ _ => options
  | lineSearch options _ => options

/-- What the minimizer evaluates states with. -/
def evaluator : Minimizer α σ → Evaluator α σ
  | trustRegion _ evaluator _ _ => evaluator
  | lineSearch _ evaluator => evaluator

variable [ScalarText α]

/-- A run with an evaluator that has not been used before. -/
def minimize (m : Minimizer α σ) (callbacks : Pipeline α σ) (x : Vec α) :
    Run α σ (MinimizerSummary α) :=
  match m with
  | trustRegion options evaluator inner strategy =>
      TrustRegion.minimize ⟨options, evaluator, inner.map fun c => c.sweep evaluator, callbacks⟩
        strategy {} x
  | lineSearch options evaluator => LineSearch.minimize ⟨options, evaluator, callbacks⟩ {} x

/-- The states of a run after their reports, with the records that were
reported with them. -/
inductive Visits (callbacks : Pipeline α σ) (x : Vec α) (w : World α σ) :
    Minimizer α σ → Trace α → MinimizerSummary α → World α σ → Prop
  | trustRegion {o : MinimizerOptions α} {e : Evaluator α σ} {inner : Option CoordinateDescent}
      {strategy : Strategy α} {states : List (TrustRegion.State α)}
      {result : MinimizerSummary α} {w' : World α σ}
      (h : TrustRegion.Visits ⟨o, e, inner.map fun c => c.sweep e, callbacks⟩ strategy {} x w
        states result w') :
      Visits callbacks x w (.trustRegion o e inner strategy)
        (states.map fun s => (s.record, s.x)) result w'
  | lineSearch {o : MinimizerOptions α} {e : Evaluator α σ} {states : List (LineSearch.State α)}
      {result : MinimizerSummary α} {w' : World α σ}
      (h : LineSearch.Visits ⟨o, e, callbacks⟩ {} x w states result w') :
      Visits callbacks x w (.lineSearch o e) (states.map fun s => (s.record, s.x)) result w'

variable {m : Minimizer α σ} {callbacks : Pipeline α σ} {x : Vec α} {w w' : World α σ}
  {trace : Trace α} {result : MinimizerSummary α}

theorem returns_visits : Returns (m.minimize callbacks x) w fun result w' =>
    ∃ trace, m.Visits callbacks x w trace result w' := by
  cases m with
  | trustRegion o e inner strategy =>
      exact TrustRegion.returns_visits.mono fun _ _ ⟨_, h⟩ => ⟨_, .trustRegion h⟩
  | lineSearch o e => exact LineSearch.returns_visits.mono fun _ _ ⟨_, h⟩ => ⟨_, .lineSearch h⟩

/-- What a run comes to. -/
theorem Visits.minimized (h : m.Visits callbacks x w trace result w') :
    Minimized m.evaluator callbacks result trace w w' := by
  cases h with
  | @trustRegion o e inner _ _ _ _ h =>
      exact (h.minimized (CoordinateDescent.innerExplores o e inner callbacks)).1
  | lineSearch h => exact h.minimized.1

end Minimizer

end LeastSquares
