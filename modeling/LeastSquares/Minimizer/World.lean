import LeastSquares.Evaluator
import LeastSquares.Minimizer.Record

/-!
# What a minimization can see and change

A minimization reads a clock, calls users' functions, may write accepted
states into the problem while it runs, and may write a log. All of this is
the `World`, and a minimization is a function from one world to the next. In
particular two minimizations that start in equal worlds are equal in every
respect, time included.

The clock is a sequence of readings, of which each look takes the next one.

## Main definitions

* `World` — everything outside a minimization.
* `Run` — computations in the world, which end early at a fault.
* `Run.now` — a look at the clock.
-/

namespace LeastSquares

/-- Everything outside a minimization. -/
structure World (α σ : Type) [Scalar α] where
  problem : Problem α σ
  tally : Tally σ
  /-- Lines of the log, if one was opened. -/
  log : Option (List String) := none
  /-- Why a log cannot be opened at a path, if it cannot. -/
  logRefusal : String → Option String := fun _ => none
  /-- The readings of the clock, in nanoseconds. -/
  clock : Nat → Nat
  /-- Number of readings taken. -/
  ticks : Nat := 0

/-- Computations in the world. What one changed before it met a fault stays
changed. -/
abbrev Run (α σ : Type) [Scalar α] := EStateM Fault (World α σ)

namespace Run

variable {α σ : Type} [Scalar α]

/-- The next reading of the clock. -/
def now : Run α σ Nat := fun w => .ok (w.clock w.ticks) { w with ticks := w.ticks + 1 }

/-- The time since an earlier reading. -/
def since (start : Nat) : Run α σ Nat := do
  let reading ← now
  pure (reading - start)

/-- A computation that calls users' functions. -/
def ofCalls {β : Type} (c : Calls σ β) : Run α σ β := fun w =>
  match c w.tally with
  | .ok b tally => .ok b { w with tally }
  | .error f tally => .error f { w with tally }

/-- The result of an operation that can meet a fault. -/
def ofFault {β : Type} : Except Fault β → Run α σ β
  | .ok b => pure b
  | .error f => throw f

/-- Puts another problem into the world. -/
def setProblem (p : Problem α σ) : Run α σ Unit := modify fun w => { w with problem := p }

/-- A computation that calls users' functions and changes the problem in
place. -/
def onProblem {ε β : Type} (c : Problem α σ → Calls σ (InPlace ε β (Problem α σ))) :
    Run α σ (Except ε β) := do
  let w ← get
  let (result, problem) ← ofCalls (c w.problem)
  setProblem problem
  pure result

end Run

namespace Evaluator

variable {α σ : Type} [Scalar α]

/-- An evaluation, and the counts with it if it succeeded. -/
def measured (e : Evaluator α σ) (counts : EvaluationCounts) (x : Vec α) (wantJacobian : Bool) :
    Run α σ (Option (Evaluation α) × EvaluationCounts) := do
  let start ← Run.now
  let result ← Run.ofCalls (e.evaluate x wantJacobian)
  let time ← Run.since start
  match result with
  | some evaluation => pure (some evaluation, counts.record wantJacobian time)
  | none => pure (none, counts)

end Evaluator

/-- A time in seconds. -/
def secondsScalar {α : Type} [Scalar α] (nanoseconds : Nat) : α :=
  Scalar.ofNat (nanoseconds / Nat.pow 10 9) + Scalar.ofNat (nanoseconds % Nat.pow 10 9) / 1e9

end LeastSquares
