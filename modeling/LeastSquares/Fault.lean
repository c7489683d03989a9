/-!
# Faults

A fault is a broken precondition: the caller asked for something that has
no answer, such as the product of a matrix with a vector of another size.
It is not an error that the library reports in words. An operation that
meets a fault stops where it stands, and what it had changed before stays
changed.

## Main definitions

* `Fault` — the preconditions that can be broken.
* `Stop` — why an operation has no result: a fault or a reported error.
* `InPlace` — what an operation answers, with what it leaves behind.
-/

namespace LeastSquares

/-- The ways in which a call can break its preconditions. -/
inductive Fault where
  /-- Two operands have sizes that do not fit. -/
  | sizeMismatch
  /-- The bounds of a clamp are not ordered. -/
  | unorderedBounds
  /-- Residual blocks were to be grouped by no eliminated block at all. -/
  | nothingEliminated
  /-- A matrix holds something where the analysis of its pattern has no
  place for it. -/
  | patternMismatch
  /-- A reduced program has blocks of one kind and none of the other. -/
  | unbalancedProgram
  /-- A list is read or written at a place that it does not have. -/
  | noSuchPlace
  /-- A bucket has not been given as many entries as were counted for it. -/
  | miscountedBucket
  /-- A place of a sorted list has been given nothing. -/
  | unfilledPlace
deriving DecidableEq, Repr

/-- Why an operation that can fail in words has no result. -/
inductive Stop (ε : Type) where
  | fault (f : Fault)
  | error (e : ε)
deriving DecidableEq, Repr

/-- The result of an operation, or what stopped it. -/
abbrev Outcome (ε β : Type) := Except (Stop ε) β

namespace Outcome

variable {ε β : Type}

/-- The outcome of an operation that can only meet a fault. -/
def ofFault : Except Fault β → Outcome ε β
  | .ok b => .ok b
  | .error f => .error (.fault f)

/-- The outcome of an operation that can only fail in words. -/
def ofExcept : Except ε β → Outcome ε β
  | .ok b => .ok b
  | .error e => .error (.error e)

end Outcome

/-- The answer of an operation in place, or what stopped it, with what the
operation leaves behind. -/
abbrev InPlace (ε β τ : Type) := Except ε β × τ

/-- The answer and what is left behind, if nothing stopped the operation. -/
def InPlace.result {ε β τ : Type} : InPlace ε β τ → Except ε (β × τ)
  | (.ok b, s) => .ok (b, s)
  | (.error e, _) => .error e

end LeastSquares
