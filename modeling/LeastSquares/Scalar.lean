/-!
# Scalars

Every algorithm of this library is written once, over an abstract scalar
type, and read in two ways: at `Float` it is the program that runs, and at
an exact number system it is the mathematics that the theory is about. The
class `Scalar` names exactly the operations the algorithms and the cost
functions of this library use, so that an instance is a complete account of
one arithmetic.

Two conventions keep both readings honest.

* Comparisons are those of the arithmetic itself, so at `Float` a comparison
  with a NaN is false and `x == x` fails for it. `a < b` and `a ≤ b` are the
  propositions that the comparison answers true.
* Where an algorithm asks whether a quotient came out usable, it goes
  through `quotient?`, which counts a zero divisor as unusable in every
  arithmetic, whatever value the arithmetic gives such a quotient.

## Main definitions

* `Scalar` — the arithmetic, with `Float` as its running instance.
* `Scalar.max`, `Scalar.min`, `Scalar.clamp` — order operations that
  disregard a NaN operand, and moving a value between two bounds.
* `Scalar.quotient?` — a quotient, if it is a number.
* `Scalar.below`, `Scalar.within` — comparisons with bounds and values that
  may be missing.
* `Scalar.sumTo` — the sum `f 0 + … + f (n - 1)`.
-/

namespace LeastSquares

/-- The arithmetic that the algorithms are written over. -/
class Scalar (α : Type) where
  /-- The number `n`. -/
  ofNat : Nat → α
  /-- The decimal `mantissa · 10 ^ (± exponent)`; the flag says that the
  exponent counts decimal places. -/
  ofDecimal : Nat → Bool → Nat → α
  add : α → α → α
  sub : α → α → α
  mul : α → α → α
  div : α → α → α
  neg : α → α
  abs : α → α
  sqrt : α → α
  sin : α → α
  cos : α → α
  exp : α → α
  log : α → α
  atan : α → α
  lt : α → α → Bool
  le : α → α → Bool
  /-- Equality as the arithmetic decides it. -/
  beq : α → α → Bool
  /-- Whether the value is a number of bounded magnitude. -/
  isFinite : α → Bool
  /-- A linear order of all values, in which every special value has a
  place. -/
  totalLe : α → α → Bool
  /-- The value that stands for an unbounded magnitude in records. -/
  infinity : α
  /-- The number of largest magnitude below zero. -/
  lowest : α
  /-- The least positive number of full precision. -/
  minPositive : α
  /-- The relative spacing of the numbers near one. -/
  epsilon : α
  /-- A full turn in radians. -/
  tau : α

variable {α : Type} [Scalar α]

instance (priority := low) instAddOfScalar : Add α := ⟨Scalar.add⟩
instance (priority := low) instSubOfScalar : Sub α := ⟨Scalar.sub⟩
instance (priority := low) instMulOfScalar : Mul α := ⟨Scalar.mul⟩
instance (priority := low) instDivOfScalar : Div α := ⟨Scalar.div⟩
instance (priority := low) instNegOfScalar : Neg α := ⟨Scalar.neg⟩
instance (priority := low) instZeroOfScalar : Zero α := ⟨Scalar.ofNat 0⟩
instance (priority := low) instOneOfScalar : One α := ⟨Scalar.ofNat 1⟩
instance (priority := low) instOfScientificOfScalar : OfScientific α := ⟨Scalar.ofDecimal⟩
instance (priority := low) instLTOfScalar : LT α := ⟨fun a b => Scalar.lt a b = true⟩
instance (priority := low) instLEOfScalar : LE α := ⟨fun a b => Scalar.le a b = true⟩
instance (priority := low) instBEqOfScalar : BEq α := ⟨Scalar.beq⟩

instance (priority := low) instDecidableLTOfScalar (a b : α) : Decidable (a < b) :=
  inferInstanceAs (Decidable (Scalar.lt a b = true))

instance (priority := low) instDecidableLEOfScalar (a b : α) : Decidable (a ≤ b) :=
  inferInstanceAs (Decidable (Scalar.le a b = true))

namespace Scalar

/-- Whether the value differs from itself, as only a NaN does. -/
def isNaN (a : α) : Bool := !(a == a)

/-- The larger of two values; a NaN gives way to the other operand. -/
def max (a b : α) : α :=
  if isNaN a then b else if isNaN b then a else if a < b then b else a

/-- The smaller of two values; a NaN gives way to the other operand. -/
def min (a b : α) : α :=
  if isNaN a then b else if isNaN b then a else if b < a then b else a

/-- The value moved into the interval from `lo` to `hi`. A NaN stays. -/
def clamp (lo hi a : α) : α :=
  if a < lo then lo else if hi < a then hi else a

/-- The quotient, if the divisor is not zero and the result is a number. -/
def quotient? (a b : α) : Option α :=
  if b == 0 then none
  else if isFinite (a / b) then some (a / b) else none

/-- Whether a value lies below a bound; a missing bound lies above every
number. -/
def below (a : α) : Option α → Bool
  | some b => a < b
  | none => isFinite a || a < 0

/-- Whether a value lies within a bound; a missing value lies above every
number, so only an unbounded bound admits it. -/
def within (a : Option α) (bound : α) : Bool :=
  match a with
  | some a => a ≤ bound
  | none => !isFinite bound && 0 < bound

/-- The third power. -/
def cube (a : α) : α := a * a * a

/-- The sum `f 0 + … + f (n - 1)`, added from the left. -/
def sumTo : Nat → (Nat → α) → α
  | 0, _ => 0
  | n + 1, f => sumTo n f + f n

@[simp] theorem sumTo_zero (f : Nat → α) : sumTo 0 f = 0 := rfl

@[simp] theorem sumTo_succ (n : Nat) (f : Nat → α) : sumTo (n + 1) f = sumTo n f + f n := rfl

/-- The disjunction of two members: the larger one, and the first of the two
if they cannot be compared that way. It is the step of a running maximum. -/
def larger (a b : α) : α := if b ≤ a then a else b

end Scalar

/-! ## Double precision

The bits of a double order all doubles, special values included: read the
magnitude as a number and reflect it for a set sign.
-/

/-- The place of a double in the linear order of all doubles. -/
def floatRank (x : Float) : Int :=
  let bits := x.toBits.toNat
  if bits < Nat.pow 2 63 then (bits : Int) else -((bits - Nat.pow 2 63 : Nat) : Int) - 1

instance instScalarFloat : Scalar Float where
  ofNat := Float.ofNat
  ofDecimal := OfScientific.ofScientific
  add := Float.add
  sub := Float.sub
  mul := Float.mul
  div := Float.div
  neg := Float.neg
  abs := Float.abs
  sqrt := Float.sqrt
  sin := Float.sin
  cos := Float.cos
  exp := Float.exp
  log := Float.log
  atan := Float.atan
  lt := Float.lt
  le := Float.le
  beq := Float.beq
  isFinite := Float.isFinite
  totalLe := fun a b => floatRank a ≤ floatRank b
  infinity := 1.0 / 0.0
  lowest := -1.7976931348623157e308
  minPositive := 2.2250738585072014e-308
  epsilon := 2.220446049250313e-16
  tau := 6.283185307179586

end LeastSquares
