/-!
# Binary numbers

A double is a NaN, an infinity, or an integer times a power of two. The
decimal notation of a number is a matter of exact integer arithmetic on
that integer and that power, so this module takes a double apart once and
the rest of the folder never touches floating point again.

## Main definitions

* `Binary` — what the bits of a double say.
* `Binary.ofFloat` — reading the bits.
* `Binary.numerator`, `Binary.denominator` — the magnitude of a finite
  number as a quotient of natural numbers.
-/

namespace LeastSquares.Decimal

/-- What a double denotes. -/
inductive Binary where
  | nan
  | infinite (negative : Bool)
  /-- The number `± mantissa · 2 ^ exponent`. -/
  | finite (negative : Bool) (mantissa : Nat) (exponent : Int)
deriving DecidableEq, Repr

namespace Binary

/-- The reading of the 64 bits of a double: a sign bit, eleven bits of
exponent and 52 bits of fraction. The least exponent has no hidden bit. -/
def ofBits (bits : Nat) : Binary :=
  let negative := bits / Nat.pow 2 63 % 2 == 1
  let field : Nat := bits / Nat.pow 2 52 % Nat.pow 2 11
  let fraction : Nat := bits % Nat.pow 2 52
  if field = 2047 then
    if fraction = 0 then .infinite negative else .nan
  else if field = 0 then .finite negative fraction (-1074)
  else .finite negative (fraction + Nat.pow 2 52) ((field : Int) - 1075)

/-- The reading of a double. -/
def ofFloat (x : Float) : Binary := ofBits x.toBits.toNat

/-- Numerator of `mantissa · 2 ^ exponent` over `denominator exponent`. -/
def numerator (mantissa : Nat) (exponent : Int) : Nat := mantissa * Nat.pow 2 exponent.toNat

/-- Denominator of `mantissa · 2 ^ exponent`, a power of two. -/
def denominator (exponent : Int) : Nat := Nat.pow 2 (-exponent).toNat

end Binary

end LeastSquares.Decimal
