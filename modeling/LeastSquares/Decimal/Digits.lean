import LeastSquares.Decimal.Binary

/-!
# Decimal digits of a positive quotient

Three questions about a positive rational number `num / den` are answered
here in natural arithmetic: the power of ten of its leading digit, its
value rounded to a decimal grid, and, when it is a binary number, the
shortest decimal that reads back as that number.

Rounding to a grid sends a half to the even neighbour. The shortest decimal
is the one with the fewest digits inside the interval of numbers that round
to the given one; of two such decimals the nearer is taken, and the larger
if both are equally near.

## Main definitions

* `decimalExponent` — the power of ten of the leading digit.
* `roundHalfEven` — a quotient rounded to a natural number.
* `rounded` — a quotient rounded to a given number of digits.
* `shortest` — the fewest digits that read back.
-/

namespace LeastSquares.Decimal

/-- A positive decimal `coefficient · 10 ^ exponent`. -/
structure Digits where
  coefficient : Nat
  exponent : Int
deriving DecidableEq, Repr

/-- Number of decimal digits of a natural number; zero has none. -/
def digitCount (n : Nat) : Nat :=
  if h : n = 0 then 0 else digitCount (n / 10) + 1
termination_by n
decreasing_by omega

/-- The quotient `num / den` rounded to a natural number, a half to even. -/
def roundHalfEven (num den : Nat) : Nat :=
  let q := num / den
  let r := num % den
  if 2 * r < den then q
  else if den < 2 * r then q + 1
  else q + q % 2

/-- The pair `(num, den)` with the quotient divided by `10 ^ p`. -/
def shiftDown (num den : Nat) (p : Int) : Nat × Nat :=
  (num * Nat.pow 10 (-p).toNat, den * Nat.pow 10 p.toNat)

/-- The `k` with `10 ^ k ≤ num / den < 10 ^ (k + 1)`, for a positive
quotient. The lengths of both numbers leave two candidates. -/
def decimalExponent (num den : Nat) : Int :=
  let k := (digitCount num : Int) - (digitCount den : Int)
  let (n, d) := shiftDown num den k
  if d ≤ n then k else k - 1

/-- The positive quotient `num / den` with `places + 1` significant digits. -/
def rounded (num den places : Nat) : Digits :=
  let k := decimalExponent num den
  let (n, d) := shiftDown num den (k - places)
  let c := roundHalfEven n d
  if c = Nat.pow 10 (places + 1) then ⟨Nat.pow 10 places, k + 1 - places⟩ else ⟨c, k - places⟩

/-! ## The shortest decimal

Scale a number `m · 2 ^ e` by four, so that the ends of its rounding
interval are whole: they lie two quarters of a unit away, except below a
power of two, where numbers are twice as dense and the lower end is one
quarter away. The ends belong to the interval when `m` is even, because a
reader sends ties to the even neighbour.
-/

/-- The interval of numbers that round to `m · 2 ^ e`, in units of
`2 ^ (e - 2)`: the lower end and the upper end. -/
def roundingInterval (m : Nat) (e : Int) : Nat × Nat :=
  (if m = Nat.pow 2 52 ∧ e ≠ -1074 then 4 * m - 1 else 4 * m - 2, 4 * m + 2)

/-- Whether the decimal `c · 10 ^ g` rounds to `m · 2 ^ e`. -/
def readsBack (m : Nat) (e : Int) (c : Nat) (g : Int) : Bool :=
  let (lo, hi) := roundingInterval m e
  let unit := Binary.denominator (e - 2)
  let scale := Nat.pow 2 (e - 2).toNat
  -- Both sides of `c · 10 ^ g` against `lo · 2 ^ (e - 2)`, cleared of powers below the line.
  let value := c * Nat.pow 10 g.toNat * unit
  let lower := lo * scale * Nat.pow 10 (-g).toNat
  let upper := hi * scale * Nat.pow 10 (-g).toNat
  if m % 2 = 0 then lower ≤ value && value ≤ upper else lower < value && value < upper

/-- The decimal with `count` digits nearest to `m · 2 ^ e` that reads back as
it, if one of the two neighbours on that grid does. -/
def withDigits? (m : Nat) (e : Int) (count : Nat) : Option Digits :=
  let num := Binary.numerator m e
  let den := Binary.denominator e
  let g := decimalExponent num den - (count - 1 : Nat)
  let (n, d) := shiftDown num den g
  let c := n / d
  match readsBack m e c g, readsBack m e (c + 1) g with
  | true, true => some ⟨if 2 * (n % d) < d then c else c + 1, g⟩
  | true, false => some ⟨c, g⟩
  | false, true => some ⟨c + 1, g⟩
  | false, false => none

/-- A decimal without zeros at the end of its coefficient. -/
def dropZeros (c : Nat) (g : Int) : Digits :=
  if h : 0 < c ∧ c % 10 = 0 then dropZeros (c / 10) (g + 1) else ⟨c, g⟩
termination_by c
decreasing_by omega

/-- The decimal with the fewest digits that reads back as `m · 2 ^ e`, for a
positive double. Seventeen digits are always enough. -/
def shortest (m : Nat) (e : Int) : Digits :=
  match (List.range 17).findSome? fun i => withDigits? m e (i + 1) with
  | some d => dropZeros d.coefficient d.exponent
  | none => ⟨m, 0⟩

end LeastSquares.Decimal
