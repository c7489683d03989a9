import LeastSquares.Decimal.Digits
import LeastSquares.Scalar

/-!
# Text of numbers

A number is written in one of four forms. The plain form is the shortest
decimal that reads back, without an exponent however long that gets. The
exponent form is the same decimal as one digit, a point and a power of ten.
The scientific form has a fixed number of digits after the point, the fixed
form a fixed number of decimal places; both round the exact binary value,
a half to the even neighbour.

A power of ten is written without a plus sign and without padding. Zero
keeps its sign, and the special values are `NaN`, `inf` and `-inf` in every
form.

## Main definitions

* `plain`, `exponential`, `scientific`, `fixed` — the four forms.
* `seconds`, `milliseconds` — spans of time.
* `padLeft`, `padRight` — text set in a column.
* `ScalarText` — the scalars that have a text.
-/

namespace LeastSquares.Decimal

/-- The text of a value whose magnitude is written by `magnitude`, which gets
the mantissa and the binary exponent. -/
def signed (x : Float) (magnitude : Nat → Int → String) : String :=
  match Binary.ofFloat x with
  | .nan => "NaN"
  | .infinite negative => (if negative then "-" else "") ++ "inf"
  | .finite negative m e => (if negative then "-" else "") ++ magnitude m e

/-- `count` zeros. -/
def zeros (count : Nat) : String := String.ofList (List.replicate count '0')

/-- The digits of `n`, with zeros in front up to the given width. -/
def padded (n width : Nat) : String :=
  let digits := toString n
  zeros (width - digits.length) ++ digits

/-- `n / 10 ^ places` written out. -/
def withPoint (n places : Nat) : String :=
  if places = 0 then toString n
  else toString (n / Nat.pow 10 places) ++ "." ++ padded (n % Nat.pow 10 places) places

/-- A coefficient of `places + 1` digits and the power of ten of its first
digit. -/
def withExponent (c places : Nat) (k : Int) : String :=
  withPoint c places ++ "e" ++ toString k

/-- The plain form. -/
def plain (x : Float) : String :=
  signed x fun m e =>
    if m = 0 then "0"
    else
      let d := shortest m e
      if 0 ≤ d.exponent then toString d.coefficient ++ zeros d.exponent.toNat
      else withPoint d.coefficient (-d.exponent).toNat

/-- The exponent form. -/
def exponential (x : Float) : String :=
  signed x fun m e =>
    if m = 0 then "0e0"
    else
      let d := shortest m e
      let places := digitCount d.coefficient - 1
      withExponent d.coefficient places (d.exponent + places)

/-- The scientific form with `places` digits after the point. -/
def scientific (places : Nat) (x : Float) : String :=
  signed x fun m e =>
    if m = 0 then withExponent 0 places 0
    else
      let d := rounded (Binary.numerator m e) (Binary.denominator e) places
      withExponent d.coefficient places (d.exponent + places)

/-- The fixed form with `places` decimal places. -/
def fixed (places : Nat) (x : Float) : String :=
  signed x fun m e =>
    withPoint (roundHalfEven (Binary.numerator m e * Nat.pow 10 places) (Binary.denominator e)) places

/-- A number of nanoseconds as a number of seconds. -/
def secondsOf (nanoseconds : Nat) : Float :=
  Float.ofNat (nanoseconds / Nat.pow 10 9) + Float.ofNat (nanoseconds % Nat.pow 10 9) / 1e9

/-- A number of nanoseconds in seconds, with `places` decimal places. -/
def seconds (places nanoseconds : Nat) : String := fixed places (secondsOf nanoseconds)

/-- A number of nanoseconds in milliseconds, with `places` decimal places. -/
def milliseconds (places nanoseconds : Nat) : String :=
  fixed places (secondsOf nanoseconds * 1000.0)

/-- Text moved to the right edge of a column. -/
def padLeft (width : Nat) (s : String) : String :=
  String.ofList (List.replicate (width - s.length) ' ') ++ s

/-- Text at the left edge of a column. -/
def padRight (width : Nat) (s : String) : String :=
  s ++ String.ofList (List.replicate (width - s.length) ' ')

end LeastSquares.Decimal

namespace LeastSquares

/-- Scalars that can be written. -/
class ScalarText (α : Type) where
  /-- The shortest decimal that reads back, without an exponent. -/
  plain : α → String
  /-- The shortest decimal that reads back, with an exponent. -/
  exponential : α → String
  /-- The given number of digits after the point, with an exponent. -/
  scientific : Nat → α → String

instance instScalarTextFloat : ScalarText Float where
  plain := Decimal.plain
  exponential := Decimal.exponential
  scientific := Decimal.scientific

end LeastSquares
