import LeastSquares.Decimal.Text
import LeastSquares.Error.Kind

/-!
# Robust losses

A loss `ρ` is applied to the squared length `s` of a residual and bounds the
influence of outliers. Half of `ρ s` is the cost of the residual block. The
losses built here agree with `s` near zero up to second order, never exceed
it, and grow slower the further out they are:

* Huber: `s` up to `δ²`, then `2 δ √s - δ²`;
* soft L1: `2 δ² (√(1 + s / δ²) - 1)`;
* Cauchy: `δ² ln (1 + s / δ²)`;
* arctangent: `δ atan (s / δ)`.

Slopes are kept at or above the least positive number of full precision, so
that a far outlier never loses all of its weight.

## Main definitions

* `Loss` — a loss with its first two derivatives.
* `Loss.huber?`, `Loss.softL1?`, `Loss.cauchy?`, `Loss.arctan?` — the losses
  above, for a positive finite scale `δ`.
-/

namespace LeastSquares

/-- The value of a loss at one point, and its first two derivatives there. -/
structure LossValue (α : Type) where
  value : α
  slope : α
  curvature : α
deriving Repr

/-- A robust loss. -/
structure Loss (α : Type) where
  evaluate : α → LossValue α

/-- The families of losses that have a scale. -/
inductive LossFamily where
  | huber
  | softL1
  | cauchy
  | arctan
deriving DecidableEq, Repr

/-- The name of a family. -/
def LossFamily.name : LossFamily → String
  | huber => "Huber"
  | softL1 => "SoftLOne"
  | cauchy => "Cauchy"
  | arctan => "Arctan"

/-- A scale that is not a positive finite number. -/
structure ScaleError (α : Type) where
  family : LossFamily
  scale : α
deriving Repr

namespace ScaleError

variable {α : Type} [ScalarText α]

/-- What happened, in words. -/
def detail (e : ScaleError α) : String :=
  e.family.name ++ " scale needs to be a positive finite number, got " ++ ScalarText.plain e.scale

/-- The text of the error. -/
def message (e : ScaleError α) : String := ErrorKind.lossFunction.describe e.detail

end ScaleError

namespace Loss

variable {α : Type} [Scalar α]

/-- The scale, if it is positive and finite. -/
def checkScale (family : LossFamily) (scale : α) : Except (ScaleError α) α :=
  if scale ≤ 0 || !Scalar.isFinite scale then .error ⟨family, scale⟩ else .ok scale

/-- A slope that is not allowed to vanish. -/
def keepPositive (slope : α) : α := Scalar.max slope Scalar.minPositive

/-- The Huber loss with threshold `δ`. -/
def huber (δ : α) : Loss α where
  evaluate s :=
    let threshold := δ * δ
    if threshold < s then
      let r := Scalar.sqrt s
      let slope := keepPositive (δ / r)
      ⟨2.0 * δ * r - threshold, slope, -slope / (2.0 * s)⟩
    else ⟨s, 1, 0⟩

/-- The soft L1 loss. -/
def softL1 (δ : α) : Loss α where
  evaluate s :=
    let b := δ * δ
    let c := 1 / b
    let sum := 1 + s * c
    let root := Scalar.sqrt sum
    ⟨2.0 * b * (root - 1), keepPositive (1 / root), -(c * (1 / root)) / (2.0 * sum)⟩

/-- The Cauchy loss. -/
def cauchy (δ : α) : Loss α where
  evaluate s :=
    let b := δ * δ
    let c := 1 / b
    let sum := 1 + s * c
    let inverse := 1 / sum
    ⟨b * Scalar.log sum, keepPositive inverse, -c * (inverse * inverse)⟩

/-- The arctangent loss. -/
def arctan (δ : α) : Loss α where
  evaluate s :=
    let b := 1 / (δ * δ)
    let sum := 1 + s * s * b
    let inverse := 1 / sum
    ⟨δ * Scalar.atan (s / δ), keepPositive inverse, -2.0 * s * b * (inverse * inverse)⟩

/-- The Huber loss, for a usable threshold. -/
def huber? (δ : α) : Except (ScaleError α) (Loss α) := (checkScale .huber δ).map huber

/-- The soft L1 loss, for a usable scale. -/
def softL1? (δ : α) : Except (ScaleError α) (Loss α) := (checkScale .softL1 δ).map softL1

/-- The Cauchy loss, for a usable scale. -/
def cauchy? (δ : α) : Except (ScaleError α) (Loss α) := (checkScale .cauchy δ).map cauchy

/-- The arctangent loss, for a usable scale. -/
def arctan? (δ : α) : Except (ScaleError α) (Loss α) := (checkScale .arctan δ).map arctan

end Loss

end LeastSquares
