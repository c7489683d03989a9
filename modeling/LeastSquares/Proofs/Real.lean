import LeastSquares.Decimal.Text
import LeastSquares.Proofs.Cost
import Mathlib.Analysis.SpecialFunctions.Pow.Real
import Mathlib.Analysis.SpecialFunctions.Trigonometric.Arctan

/-!
# Exact arithmetic

The algorithms read at the real numbers. Comparisons are those of the real
numbers, every value is finite, and none differs from itself. The numbers
that stand for limits of a format are those of double precision.

Over exact arithmetic the order in which costs are added up does not matter.

## Main definitions

* `realScalar` — the real numbers as scalars.

## Main results

* `addCosts_perm`, `addCosts_shift` — sums of costs in another order, and on
  top of another cost.
-/

namespace LeastSquares

open scoped Classical in
/-- The arithmetic of the real numbers. -/
noncomputable instance realScalar : Scalar ℝ where
  ofNat := fun n => (n : ℝ)
  ofDecimal := OfScientific.ofScientific
  add := fun a b => a + b
  sub := fun a b => a - b
  mul := fun a b => a * b
  div := fun a b => a / b
  neg := fun a => -a
  abs := fun a => |a|
  sqrt := Real.sqrt
  sin := Real.sin
  cos := Real.cos
  exp := Real.exp
  log := Real.log
  atan := Real.arctan
  lt := fun a b => decide (a < b)
  le := fun a b => decide (a ≤ b)
  beq := fun a b => decide (a = b)
  isFinite := fun _ => true
  totalLe := fun a b => decide (a ≤ b)
  infinity := 2 ^ 1024
  lowest := -1.7976931348623157e308
  minPositive := 2.2250738585072014e-308
  epsilon := 2.220446049250313e-16
  tau := 2 * Real.pi

/-- Real numbers in reports are cut to integers. -/
noncomputable instance : ScalarText ℝ where
  plain a := toString ⌊a⌋
  exponential a := toString ⌊a⌋
  scientific _ a := toString ⌊a⌋

/-! ## Reading the operations -/

section Operations

variable (a b : ℝ)

@[simp] theorem real_add : @HAdd.hAdd ℝ ℝ ℝ (@instHAdd ℝ instAddOfScalar) a b = a + b := rfl

@[simp] theorem real_sub : @HSub.hSub ℝ ℝ ℝ (@instHSub ℝ instSubOfScalar) a b = a - b := rfl

@[simp] theorem real_mul : @HMul.hMul ℝ ℝ ℝ (@instHMul ℝ instMulOfScalar) a b = a * b := rfl

@[simp] theorem real_div : @HDiv.hDiv ℝ ℝ ℝ (@instHDiv ℝ instDivOfScalar) a b = a / b := rfl

@[simp] theorem real_neg : @Neg.neg ℝ instNegOfScalar a = -a := rfl

@[simp] theorem real_zero : @OfNat.ofNat ℝ 0 (@Zero.toOfNat0 ℝ instZeroOfScalar) = 0 :=
  Nat.cast_zero

@[simp] theorem real_one : @OfNat.ofNat ℝ 1 (@One.toOfNat1 ℝ instOneOfScalar) = 1 :=
  Nat.cast_one

@[simp] theorem real_ofScientific (m : Nat) (s : Bool) (e : Nat) :
    @OfScientific.ofScientific ℝ instOfScientificOfScalar m s e = OfScientific.ofScientific m s e :=
  rfl

theorem real_two : (2.0 : ℝ) = 2 := by norm_num

@[simp] theorem real_lt : @LT.lt ℝ instLTOfScalar a b ↔ a < b := decide_eq_true_iff

@[simp] theorem real_le : @LE.le ℝ instLEOfScalar a b ↔ a ≤ b := decide_eq_true_iff

@[simp] theorem real_beq : @BEq.beq ℝ instBEqOfScalar a b = true ↔ a = b := decide_eq_true_iff

@[simp] theorem real_sqrt : Scalar.sqrt a = √a := rfl

@[simp] theorem real_isFinite : Scalar.isFinite a = true := rfl

@[simp] theorem real_totalLe : Scalar.totalLe a b = true ↔ a ≤ b := decide_eq_true_iff

@[simp] theorem real_isNaN : Scalar.isNaN a = false := by
  show (!decide (a = a)) = false
  simp

theorem real_max : Scalar.max a b = max a b := by
  unfold Scalar.max
  simp only [real_isNaN, real_lt, Bool.false_eq_true, if_false]
  exact (max_def_lt a b).symm

theorem real_min : Scalar.min a b = min a b := by
  unfold Scalar.min
  simp only [real_isNaN, real_lt, Bool.false_eq_true, if_false]
  exact (min_comm a b).trans (min_def_lt b a) |>.symm

/-- Clamping to bounds that are in order. -/
theorem clamp_mem {lo hi : ℝ} (h : lo ≤ hi) :
    lo ≤ Scalar.clamp lo hi a ∧ Scalar.clamp lo hi a ≤ hi := by
  unfold Scalar.clamp
  simp only [real_lt]
  split
  · exact ⟨le_refl lo, h⟩
  · rename_i hlo
    split
    · exact ⟨h, le_refl hi⟩
    · rename_i hhi
      exact ⟨not_lt.mp hlo, not_lt.mp hhi⟩

end Operations

theorem real_epsilon_pos : 0 < (Scalar.epsilon : ℝ) := by
  show (0 : ℝ) < 2.220446049250313e-16
  norm_num

theorem real_minPositive : (Scalar.minPositive : ℝ) = 22250738585072014 / 10 ^ 324 := by
  show OfScientific.ofScientific 22250738585072014 true 324 = _
  rw [NNRatCast.ofScientific_eq_ite, if_pos rfl, NNRat.cast_divNat]
  norm_num

theorem real_minPositive_pos : 0 < (Scalar.minPositive : ℝ) := by
  rw [real_minPositive]
  positivity

theorem real_minPositive_le_one : (Scalar.minPositive : ℝ) ≤ 1 := by
  rw [real_minPositive]
  refine (div_le_one (by positivity)).mpr ?_
  calc (22250738585072014 : ℝ) ≤ 10 ^ 17 := by norm_num
    _ ≤ 10 ^ 324 := pow_le_pow_right₀ (by norm_num) (by norm_num)

/-! ## Sums of costs -/

theorem addCosts_append {α : Type} [Scalar α] (cost : α) (l k : List (Option α)) :
    addCosts cost (l ++ k) = (addCosts cost l).bind fun c => addCosts c k := by
  induction l generalizing cost with
  | nil => rfl
  | cons o l ih =>
      cases o with
      | none => rfl
      | some c => exact ih (cost + c)

/-- Costs can be added up in any order. -/
theorem addCosts_perm {l k : List (Option ℝ)} (h : l.Perm k) (cost : ℝ) :
    addCosts cost l = addCosts cost k := by
  induction h generalizing cost with
  | nil => rfl
  | cons o _ ih =>
      cases o with
      | none => rfl
      | some c => exact ih _
  | swap o o' l =>
      cases o with
      | none => cases o' <;> rfl
      | some c =>
          cases o' with
          | none => rfl
          | some c' =>
              show addCosts (cost + c' + c) l = addCosts (cost + c + c') l
              congr 1
              exact add_right_comm cost c' c
  | trans _ _ ih ih' => rw [ih, ih']

/-- A cost that was there before comes on top of the sum. -/
theorem addCosts_shift (before cost : ℝ) (l : List (Option ℝ)) :
    addCosts (before + cost) l = (addCosts cost l).map fun c => before + c := by
  induction l generalizing cost with
  | nil => rfl
  | cons o l ih =>
      cases o with
      | none => rfl
      | some c =>
          have hassoc : addCosts (before + cost + c) l = addCosts (before + (cost + c)) l :=
            congrArg (fun s => addCosts s l) (add_assoc before cost c)
          exact hassoc.trans (ih (cost + c))

theorem addCosts_eq_map (cost : ℝ) (l : List (Option ℝ)) :
    addCosts cost l = (addCosts 0 l).map fun c => cost + c := by
  rw [← addCosts_shift]
  congr 1
  exact (add_zero cost).symm

end LeastSquares
