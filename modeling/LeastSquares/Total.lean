/-!
# Totals

Sizes of blocks add up to sizes of problems, matrices and states.

## Main results

* `total_append` — the total of two lists, one after the other.
-/

namespace LeastSquares

/-- The sum of a list of numbers. -/
def total : List Nat → Nat
  | [] => 0
  | n :: rest => n + total rest

@[simp] theorem total_nil : total [] = 0 := rfl

@[simp] theorem total_cons (n : Nat) (l : List Nat) : total (n :: l) = n + total l := rfl

/-- Totals add up. -/
@[simp] theorem total_append (l k : List Nat) : total (l ++ k) = total l + total k := by
  induction l with
  | nil => simp
  | cons n l ih => simp [ih, Nat.add_assoc]

end LeastSquares
