import LeastSquares.Minimizer.Lbfgs

/-!
# The two loops of a quasi-Newton direction

One loop unwinds the pairs from the newest to the oldest and notes factors, the
other one winds them up again in the opposite order and takes the factors from
the back. A pair is therefore unwound before all older ones and wound up after
them, with its own factors. So the two loops are one recursion over the pairs,
the newest first.

## Main definitions

* `Lbfgs.inverse` — the recursion.

## Main results

* `Lbfgs.wind_unwound`, `Lbfgs.applyInverse_eq` — the loops come to the
  recursion.
-/

namespace LeastSquares.Lbfgs

variable {α : Type} [Scalar α]

/-- The approximate inverse made of pairs, the newest in front, on top of the
scale `gamma`, times a vector. -/
def inverse (gamma : α) : List (Correction α) → Vec α → Vec α
  | [], v => v.scale gamma
  | c :: older, v =>
      let rho := 1 / c.y.dot c.s
      let along := rho * c.s.dot v
      let r := inverse gamma older (v.addScaled (-along) c.y)
      let beta := rho * c.y.dot r
      r.addScaled (along - beta) c.s

/-- The factors are appended to those that were noted before. -/
theorem foldl_unwind (pairs : List (Correction α)) (v : Vec α) (noted : List (Unwound α)) :
    pairs.foldl unwind (v, noted) =
      ((pairs.foldl unwind (v, [])).1, noted ++ (pairs.foldl unwind (v, [])).2) := by
  induction pairs generalizing v noted with
  | nil => rw [List.foldl_nil, List.foldl_nil, List.append_nil]
  | cons c pairs ih =>
      rw [List.foldl_cons, List.foldl_cons, unwind, unwind, ih, ih _ ([] ++ _), List.nil_append,
        List.append_assoc]

theorem length_unwound (pairs : List (Correction α)) (v : Vec α) :
    (pairs.foldl unwind (v, [])).2.length = pairs.length := by
  induction pairs generalizing v with
  | nil => rfl
  | cons c pairs ih =>
      rw [List.foldl_cons, unwind, foldl_unwind, List.length_append, ih]
      exact Nat.add_comm 1 pairs.length

/-- Unwinding pairs and winding them up again in the opposite order. -/
theorem wind_unwound (gamma : α) (pairs : List (Correction α)) (v : Vec α) :
    (pairs.reverse.zip (pairs.foldl unwind (v, [])).2.reverse).foldl wind
      ((pairs.foldl unwind (v, [])).1.scale gamma) = inverse gamma pairs v := by
  induction pairs generalizing v with
  | nil => rfl
  | cons c older ih =>
      rw [List.foldl_cons, unwind, foldl_unwind, List.nil_append, List.singleton_append,
        List.reverse_cons, List.reverse_cons, List.zip_append, List.foldl_append, ih]
      · rfl
      · rw [List.length_reverse, List.length_reverse, length_unwound]

/-- The two loops of the approximate inverse come to the recursion. -/
theorem applyInverse_eq (m : Lbfgs α) (v : Vec α) :
    m.applyInverse v = inverse m.gamma m.pairs.reverse v := by
  rw [← wind_unwound, List.reverse_reverse]
  rfl

theorem size_inverse (gamma : α) (pairs : List (Correction α)) (v : Vec α) :
    (inverse gamma pairs v).size = v.size := by
  induction pairs generalizing v with
  | nil => exact Vec.size_scale _ _
  | cons c older ih => rw [inverse, Vec.size_addScaled, ih, Vec.size_addScaled]

theorem size_direction (m : Lbfgs α) (gradient : Vec α) :
    (m.direction gradient).size = gradient.size := by
  rw [direction, Vec.size_neg, applyInverse_eq, size_inverse]

end LeastSquares.Lbfgs
