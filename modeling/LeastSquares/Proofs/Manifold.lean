import LeastSquares.Cost.Manifold
import LeastSquares.Proofs.Matrices
import Mathlib.Logic.Relation

/-!
# What steps on a manifold keep

A point moves by one step after the other, each of them by the manifold.
Steps on a subset manifold leave all constant coordinates as they are, in any
arithmetic. A step of a quaternion is a product with a unit quaternion, and so
keeps the length.

## Main definitions

* `Manifold.Moves` — one step.
* `Manifold.Reaches` — any number of steps.

## Main results

* `Manifold.Reaches.get_subset` — constant coordinates stay.
* `Manifold.Reaches.norm_quaternion` — the length of a quaternion stays.
-/

namespace LeastSquares

namespace Manifold

variable {α : Type} [Scalar α] {m : Manifold α} {x y z : Vec α}

/-- A step leads from one point to another. -/
def Moves (m : Manifold α) (x y : Vec α) : Prop :=
  ∃ delta, x.size = m.ambient ∧ delta.size = m.tangent ∧ m.plus x delta = .ok y

/-- Steps lead from one point to another. -/
def Reaches (m : Manifold α) : Vec α → Vec α → Prop := Relation.ReflTransGen m.Moves

/-- What every step keeps stays. -/
theorem Reaches.eq {β : Type} {f : Vec α → β} (hf : ∀ {x y}, m.Moves x y → f y = f x)
    (h : m.Reaches x y) : f y = f x := by
  induction h with
  | refl => rfl
  | tail _ hmoves ih => exact (hf hmoves).trans ih

end Manifold

/-! ## Coordinates held constant -/

section Subsets

variable {α : Type} [Scalar α] {s : Subset} {x y : Vec α} {i n : Nat} {constant : List Nat}

/-- A coordinate that was listed is not free. -/
theorem Subset.not_mem_free (h : ofConstant? n constant = .ok s) (hi : i ∈ constant) :
    i ∉ s.free := by
  unfold ofConstant? at h
  split at h
  · cases h
  · dsimp only at h
    split at h
    · cases h
    · cases h
      intro hfree
      exact of_decide_eq_true (List.mem_filter.mp hfree).2 hi

theorem Subset.get_plus (hi : i ∉ s.free) (delta : Vec α) : (s.plus x delta).get i = x.get i := by
  by_cases hlt : i < x.size
  · rw [plus, Vec.get_ofFn_of_lt _ hlt, List.idxOf?_eq_none_iff.mpr hi]
  · have hle : x.size ≤ i := not_lt.mp hlt
    rw [Vec.get_of_le hle, plus, Vec.get_of_le (by rwa [Vec.size_ofFn])]

/-- Constant coordinates stay. -/
theorem Manifold.Reaches.get_subset (h : (Manifold.subset s).Reaches x y) (hi : i ∉ s.free) :
    y.get i = x.get i := by
  refine h.eq (f := fun v => v.get i) ?_
  rintro x y ⟨delta, -, -, hplus⟩
  change (if s.covers x delta then Except.ok (s.plus x delta) else .error Fault.sizeMismatch) =
    .ok y at hplus
  split at hplus
  · cases hplus
    exact Subset.get_plus hi delta
  · cases hplus

end Subsets

/-! ## Quaternions -/

section Quaternions

variable {x y delta p q : Vec ℝ}

/-- The sum of the squares of the four entries. -/
noncomputable def quaternionSq (q : Vec ℝ) : ℝ :=
  q.get 0 ^ 2 + q.get 1 ^ 2 + q.get 2 ^ 2 + q.get 3 ^ 2

theorem norm_eq_of_size (h : q.size = 4) : q.norm = √(quaternionSq q) := by
  rw [Vec.norm, real_sqrt, Vec.normSq, Vec.dot, h, quaternionSq]
  simp only [Scalar.sumTo_succ, Scalar.sumTo_zero, real_add, real_mul, real_zero, zero_add, sq]

/-- The square of the length of a product. -/
theorem quaternionSq_mul (p q : Vec ℝ) :
    quaternionSq (Manifold.quaternionMul p q) = quaternionSq p * quaternionSq q := by
  simp only [quaternionSq, Manifold.quaternionMul, Vec.get_ofFn_of_lt _ (show 0 < 4 by decide),
    Vec.get_ofFn_of_lt _ (show 1 < 4 by decide), Vec.get_ofFn_of_lt _ (show 2 < 4 by decide),
    Vec.get_ofFn_of_lt _ (show 3 < 4 by decide), real_add, real_sub, real_mul]
  ring

theorem sq_rotationAngle (delta : Vec ℝ) : Manifold.rotationAngle delta ^ 2 =
    delta.get 0 ^ 2 + delta.get 1 ^ 2 + delta.get 2 ^ 2 := by
  rw [Manifold.rotationAngle, real_sqrt]
  simp only [real_add, ← sq]
  exact Real.sq_sqrt (by positivity)

/-- A step keeps the sum of the squares. -/
theorem quaternionSq_plus (x delta : Vec ℝ) :
    quaternionSq (Manifold.quaternionPlus x delta) = quaternionSq x := by
  have hangle := sq_rotationAngle delta
  unfold Manifold.quaternionPlus
  dsimp only
  generalize Manifold.rotationAngle delta = t at hangle ⊢
  split
  · rfl
  · rename_i ht
    have ht : t ≠ 0 := fun hzero => ht ((real_beq t _).mpr (hzero.trans real_zero.symm))
    -- the factor is a unit quaternion
    have hunit : quaternionSq (Vec.ofFn 4 fun i => if i = 0 then Scalar.cos t
        else Scalar.sin t / t * delta.get (i - 1)) = 1 := by
      simp only [quaternionSq, Vec.get_ofFn_of_lt _ (show 0 < 4 by decide),
        Vec.get_ofFn_of_lt _ (show 1 < 4 by decide), Vec.get_ofFn_of_lt _ (show 2 < 4 by decide),
        Vec.get_ofFn_of_lt _ (show 3 < 4 by decide), if_true, one_ne_zero, if_false,
        OfNat.ofNat_ne_zero, Nat.sub_self, Nat.reduceSub]
      have hsin : (Real.sin t / t) ^ 2 * t ^ 2 = Real.sin t ^ 2 := by
        rw [div_pow, div_mul_cancel₀ _ (pow_ne_zero 2 ht)]
      calc Real.cos t ^ 2 + (Real.sin t / t * delta.get 0) ^ 2 +
            (Real.sin t / t * delta.get 1) ^ 2 + (Real.sin t / t * delta.get 2) ^ 2
          = Real.cos t ^ 2 + (Real.sin t / t) ^ 2 *
              (delta.get 0 ^ 2 + delta.get 1 ^ 2 + delta.get 2 ^ 2) := by ring
        _ = Real.cos t ^ 2 + Real.sin t ^ 2 := by rw [← hangle, hsin]
        _ = 1 := Real.cos_sq_add_sin_sq t
    rw [quaternionSq_mul, hunit, one_mul]

theorem Manifold.plus_quaternion (hx : x.size = 4) (hdelta : delta.size = 3) :
    Manifold.quaternion.plus x delta = .ok (Manifold.quaternionPlus x delta) := by
  simp only [Manifold.quaternion, hx, hdelta]
  rfl

theorem Manifold.size_quaternionPlus (hx : x.size = 4) (hdelta : delta.size = 3) :
    (Manifold.quaternionPlus x delta).size = 4 := by
  obtain ⟨y, hy, hsize⟩ := Manifold.quaternion.plus_ok x delta hx hdelta
  rw [Manifold.plus_quaternion hx hdelta] at hy
  cases hy
  exact hsize

/-- A step keeps the length. -/
theorem Manifold.norm_quaternionPlus (hx : x.size = 4) (hdelta : delta.size = 3) :
    (Manifold.quaternionPlus x delta).norm = x.norm := by
  rw [norm_eq_of_size (Manifold.size_quaternionPlus hx hdelta), norm_eq_of_size hx,
    quaternionSq_plus]

/-- The length of a quaternion stays. -/
theorem Manifold.Reaches.norm_quaternion (h : (Manifold.quaternion : Manifold ℝ).Reaches x y) :
    y.norm = x.norm := by
  refine h.eq ?_
  rintro x y ⟨delta, hx, hdelta, hplus⟩
  rw [Manifold.plus_quaternion hx hdelta] at hplus
  cases hplus
  exact Manifold.norm_quaternionPlus hx hdelta

end Quaternions

end LeastSquares
