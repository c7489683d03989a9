import LeastSquares.Linear.Householder
import LeastSquares.Proofs.Matrices

/-!
# Least squares by reflections over the real numbers

In exact arithmetic the reflection of a column is orthogonal and turns every
column that is not zero onto the first axis. If the columns of a matrix are
independent, those of the smaller matrix below are independent as well, so the
factorization goes through, and what substitution makes of it leaves a residual
that is orthogonal to every column.

## Main definitions

* `Reflection.matrix` — the matrix of a reflection.
* `combination`, `Independent` — combinations of columns.

## Main results

* `Reflection.ofColumn?_spec` — the reflection of a column.
* `OrthogonalFactors.ofColumns?_spec` — the factors of independent columns.
* `size_leastSquares?` — the minimizer has an entry for every column.
* `leastSquares?_spec` — the minimizer solves the normal equations.
-/

namespace LeastSquares

open Matrix
open Finset (range)

/-! ## Sizes -/

section Sizes

variable {α : Type} [Scalar α]

namespace OrthogonalFactors

/-- There is a basis vector and a row of the triangle for every column. -/
theorem length_ofColumns? {n : Nat} {columns : List (Vec α)} {f : OrthogonalFactors α}
    (hn : columns.length = n) (h : ofColumns? columns = some f) :
    f.basis.length = n ∧ f.triangle.length = n := by
  -- on the number of columns, since those below are other ones
  induction n generalizing columns f with
  | zero =>
      obtain rfl := List.length_eq_zero_iff.mp hn
      rw [ofColumns?] at h
      cases h
      exact ⟨rfl, rfl⟩
  | succ n ih =>
      obtain ⟨c, columns, rfl⟩ := List.exists_cons_of_length_eq_add_one hn
      rw [ofColumns?] at h
      split at h
      · cases h
      · rename_i r _
        split at h
        · cases h
        · rename_i below hbelow
          cases h
          obtain ⟨hbasis, htriangle⟩ :=
            ih ((List.length_map _).trans (Nat.succ.inj hn)) hbelow
          refine ⟨?_, congrArg (· + 1) htriangle⟩
          rw [List.length_map, List.length_cons, List.length_map, hbasis]

theorem length_substitute? {triangle : List (α × List α)} {ys x : List α}
    (hlen : ys.length = triangle.length) (h : substitute? triangle ys = some x) :
    x.length = triangle.length := by
  induction triangle generalizing ys x with
  | nil =>
      rw [substitute?] at h
      · cases h
        rfl
      · exact nofun
  | cons row triangle ih =>
      cases ys with
      | nil => cases hlen
      | cons y ys =>
          rw [substitute?] at h
          split at h
          · cases h
          · rename_i rest hrest
            split at h
            · cases h
            · cases h
              exact congrArg (· + 1) (ih (Nat.succ.inj hlen) hrest)

end OrthogonalFactors

/-- There is an entry for every column. -/
theorem size_leastSquares? {a : Mat α} {b x : Vec α} (h : leastSquares? a b = some x) :
    x.size = a.cols := by
  unfold leastSquares? at h
  split at h
  · cases h
  · rename_i f hf
    obtain ⟨l, hl, rfl⟩ := Option.map_eq_some_iff.mp h
    have hcolumns : ((List.range a.cols).map a.col).length = a.cols := by
      rw [List.length_map, List.length_range]
    obtain ⟨hbasis, htriangle⟩ := OrthogonalFactors.length_ofColumns? hcolumns hf
    have hlen : (f.basis.map fun q => q.dot b).length = f.triangle.length := by
      rw [List.length_map, hbasis, htriangle]
    rw [Vec.size_ofList, OrthogonalFactors.length_substitute? hlen hl, htriangle]

end Sizes

/-! ## Vectors without their first entry -/

namespace Vec

variable {n : Nat} {u v : Vec ℝ}

theorem get_set_self {i : Nat} (hi : i < v.size) (s : ℝ) : (v.set i s).get i = s := by
  simp [set, get, Array.getD_eq_getD_getElem?, Array.getElem?_setIfInBounds_self_of_lt hi]

theorem get_set_of_ne {i j : Nat} (h : i ≠ j) (s : ℝ) : (v.set i s).get j = v.get j := by
  simp [set, get, Array.getD_eq_getD_getElem?, Array.getElem?_setIfInBounds_ne h]

theorem get_ofList_of_lt {l : List ℝ} {i : Nat} (hi : i < l.length) : (ofList l).get i = l[i] := by
  simp [ofList, get, Array.getD_eq_getD_getElem?, hi]

@[simp] theorem size_tail (v : Vec ℝ) : v.tail.size = v.size - 1 := size_slice _ _ _

theorem toFun_tail (hv : v.size = n + 1) : v.tail.toFun n = Fin.tail (v.toFun (n + 1)) := by
  funext i
  have hi : (i : Nat) < v.size - 1 := hv ▸ i.isLt
  rw [toFun_apply, tail, get_slice hi, Nat.add_comm]
  rfl

theorem toFun_cons (s : ℝ) (v : Vec ℝ) :
    (cons s v).toFun (n + 1) = Fin.cons s (v.toFun n) := by
  funext i
  induction i using Fin.cases with
  | zero => exact get_cons_zero s v
  | succ i => exact get_cons_succ s v i

/-- An inner product, the first entries apart. -/
theorem cons_dotProduct (s : ℝ) (f : Fin n → ℝ) (g : Fin (n + 1) → ℝ) :
    (Fin.cons s f : Fin (n + 1) → ℝ) ⬝ᵥ g = s * g 0 + f ⬝ᵥ Fin.tail g := by
  rw [dotProduct, Fin.sum_univ_succ]
  rfl

end Vec

/-! ## One reflection -/

namespace Reflection

variable {r : Reflection ℝ} {v c : Vec ℝ} {m n : Nat}

/-- The matrix of a reflection. -/
noncomputable def matrix (r : Reflection ℝ) (m : Nat) : Matrix (Fin m) (Fin m) ℝ :=
  r.sign • (1 - (2.0 : ℝ) • vecMulVec (r.axis.toFun m) (r.axis.toFun m))

theorem matrix_eq (r : Reflection ℝ) (m : Nat) :
    r.matrix m = r.sign • (1 - (2 : ℝ) • vecMulVec (r.axis.toFun m) (r.axis.toFun m)) := by
  rw [matrix, real_two]

/-- The axis is a unit vector and the sign is one. -/
structure Orthogonal (r : Reflection ℝ) (m : Nat) : Prop where
  size : r.axis.size = m
  unit : r.axis.toFun m ⬝ᵥ r.axis.toFun m = 1
  sign : r.sign * r.sign = 1

@[simp] theorem size_apply (r : Reflection ℝ) (v : Vec ℝ) : (r.apply v).size = v.size :=
  Vec.size_ofFn _ _

theorem matrix_mulVec (r : Reflection ℝ) (v : Fin m → ℝ) :
    r.matrix m *ᵥ v = r.sign • (v - (2 * (r.axis.toFun m ⬝ᵥ v)) • r.axis.toFun m) := by
  rw [matrix_eq, smul_mulVec, sub_mulVec, one_mulVec, smul_mulVec, vecMulVec_mulVec,
    op_smul_eq_smul, smul_smul]

theorem toFun_apply (hr : r.Orthogonal m) (hv : v.size = m) :
    (r.apply v).toFun m = r.matrix m *ᵥ v.toFun m := by
  rw [matrix_mulVec, ← Vec.dot_eq_dotProduct hr.size]
  funext i
  have hi : (i : Nat) < v.size := hv ▸ i.isLt
  simp only [Vec.toFun_apply, apply, Vec.get_ofFn_of_lt _ hi, Pi.smul_apply, Pi.sub_apply,
    smul_eq_mul, real_add, real_mul, real_neg, real_two]
  ring

theorem transpose_matrix (r : Reflection ℝ) (m : Nat) : (r.matrix m)ᵀ = r.matrix m := by
  rw [matrix_eq, transpose_smul, transpose_sub, transpose_one, transpose_smul, transpose_vecMulVec]

theorem matrix_mul_self (hr : r.Orthogonal m) : r.matrix m * r.matrix m = 1 := by
  have hsquare : vecMulVec (r.axis.toFun m) (r.axis.toFun m) *
      vecMulVec (r.axis.toFun m) (r.axis.toFun m) =
        vecMulVec (r.axis.toFun m) (r.axis.toFun m) := by
    rw [vecMulVec_mul_vecMulVec, hr.unit, one_smul]
  rw [matrix_eq, Matrix.smul_mul, Matrix.mul_smul, smul_smul, hr.sign, one_smul, Matrix.sub_mul,
    Matrix.one_mul, Matrix.mul_sub, Matrix.mul_one, Matrix.smul_mul, Matrix.mul_smul, hsquare]
  module

/-- A reflection is its own adjoint. -/
theorem mulVec_dotProduct (r : Reflection ℝ) (u v : Fin m → ℝ) :
    r.matrix m *ᵥ u ⬝ᵥ v = u ⬝ᵥ r.matrix m *ᵥ v := by
  rw [dotProduct_mulVec, ← mulVec_transpose, transpose_matrix]

/-- A reflection keeps inner products. -/
theorem mulVec_dotProduct_mulVec (hr : r.Orthogonal m) (u v : Fin m → ℝ) :
    r.matrix m *ᵥ u ⬝ᵥ r.matrix m *ᵥ v = u ⬝ᵥ v := by
  rw [mulVec_dotProduct, mulVec_mulVec, matrix_mul_self hr, one_mulVec]

theorem eq_zero_of_mulVec (hr : r.Orthogonal m) {u : Fin m → ℝ} (h : r.matrix m *ᵥ u = 0) :
    u = 0 := by
  rw [← one_mulVec u, ← matrix_mul_self hr, ← mulVec_mulVec, h, mulVec_zero]

/-! ## The reflection of a column -/

/-- The sum of squares of a column, with that of its first entry apart. -/
theorem normSq_eq_add (hc : c.size = n + 1) :
    c.normSq = c.get 0 * c.get 0 + c.tail.toFun n ⬝ᵥ c.tail.toFun n := by
  rw [Vec.normSq, Vec.dot_eq_dotProduct hc, dotProduct, Fin.sum_univ_succ, Vec.toFun_tail hc]
  rfl

theorem toFun_eq_cons (hc : c.size = n + 1) :
    c.toFun (n + 1) = Fin.cons (c.get 0) (c.tail.toFun n) := by
  rw [Vec.toFun_tail hc]
  exact (Fin.cons_self_tail _).symm

/-- Twice the squared length of the axis before it is scaled to a unit. -/
noncomputable def factor (c : Vec ℝ) (σ : ℝ) : ℝ := (c.normSq + σ * c.get 0 * √c.normSq) * 2.0

theorem factor_eq (c : Vec ℝ) (σ : ℝ) :
    factor c σ = (c.normSq + σ * c.get 0 * √c.normSq) * 2 := by
  rw [factor, real_two]

/-- The axis before its length is divided out once more. -/
noncomputable def rawAxis (c : Vec ℝ) (σ : ℝ) : Vec ℝ :=
  (c.set 0 (c.get 0 + σ * √c.normSq)).map fun a => a / √(factor c σ)

/-- The reflection of a column whose first entry has the given sign. -/
noncomputable def ofSign (c : Vec ℝ) (σ : ℝ) : Reflection ℝ :=
  ⟨(rawAxis c σ).map fun a => a / (rawAxis c σ).norm, -σ, √c.normSq⟩

/-- The modulus of a number and its sign. -/
def modulusSign {α : Type} [Scalar α] (h : α) : α × α := if 0 ≤ h then (h, 1) else (-h, -1)

theorem exists_modulusSign (h : ℝ) :
    ∃ σ : ℝ, σ * σ = 1 ∧ 0 ≤ σ * h ∧ modulusSign h = (σ * h, σ) := by
  by_cases hh : 0 ≤ h
  · refine ⟨1, one_mul 1, by rwa [one_mul], ?_⟩
    rw [modulusSign, if_pos (by simpa using hh), one_mul, real_one]
  · refine ⟨-1, by norm_num, by linarith, ?_⟩
    rw [modulusSign, if_neg (by simpa using hh), neg_one_mul, real_neg, real_neg, real_one]

theorem ofColumn?_eq {σ : ℝ} (hσ : modulusSign (c.get 0) = (σ * c.get 0, σ))
    (hne : factor c σ ≠ 0) : ofColumn? c = some (ofSign c σ) := by
  rw [modulusSign] at hσ
  rw [ofColumn?]
  simp only [hσ, real_sqrt, real_add, real_mul]
  rw [← factor]
  exact if_neg (by simpa using hne)

/-- The entries of the axis: only the first one differs from the column's. -/
theorem toFun_rawAxis (hc : c.size = n + 1) (σ : ℝ) :
    (rawAxis c σ).toFun (n + 1) = Fin.cons ((c.get 0 + σ * √c.normSq) / √(factor c σ))
      ((√(factor c σ))⁻¹ • c.tail.toFun n) := by
  have hsize : ∀ i < n + 1, i < (c.set 0 (c.get 0 + σ * √c.normSq)).size :=
    fun i hi => by rwa [Vec.size_set, hc]
  funext i
  rw [Vec.toFun_apply, rawAxis, Vec.get_map _ (hsize i i.isLt)]
  induction i using Fin.cases with
  | zero =>
      rw [Fin.val_zero, Vec.get_set_self (by omega), Fin.cons_zero]
  | succ i =>
      rw [Fin.val_succ, Vec.get_set_of_ne (Nat.succ_ne_zero _).symm, Fin.cons_succ, Pi.smul_apply,
        Vec.toFun_tail hc, smul_eq_mul, div_eq_inv_mul]
      rfl

section Axis

variable {σ : ℝ}

/-- The axis is a unit before its length is divided out. -/
theorem rawAxis_unit (hc : c.size = n + 1) (hσ : σ * σ = 1) (hpos : 0 < c.normSq)
    (hfactor : 0 < factor c σ) :
    (rawAxis c σ).toFun (n + 1) ⬝ᵥ (rawAxis c σ).toFun (n + 1) = 1 := by
  have hsum := normSq_eq_add hc
  have hroot : 0 < √c.normSq := Real.sqrt_pos.mpr hpos
  have hsquare : √c.normSq * √c.normSq = c.normSq := Real.mul_self_sqrt hpos.le
  have hg : 0 < √(factor c σ) := Real.sqrt_pos.mpr hfactor
  have hgsquare : √(factor c σ) * √(factor c σ) = (c.normSq + σ * c.get 0 * √c.normSq) * 2 :=
    (Real.mul_self_sqrt hfactor.le).trans (factor_eq c σ)
  rw [toFun_rawAxis hc, Vec.cons_dotProduct, Fin.cons_zero, Fin.tail_cons, smul_dotProduct,
    dotProduct_smul, smul_eq_mul, smul_eq_mul]
  field_simp
  linear_combination √c.normSq ^ 2 * hσ + hsquare - hsum - hgsquare

theorem rawAxis_dotProduct (hc : c.size = n + 1) (hfactor : 0 < factor c σ) :
    (rawAxis c σ).toFun (n + 1) ⬝ᵥ c.toFun (n + 1) = √(factor c σ) / 2 := by
  have hsum := normSq_eq_add hc
  have hg : 0 < √(factor c σ) := Real.sqrt_pos.mpr hfactor
  have hgsquare : √(factor c σ) * √(factor c σ) = (c.normSq + σ * c.get 0 * √c.normSq) * 2 :=
    (Real.mul_self_sqrt hfactor.le).trans (factor_eq c σ)
  rw [toFun_rawAxis hc, toFun_eq_cons hc, Vec.cons_dotProduct, Fin.cons_zero, Fin.tail_cons,
    smul_dotProduct, smul_eq_mul]
  field_simp
  linear_combination -2 * hsum - hgsquare

/-- Dividing a unit by its length changes nothing. -/
theorem toFun_axis_ofSign (hc : c.size = n + 1)
    (hunit : (rawAxis c σ).toFun (n + 1) ⬝ᵥ (rawAxis c σ).toFun (n + 1) = 1) :
    (ofSign c σ).axis.toFun (n + 1) = (rawAxis c σ).toFun (n + 1) := by
  have hsize : (rawAxis c σ).size = n + 1 := by rw [rawAxis, Vec.size_map, Vec.size_set, hc]
  have hnorm : (rawAxis c σ).norm = 1 := by
    rw [Vec.norm, Vec.normSq, Vec.dot_eq_dotProduct hsize, hunit, real_sqrt, Real.sqrt_one]
  funext i
  rw [Vec.toFun_apply, ofSign, Vec.get_map _ (i.isLt.trans_eq hsize.symm), hnorm, div_one]
  rfl

end Axis

/-- A column that is not zero is turned onto the first axis. -/
theorem ofColumn?_spec (hc : c.size = n + 1) (hne : c.toFun (n + 1) ≠ 0) :
    ∃ r, ofColumn? c = some r ∧ r.Orthogonal (n + 1) ∧ 0 < r.corner ∧
      r.matrix (n + 1) *ᵥ c.toFun (n + 1) = Fin.cons r.corner 0 := by
  obtain ⟨σ, hσ, hnonneg, hsign⟩ := exists_modulusSign (c.get 0)
  have hpos : 0 < c.normSq := by
    refine lt_of_le_of_ne (Vec.normSq_nonneg c) (Ne.symm ?_)
    rwa [Vec.normSq, Vec.dot_eq_dotProduct hc, Ne, dotProduct_self_eq_zero]
  have hroot : 0 < √c.normSq := Real.sqrt_pos.mpr hpos
  have hfactor : 0 < factor c σ := by
    rw [factor_eq]
    positivity
  have hg : 0 < √(factor c σ) := Real.sqrt_pos.mpr hfactor
  have hunit := rawAxis_unit hc hσ hpos hfactor
  have hsame := toFun_axis_ofSign hc hunit
  refine ⟨ofSign c σ, ofColumn?_eq hsign hfactor.ne', ⟨?_, ?_, ?_⟩, hroot, ?_⟩
  · rw [ofSign, Vec.size_map, rawAxis, Vec.size_map, Vec.size_set, hc]
  · rw [hsame, hunit]
  · exact (neg_mul_neg σ σ).trans hσ
  · rw [matrix_mulVec, hsame, rawAxis_dotProduct hc hfactor, mul_div_cancel₀ _ two_ne_zero,
      toFun_rawAxis hc, toFun_eq_cons hc]
    funext i
    simp only [Pi.smul_apply, Pi.sub_apply, smul_eq_mul]
    induction i using Fin.cases with
    | zero =>
        rw [Fin.cons_zero, Fin.cons_zero, Fin.cons_zero, mul_div_cancel₀ _ hg.ne']
        show -σ * (c.get 0 - (c.get 0 + σ * √c.normSq)) = √c.normSq
        linear_combination √c.normSq * hσ
    | succ i =>
        rw [Fin.cons_succ, Fin.cons_succ, Fin.cons_succ, Pi.smul_apply, smul_eq_mul,
          mul_inv_cancel_left₀ hg.ne', sub_self, mul_zero]
        rfl

end Reflection

/-! ## Independent columns -/

section Combinations

variable {m n : Nat} {c : Vec ℝ} {columns : List (Vec ℝ)} {xs : List ℝ}

/-- The combination of columns with the given coefficients. -/
noncomputable def combination (m : Nat) (columns : List (Vec ℝ)) (xs : List ℝ) : Fin m → ℝ :=
  (List.zipWith (fun c x => x • c.toFun m) columns xs).sum

@[simp] theorem combination_nil (m : Nat) (xs : List ℝ) : combination m [] xs = 0 := rfl

@[simp] theorem combination_cons (m : Nat) (c : Vec ℝ) (columns : List (Vec ℝ)) (x : ℝ)
    (xs : List ℝ) : combination m (c :: columns) (x :: xs) =
      x • c.toFun m + combination m columns xs := by
  rw [combination, List.zipWith_cons_cons, List.sum_cons, combination]

/-- A linear map takes a combination to the combination of the images. -/
theorem combination_map {f : Vec ℝ → Vec ℝ} (g : (Fin m → ℝ) →ₗ[ℝ] (Fin n → ℝ))
    (hf : ∀ c ∈ columns, (f c).toFun n = g (c.toFun m)) (xs : List ℝ) :
    combination n (columns.map f) xs = g (combination m columns xs) := by
  induction columns generalizing xs with
  | nil => exact (map_zero g).symm
  | cons c columns ih =>
      cases xs with
      | nil => exact (map_zero g).symm
      | cons x xs =>
          rw [List.map_cons, combination_cons, combination_cons, map_add, map_smul,
            hf c List.mem_cons_self, ih fun c hc => hf c (List.mem_cons_of_mem _ hc)]

/-- Only the coefficients zero combine the columns to zero. -/
def Independent (m : Nat) (columns : List (Vec ℝ)) : Prop :=
  ∀ xs : List ℝ, xs.length = columns.length → combination m columns xs = 0 → ∀ x ∈ xs, x = 0

theorem combination_replicate_zero (m : Nat) (columns : List (Vec ℝ)) :
    combination m columns (List.replicate columns.length 0) = 0 := by
  induction columns with
  | nil => rfl
  | cons c columns ih =>
      rw [List.length_cons, List.replicate_succ, combination_cons, ih, zero_smul, add_zero]

/-- The first of independent columns is not zero. -/
theorem Independent.ne_zero (h : Independent m (c :: columns)) : c.toFun m ≠ 0 := by
  intro hc
  have hone : (1 : ℝ) = 0 := by
    refine h (1 :: List.replicate columns.length 0) ?_ ?_ 1 List.mem_cons_self
    · rw [List.length_cons, List.length_replicate, List.length_cons]
    · rw [combination_cons, hc, smul_zero, zero_add, combination_replicate_zero]
  exact one_ne_zero hone

end Combinations

/-! ## Factors -/

namespace OrthogonalFactors

variable {r : Reflection ℝ} {c b : Vec ℝ} {columns : List (Vec ℝ)} {m n : Nat}

/-- What a reflection leaves of a column below the first row. -/
noncomputable def remainder (r : Reflection ℝ) (v : Vec ℝ) : Vec ℝ := (r.apply v).tail

/-- Reflecting and dropping the first entry, as a linear map. -/
noncomputable def remainderMap (r : Reflection ℝ) (n : Nat) : (Fin (n + 1) → ℝ) →ₗ[ℝ] (Fin n → ℝ) :=
  (LinearMap.funLeft ℝ ℝ Fin.succ) ∘ₗ (r.matrix (n + 1)).mulVecLin

theorem remainderMap_apply (r : Reflection ℝ) (u : Fin (n + 1) → ℝ) :
    remainderMap r n u = Fin.tail (r.matrix (n + 1) *ᵥ u) := rfl

theorem toFun_remainder (hr : r.Orthogonal (n + 1)) (hc : c.size = n + 1) :
    (remainder r c).toFun n = remainderMap r n (c.toFun (n + 1)) := by
  rw [remainder, Vec.toFun_tail ((r.size_apply c).trans hc), r.toFun_apply hr hc,
    remainderMap_apply]

theorem size_remainder (hc : c.size = n + 1) : (remainder r c).size = n := by
  rw [remainder, Vec.size_tail, r.size_apply, hc, Nat.add_sub_cancel]

section Step

variable {below : OrthogonalFactors ℝ} (hr : r.Orthogonal (n + 1))
  (hturn : r.matrix (n + 1) *ᵥ c.toFun (n + 1) = Fin.cons r.corner 0) (hcorner : 0 < r.corner)
  (hsize : ∀ v ∈ columns, v.size = n + 1)

include hr hsize in
theorem combination_remainder (xs : List ℝ) :
    combination n (columns.map (remainder r)) xs =
      Fin.tail (r.matrix (n + 1) *ᵥ combination (n + 1) columns xs) :=
  combination_map (remainderMap r n) (fun v hv => toFun_remainder hr (hsize v hv)) xs

include hr hturn hcorner hsize in
/-- What a reflection leaves of independent columns is independent: a relation
among the remainders extends to one among the columns. -/
theorem independent_remainder (h : Independent (n + 1) (c :: columns)) :
    Independent n (columns.map (remainder r)) := by
  intro xs hlen hzero
  rw [combination_remainder hr hsize] at hzero
  rw [List.length_map] at hlen
  let u := r.matrix (n + 1) *ᵥ combination (n + 1) columns xs
  have hwhole : combination (n + 1) (c :: columns) (-(u 0 / r.corner) :: xs) = 0 := by
    refine r.eq_zero_of_mulVec hr ?_
    rw [combination_cons, mulVec_add, mulVec_smul, hturn]
    funext i
    induction i using Fin.cases with
    | zero =>
        show -(u 0 / r.corner) * r.corner + u 0 = 0
        rw [neg_mul, div_mul_cancel₀ _ hcorner.ne', neg_add_cancel]
    | succ i =>
        show -(u 0 / r.corner) * 0 + u i.succ = 0
        rw [mul_zero, zero_add]
        exact congrFun hzero i
  intro x hx
  exact h _ (congrArg (· + 1) hlen) hwhole x (List.mem_cons_of_mem _ hx)

/-- The factors of a matrix from the reflection of its first column and the
factors of what that leaves. -/
noncomputable def extend (r : Reflection ℝ) (c : Vec ℝ) (columns : List (Vec ℝ))
    (below : OrthogonalFactors ℝ) : OrthogonalFactors ℝ where
  basis := (Vec.unit c.size 0 :: below.basis.map (Vec.cons 0)).map r.apply
  triangle := (r.corner, columns.map fun v => (r.apply v).get 0) :: below.triangle

/-- The factors solve every least squares problem with these columns: what is
left of the right-hand side is orthogonal to each of them. -/
structure Solves (f : OrthogonalFactors ℝ) (m : Nat) (columns : List (Vec ℝ)) : Prop where
  size : ∀ q ∈ f.basis, q.size = m
  solve : ∀ b : Vec ℝ, b.size = m → ∃ xs, f.solve? b = some xs ∧ xs.length = columns.length ∧
    ∀ c ∈ columns, c.toFun m ⬝ᵥ (b.toFun m - combination m columns xs) = 0

include hr hsize in
/-- Taking off the known terms of a row. -/
theorem foldr_row (xs : List ℝ) (y : ℝ) :
    (xs.zip (columns.map fun v => (r.apply v).get 0)).foldr (fun p rest => -p.1 * p.2 + rest) y =
      y - (r.matrix (n + 1) *ᵥ combination (n + 1) columns xs) 0 := by
  induction columns generalizing xs with
  | nil =>
      rw [List.map_nil, List.zip_nil_right, List.foldr_nil, combination_nil, mulVec_zero,
        Pi.zero_apply, sub_zero]
  | cons v columns ih =>
      cases xs with
      | nil =>
          show y = y - (r.matrix (n + 1) *ᵥ (0 : Fin (n + 1) → ℝ)) 0
          rw [mulVec_zero, Pi.zero_apply, sub_zero]
      | cons x xs =>
          have hv : (r.apply v).get 0 = (r.matrix (n + 1) *ᵥ v.toFun (n + 1)) 0 :=
            congrFun (r.toFun_apply hr (hsize v List.mem_cons_self)) 0
          rw [List.map_cons, List.zip_cons_cons, List.foldr_cons,
            ih (fun v hv => hsize v (List.mem_cons_of_mem _ hv)), combination_cons, mulVec_add,
            mulVec_smul, Pi.add_apply, Pi.smul_apply, smul_eq_mul, hv]
          ring

include hr in
theorem dot_apply {u : Vec ℝ} (hu : u.size = n + 1) (b : Vec ℝ) :
    (r.apply u).dot b = u.toFun (n + 1) ⬝ᵥ r.matrix (n + 1) *ᵥ b.toFun (n + 1) := by
  rw [Vec.dot_eq_dotProduct ((r.size_apply u).trans hu), r.toFun_apply hr hu,
    r.mulVec_dotProduct]

include hr in
/-- The coordinates of a right-hand side are the first entry of its reflection
and the coordinates of what the reflection leaves of it. -/
theorem coordinates_extend (hc : c.size = n + 1) (hbelow : ∀ q ∈ below.basis, q.size = n)
    (hb : b.size = n + 1) :
    (extend r c columns below).basis.map (fun q => q.dot b) =
      (r.matrix (n + 1) *ᵥ b.toFun (n + 1)) 0 ::
        below.basis.map fun q => q.dot (remainder r b) := by
  rw [extend, List.map_map, List.map_cons, List.map_map]
  refine congrArg₂ List.cons ?_ (List.map_congr_left fun q hq => ?_)
  · have hunit : (Vec.unit (n + 1) 0 : Vec ℝ).toFun (n + 1) = Fin.cons 1 0 := by
      funext i
      rw [Vec.toFun_apply, Vec.get_unit i.isLt]
      induction i using Fin.cases with
      | zero => rfl
      | succ i => rfl
    rw [Function.comp_apply, hc, dot_apply hr (Vec.size_unit _ _), hunit, Vec.cons_dotProduct,
      one_mul, zero_dotProduct, add_zero]
  · have hq := hbelow q hq
    rw [Function.comp_apply, Function.comp_apply,
      dot_apply hr ((Vec.size_cons 0 q).trans (congrArg (· + 1) hq)), Vec.toFun_cons,
      Vec.cons_dotProduct, zero_mul, zero_add, Vec.dot_eq_dotProduct hq, toFun_remainder hr hb]
    rfl

include hr hturn hcorner hsize in
/-- Factors that solve what a reflection leaves extend to the whole problem. In
the reflected residual the first entry is zero by the choice of the first
coefficient, and the others are the residual of the smaller problem. -/
theorem Solves.extend (hc : c.size = n + 1)
    (h : below.Solves n (columns.map (remainder r))) :
    (extend r c columns below).Solves (n + 1) (c :: columns) where
  size q hq := by
    obtain ⟨v, hv, rfl⟩ := List.mem_map.mp hq
    rw [r.size_apply]
    rcases List.mem_cons.mp hv with rfl | hv
    · rw [Vec.size_unit, hc]
    · obtain ⟨p, hp, rfl⟩ := List.mem_map.mp hv
      rw [Vec.size_cons, h.size p hp]
  solve b hb := by
    obtain ⟨xs, hxs, hlen, horth⟩ := h.solve (remainder r b) (size_remainder hb)
    let u := r.matrix (n + 1) *ᵥ b.toFun (n + 1)
    let w := r.matrix (n + 1) *ᵥ combination (n + 1) columns xs
    -- After the turn nothing is left of the first entry, and the rest is the smaller problem.
    have hrest : (r.matrix (n + 1) *ᵥ
        (b.toFun (n + 1) - combination (n + 1) (c :: columns) ((u 0 - w 0) / r.corner :: xs))) =
          Fin.cons 0 (Fin.tail u - Fin.tail w) := by
      rw [combination_cons, mulVec_sub, mulVec_add, mulVec_smul, hturn]
      funext i
      induction i using Fin.cases with
      | zero =>
          show u 0 - ((u 0 - w 0) / r.corner * r.corner + w 0) = 0
          rw [div_mul_cancel₀ _ hcorner.ne', sub_add_cancel, sub_self]
      | succ i =>
          show u i.succ - ((u 0 - w 0) / r.corner * 0 + w i.succ) = u i.succ - w i.succ
          rw [mul_zero, zero_add]
    refine ⟨(u 0 - w 0) / r.corner :: xs, ?_, ?_, fun v hv => ?_⟩
    · rw [solve?, coordinates_extend hr hc h.size hb, OrthogonalFactors.extend, substitute?]
      rw [solve?] at hxs
      rw [hxs]
      refine (if_neg (by simpa using hcorner.ne')).trans ?_
      exact congrArg (fun y => some (y / r.corner :: xs)) (foldr_row hr hsize xs (u 0))
    · rw [List.length_cons, hlen, List.length_map, List.length_cons]
    · rw [← r.mulVec_dotProduct_mulVec hr, hrest]
      rcases List.mem_cons.mp hv with rfl | hv
      · rw [hturn, Vec.cons_dotProduct, zero_dotProduct, add_zero]
        exact mul_zero _
      · rw [dotProduct_comm, Vec.cons_dotProduct, zero_mul, zero_add, dotProduct_comm]
        have h := horth (remainder r v) (List.mem_map_of_mem hv)
        rwa [toFun_remainder hr (hsize v hv), toFun_remainder hr hb,
          combination_remainder hr hsize] at h

end Step

/-- Independent columns have factors, and these solve every problem with the
columns. -/
theorem ofColumns?_spec (columns : List (Vec ℝ)) (hsize : ∀ v ∈ columns, v.size = m)
    (h : Independent m columns) :
    ∃ f, ofColumns? columns = some f ∧ f.Solves m columns := by
  induction hk : columns.length generalizing columns m with
  | zero =>
      obtain rfl := List.length_eq_zero_iff.mp hk
      exact ⟨⟨[], []⟩, by rw [ofColumns?], nofun, fun b _ => ⟨[], rfl, rfl, nofun⟩⟩
  | succ k ih =>
      obtain ⟨c, columns, rfl⟩ := List.exists_cons_of_length_eq_add_one hk
      obtain ⟨hc, hsize⟩ := List.forall_mem_cons.mp hsize
      cases m with
      | zero => exact absurd (Subsingleton.elim _ _) h.ne_zero
      | succ n =>
          obtain ⟨r, hr, horth, hcorner, hturn⟩ := Reflection.ofColumn?_spec hc h.ne_zero
          obtain ⟨below, hbelow, hsolves⟩ := ih (m := n) (columns.map (remainder r))
            (fun v hv => by
              obtain ⟨u, hu, rfl⟩ := List.mem_map.mp hv
              exact size_remainder (hsize u hu))
            (independent_remainder horth hturn hcorner hsize h)
            ((List.length_map _).trans (Nat.succ.inj hk))
          refine ⟨_, ?_, hsolves.extend horth hturn hcorner hsize hc⟩
          have hbelow : ofColumns? (columns.map fun v => (r.apply v).tail) = some below := hbelow
          rw [ofColumns?, hr]
          dsimp only
          rw [hbelow, extend, real_zero]

end OrthogonalFactors

/-! ## Matrices -/

section Matrices

variable {a : Mat ℝ} {m n : Nat}

theorem toFun_col (hm : a.rows = m) (j : Nat) : (a.col j).toFun m = fun i : Fin m => a.get i j :=
  funext fun i => Vec.get_ofFn_of_lt _ (i.isLt.trans_eq hm.symm)

/-- A combination of the columns of a matrix is a product with it. -/
theorem combination_columns (hm : a.rows = m) {xs : List ℝ} (hlen : xs.length = n) :
    combination m ((List.range n).map a.col) xs =
      a.toMatrix m n *ᵥ (Vec.ofList xs).toFun n := by
  have hxs : xs = (List.range n).map fun j => (Vec.ofList xs).get j := by
    refine List.ext_getElem (by simpa using hlen) fun j hj _ => ?_
    rw [List.getElem_map, List.getElem_range, Vec.get_ofList_of_lt hj]
  funext i
  rw [combination]
  conv_lhs => rw [hxs, List.zipWith_map, List.zipWith_self]
  show (∑ j ∈ range n, (Vec.ofList xs).get j • (a.col j).toFun m) i = _
  rw [Finset.sum_apply, mulVec, dotProduct, Finset.sum_range]
  refine Finset.sum_congr rfl fun j _ => ?_
  rw [Pi.smul_apply, smul_eq_mul, toFun_col hm, mul_comm]
  rfl

/-- The minimizer of a problem with independent columns: the residual is
orthogonal to the columns, so the minimizer solves the normal equations. -/
theorem leastSquares?_spec {b : Vec ℝ} (hm : a.rows = m) (hn : a.cols = n) (hb : b.size = m)
    (h : Function.Injective (a.toMatrix m n).mulVec) :
    ∃ x, leastSquares? a b = some x ∧ x.size = n ∧
      (a.toMatrix m n)ᵀ *ᵥ (a.toMatrix m n *ᵥ x.toFun n) = (a.toMatrix m n)ᵀ *ᵥ b.toFun m := by
  have hlen : ((List.range n).map a.col).length = n := by
    rw [List.length_map, List.length_range]
  obtain ⟨f, hf, hsolves⟩ := OrthogonalFactors.ofColumns?_spec (m := m)
    ((List.range n).map a.col)
    (fun v hv => by
      obtain ⟨j, -, rfl⟩ := List.mem_map.mp hv
      exact (Vec.size_ofFn _ _).trans hm)
    (fun xs hxs hzero x hx => by
      rw [hlen] at hxs
      rw [combination_columns hm hxs, ← mulVec_zero (a.toMatrix m n)] at hzero
      obtain ⟨j, hj, rfl⟩ := List.getElem_of_mem hx
      have hget := congrFun (h hzero) ⟨j, hxs ▸ hj⟩
      rwa [Vec.toFun_apply, Vec.get_ofList_of_lt hj] at hget)
  obtain ⟨xs, hxs, hxlen, horth⟩ := hsolves.solve b hb
  rw [hlen] at hxlen
  refine ⟨Vec.ofList xs, ?_, (Vec.size_ofList xs).trans hxlen, ?_⟩
  · rw [leastSquares?, hn, hf]
    exact congrArg (Option.map Vec.ofList) hxs
  · rw [combination_columns hm hxlen] at horth
    refine (sub_eq_zero.mp ?_).symm
    rw [← mulVec_sub]
    funext j
    have hj := horth (a.col j) (List.mem_map_of_mem (List.mem_range.mpr j.isLt))
    rw [toFun_col hm] at hj
    exact hj

end Matrices

end LeastSquares
