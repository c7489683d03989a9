import LeastSquares.Linear.BlockMatrix
import LeastSquares.Proofs.Real
import Mathlib.Data.Matrix.Mul
import Mathlib.LinearAlgebra.Matrix.DotProduct

/-!
# Vectors and matrices of real numbers

Over the real numbers the operations on vectors and matrices are those of
linear algebra. Each is read off at its entries, as a sum over a range where
it is one, and matrices of known shape are read as matrices over finite index
sets.

## Main definitions

* `Vec.toFun`, `Mat.toMatrix` — vectors and matrices of a given shape.

## Main results

* `Mat.get_mulVec`, `Mat.get_tMulVec`, `Mat.get_mul`, `Mat.get_tMul` — the
  entries of products.
* `Vec.get_foldl`, `Mat.get_foldl_add` — the entries of sums.
-/

namespace LeastSquares

open Finset (range)

/-! ## Entries -/

theorem sumTo_eq_sum (n : Nat) (f : Nat → ℝ) : Scalar.sumTo n f = ∑ i ∈ range n, f i := by
  induction n with
  | zero => simp
  | succ n ih => rw [Scalar.sumTo_succ, Finset.sum_range_succ, ih, real_add]

namespace Vec

variable {u v : Vec ℝ} {i : Nat}

theorem get_add (h : i < u.size) : (u + v).get i = u.get i + v.get i := get_ofFn_of_lt _ h

theorem get_sub (h : i < u.size) : (u - v).get i = u.get i - v.get i := get_ofFn_of_lt _ h

theorem get_scale (c : ℝ) : (v.scale c).get i = v.get i * c := by
  by_cases h : i < v.size
  · exact get_map _ h
  · rw [get_of_le (by simpa using h), get_of_le (by simpa using h), real_zero, zero_mul]

@[simp] theorem get_zeros (n i : Nat) : (zeros n : Vec ℝ).get i = 0 := by
  rw [zeros, get_ofFn, ite_self, real_zero]

theorem get_unit {n j : Nat} (h : i < n) : (unit n j : Vec ℝ).get i = if i = j then 1 else 0 := by
  rw [unit, get_ofFn_of_lt _ h, real_one, real_zero]

theorem get_slice {α : Type} [Scalar α] {v : Vec α} {start n : Nat} (h : i < n) :
    (v.slice start n).get i = v.get (start + i) := get_ofFn_of_lt _ h

@[simp] theorem get_cons_zero (s : ℝ) (v : Vec ℝ) : (cons s v).get 0 = s := by
  simp [cons, ofList, get, Array.getD_eq_getD_getElem?]

@[simp] theorem get_cons_succ (s : ℝ) (v : Vec ℝ) (i : Nat) : (cons s v).get (i + 1) = v.get i := by
  simp [cons, ofList, toList, get, Array.getD_eq_getD_getElem?]

@[simp] theorem size_cons (s : ℝ) (v : Vec ℝ) : (cons s v).size = v.size + 1 := by
  rw [cons, size_ofList, List.length_cons, length_toList]

theorem get_mulEntries (h : i < u.size) : (u.mulEntries v).get i = u.get i * v.get i :=
  get_ofFn_of_lt _ h

theorem dot_eq_sum (u v : Vec ℝ) : u.dot v = ∑ i ∈ range u.size, u.get i * v.get i :=
  sumTo_eq_sum _ _

theorem normSq_eq_sum (v : Vec ℝ) : v.normSq = ∑ i ∈ range v.size, v.get i * v.get i :=
  dot_eq_sum v v

theorem dot_neg_self (v : Vec ℝ) : v.dot (-v) = -v.normSq := by
  rw [dot_eq_sum, normSq_eq_sum, ← Finset.sum_neg_distrib]
  refine Finset.sum_congr rfl fun i hi => ?_
  have hneg : (-v).get i = -v.get i := get_map _ (Finset.mem_range.mp hi)
  rw [hneg, mul_neg]

theorem normSq_nonneg (v : Vec ℝ) : 0 ≤ v.normSq := by
  rw [normSq_eq_sum]
  exact Finset.sum_nonneg fun i _ => mul_self_nonneg (v.get i)

theorem isFinite_real (v : Vec ℝ) : v.isFinite = true :=
  List.all_eq_true.mpr fun a _ => real_isFinite a

/-- A vector to which the members of a list contribute keeps its size, and the
contributions to an entry add up. -/
theorem get_foldl {β : Type} {f : Vec ℝ → β → Vec ℝ} {n : Nat} {l : List β}
    (part : β → Nat → ℝ) (hf : ∀ b ∈ l, ∀ acc : Vec ℝ, acc.size = n → (f acc b).size = n ∧
      ∀ i < n, (f acc b).get i = acc.get i + part b i)
    {init : Vec ℝ} (hinit : init.size = n) :
    (l.foldl f init).size = n ∧
      ∀ i < n, (l.foldl f init).get i = init.get i + (l.map (part · i)).sum := by
  induction l generalizing init with
  | nil => exact ⟨hinit, fun i _ => by simp⟩
  | cons b l ih =>
      obtain ⟨hsize, hget⟩ := hf b List.mem_cons_self init hinit
      obtain ⟨hsizes, hgets⟩ := ih (fun c hc => hf c (List.mem_cons_of_mem b hc)) hsize
      refine ⟨hsizes, fun i hi => ?_⟩
      rw [List.foldl_cons, hgets i hi, hget i hi, List.map_cons, List.sum_cons, add_assoc]

/-- The entries below a size. -/
noncomputable def toFun (n : Nat) (v : Vec ℝ) : Fin n → ℝ := fun i => v.get i

@[simp] theorem toFun_apply {n : Nat} (v : Vec ℝ) (i : Fin n) : v.toFun n i = v.get i := rfl

theorem toFun_zeros (n : Nat) : (zeros n : Vec ℝ).toFun n = 0 := funext fun _ => get_zeros _ _

theorem toFun_add {n : Nat} (hu : u.size = n) (v : Vec ℝ) :
    (u + v).toFun n = u.toFun n + v.toFun n :=
  funext fun i => get_add (i.isLt.trans_eq hu.symm)

theorem toFun_sub {n : Nat} (hu : u.size = n) (v : Vec ℝ) :
    (u - v).toFun n = u.toFun n - v.toFun n :=
  funext fun i => get_sub (i.isLt.trans_eq hu.symm)

theorem toFun_scale (v : Vec ℝ) (c : ℝ) (n : Nat) : (v.scale c).toFun n = c • v.toFun n := by
  funext i
  rw [toFun_apply, get_scale, Pi.smul_apply, smul_eq_mul, mul_comm, toFun_apply]

theorem toFun_addScaled {n : Nat} (hu : u.size = n) (c : ℝ) (v : Vec ℝ) :
    (u.addScaled c v).toFun n = u.toFun n + c • v.toFun n := by
  funext i
  have hget : (u.addScaled c v).get i = c * v.get i + u.get i :=
    get_ofFn_of_lt _ (i.isLt.trans_eq hu.symm)
  rw [toFun_apply, hget, add_comm]
  rfl

theorem toFun_neg {n : Nat} (v : Vec ℝ) : (-v).toFun n = -v.toFun n := by
  funext i
  rw [toFun_apply, Pi.neg_apply, toFun_apply]
  by_cases hi : (i : Nat) < v.size
  · exact get_map _ hi
  · rw [get_of_le (by rw [size_neg]; omega), get_of_le (by omega), real_zero, neg_zero]

open scoped Matrix in
theorem dot_eq_dotProduct {n : Nat} (hu : u.size = n) : u.dot v = u.toFun n ⬝ᵥ v.toFun n := by
  rw [dot_eq_sum, hu, Finset.sum_range]
  rfl

open scoped Matrix in
/-- A vector has length zero exactly if it is zero. -/
theorem norm_eq_zero_iff {n : Nat} (hu : u.size = n) : u.norm = 0 ↔ u.toFun n = 0 := by
  rw [norm, real_sqrt, Real.sqrt_eq_zero (normSq_nonneg u), normSq, dot_eq_dotProduct hu,
    dotProduct_self_eq_zero]

/-- Vectors of one size with the same entries are the same. -/
theorem toFun_inj {n : Nat} (hu : u.size = n) (hv : v.size = n) (h : u.toFun n = v.toFun n) :
    u = v := by
  apply ext_get (hu.trans hv.symm)
  intro i hi
  rw [hu] at hi
  exact congrFun h ⟨i, hi⟩

end Vec

namespace Mat

variable {a b : Mat ℝ} {v : Vec ℝ} {i j : Nat}

/-- The matrix has the given numbers of rows and columns. -/
def HasShape (a : Mat ℝ) (m n : Nat) : Prop := a.rows = m ∧ a.cols = n

theorem get_add (hi : i < a.rows) (hj : j < a.cols) : (a + b).get i j = a.get i j + b.get i j :=
  get_ofFn _ hi hj

theorem get_neg (hi : i < a.rows) (hj : j < a.cols) : (-a).get i j = -a.get i j :=
  get_ofFn _ hi hj

theorem get_scale (c : ℝ) (hi : i < a.rows) (hj : j < a.cols) :
    (a.scale c).get i j = a.get i j * c := get_ofFn _ hi hj

theorem get_diagonal (hi : i < v.size) (hj : j < v.size) :
    (diagonal v).get i j = if i = j then v.get i else 0 := by
  rw [diagonal, get_ofFn _ hi hj, real_zero]

theorem get_identity {n : Nat} (hi : i < n) (hj : j < n) :
    (identity n : Mat ℝ).get i j = if i = j then 1 else 0 := by
  rw [identity, get_ofFn _ hi hj, real_one, real_zero]

theorem get_mulVec (h : i < a.rows) :
    (a.mulVec v).get i = ∑ j ∈ range a.cols, a.get i j * v.get j := by
  rw [mulVec, Vec.get_ofFn_of_lt _ h, sumTo_eq_sum]

theorem get_tMulVec (h : j < a.cols) :
    (a.tMulVec v).get j = ∑ i ∈ range a.rows, a.get i j * v.get i := by
  rw [tMulVec, Vec.get_ofFn_of_lt _ h, sumTo_eq_sum]

theorem get_mul (hi : i < a.rows) (hj : j < b.cols) :
    (a.mul b).get i j = ∑ k ∈ range a.cols, a.get i k * b.get k j := by
  rw [mul, get_ofFn _ hi hj, sumTo_eq_sum]

theorem get_tMul (hi : i < a.cols) (hj : j < b.cols) :
    (a.tMul b).get i j = ∑ k ∈ range a.rows, a.get k i * b.get k j := by
  rw [tMul, get_ofFn _ hi hj, sumTo_eq_sum]

/-- The transpose of a product takes the factors in turn. -/
theorem tMulVec_mul (h : b.rows = a.cols) :
    (a.mul b).tMulVec v = b.tMulVec (a.tMulVec v) := by
  refine Vec.ext_get (by simp [mul]) fun j hj => ?_
  rw [size_tMulVec] at hj
  have hjb : j < b.cols := hj
  rw [get_tMulVec hj, get_tMulVec hjb, h]
  calc ∑ i ∈ range a.rows, (a.mul b).get i j * v.get i
      = ∑ i ∈ range a.rows, ∑ k ∈ range a.cols, b.get k j * (a.get i k * v.get i) := by
        refine Finset.sum_congr rfl fun i hi => ?_
        rw [get_mul (Finset.mem_range.mp hi) hjb, Finset.sum_mul]
        exact Finset.sum_congr rfl fun k _ => by ring
    _ = ∑ k ∈ range a.cols, b.get k j * (a.tMulVec v).get k := by
        rw [Finset.sum_comm]
        refine Finset.sum_congr rfl fun k hk => ?_
        rw [← Finset.mul_sum, get_tMulVec (Finset.mem_range.mp hk)]

theorem tMulVec_identity {n : Nat} (h : v.size = n) : (identity n : Mat ℝ).tMulVec v = v := by
  refine Vec.ext_get ((size_tMulVec _ _).trans h.symm) fun j hj => ?_
  have hj : j < n := hj.trans_eq (size_tMulVec _ _)
  rw [get_tMulVec hj]
  show ∑ i ∈ range n, (identity n : Mat ℝ).get i j * v.get i = v.get j
  rw [Finset.sum_eq_single_of_mem j (Finset.mem_range.mpr hj), get_identity hj hj, if_pos rfl,
    one_mul]
  intro i hi hne
  rw [get_identity (Finset.mem_range.mp hi) hj, if_neg hne, zero_mul]

theorem tMulVec_scale (c : ℝ) : a.tMulVec (v.scale c) = (a.tMulVec v).scale c := by
  refine Vec.ext_get (by simp) fun j hj => ?_
  rw [size_tMulVec] at hj
  rw [get_tMulVec hj, Vec.get_scale, get_tMulVec hj, Finset.sum_mul]
  exact Finset.sum_congr rfl fun i _ => by rw [Vec.get_scale, mul_assoc]

/-- An accumulated matrix has the shape it started with, and what each step
adds to an entry adds up. -/
theorem get_foldl_add (l : List (Mat ℝ)) (init : Mat ℝ) :
    (l.foldl (· + ·) init).rows = init.rows ∧ (l.foldl (· + ·) init).cols = init.cols ∧
      ∀ i < init.rows, ∀ j < init.cols,
        (l.foldl (· + ·) init).get i j = init.get i j + (l.map fun m => m.get i j).sum := by
  induction l generalizing init with
  | nil => exact ⟨rfl, rfl, fun i _ j _ => by simp⟩
  | cons m l ih =>
      obtain ⟨hr, hc, hg⟩ := ih (init + m)
      refine ⟨hr, hc, fun i hi j hj => ?_⟩
      rw [List.foldl_cons, hg i hi j hj, get_add hi hj, List.map_cons, List.sum_cons, add_assoc]

/-- The entries within a shape. -/
noncomputable def toMatrix (m n : Nat) (a : Mat ℝ) : Matrix (Fin m) (Fin n) ℝ :=
  Matrix.of fun i j => a.get i j

@[simp] theorem toMatrix_apply {m n : Nat} (a : Mat ℝ) (i : Fin m) (j : Fin n) :
    a.toMatrix m n i j = a.get i j := rfl

end Mat

end LeastSquares
