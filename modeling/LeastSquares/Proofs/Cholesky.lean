import LeastSquares.Linear.Cholesky
import LeastSquares.Proofs.Complement
import LeastSquares.Proofs.Matrices
import Mathlib.Algebra.Order.Star.Real

/-!
# Cholesky factors over the real numbers

In exact arithmetic a symmetric matrix has a factor if and only if it is
positive definite, and the factor solves the system. Both follow the recursion
of the factorization: the first unknown is eliminated, and what remains is the
complement of the corner. In every arithmetic a factor has a root for each row of
its matrix, and solutions have as many entries.

## Main results

* `Cholesky.size_of_factor?`, `Cholesky.size_solve` — sizes.
* `Cholesky.isSome_factor?_iff` — a symmetric matrix has a factor exactly if it
  is positive definite.
* `Cholesky.solveList_spec` — the factor solves the system.
* `Cholesky.factor?_spec` — solutions and inverses by a factor.
-/

namespace LeastSquares

open Matrix
open Finset (range)

namespace Cholesky

/-! ## Sizes -/

section Sizes

variable {α : Type} [Scalar α]

theorem length_columns? {division : RootDivision} {n : Nat} {m : Mat α}
    {columns : List (α × Vec α)} (h : columns? division n m = some columns) :
    columns.length = n := by
  induction n generalizing m columns with
  | zero =>
      cases h
      rfl
  | succ n ih =>
      rw [columns?] at h
      dsimp only at h
      split at h
      · obtain ⟨below, hbelow, rfl⟩ := Option.map_eq_some_iff.mp h
        exact congrArg (· + 1) (ih hbelow)
      · cases h

/-- A factor has the size of its matrix. -/
theorem size_of_factor? {division : RootDivision} {m : Mat α} {c : Cholesky α}
    (h : factor? division m = some c) : c.size = m.rows := by
  obtain ⟨columns, hcolumns, rfl⟩ := Option.map_eq_some_iff.mp h
  exact length_columns? hcolumns

theorem length_solveList (division : RootDivision) (columns : List (α × Vec α)) (b : Vec α) :
    (solveList division columns b).length = columns.length := by
  induction columns generalizing b with
  | nil => rfl
  | cons column columns ih =>
      rw [solveList, List.length_cons, Vec.length_toList, Vec.size_ofList, ih, List.length_cons]

theorem size_solve (c : Cholesky α) (b : Vec α) : (c.solve b).size = c.size := by
  rw [solve, Vec.size_ofList, length_solveList, size]

/-- An inverse has the size of the factor. -/
theorem rows_inverse (c : Cholesky α) : c.inverse.rows = c.size := rfl

end Sizes

/-! ## Roots -/

/-- The division is exact. -/
theorem divide_eq (division : RootDivision) (a root : ℝ) : division.divide a root = a / root := by
  cases division with
  | quotient => rfl
  | reciprocal => rw [RootDivision.divide, real_mul, real_div, real_one, mul_one_div]

theorem isPivot_iff (a : ℝ) : isPivot a = true ↔ 0 < a := by
  rw [isPivot, Bool.and_eq_true, Bool.not_eq_true', ← Bool.not_eq_true, real_beq,
    decide_eq_true_iff, real_le, real_zero]
  exact ⟨fun h => lt_of_le_of_ne h.2 (Ne.symm h.1), fun h => ⟨h.ne', h.le⟩⟩

/-! ## One step -/

variable {n : Nat} {a : Mat ℝ} {i j : Nat} {division : RootDivision}

/-- The first column of the factor below its corner. -/
noncomputable def below (n : Nat) (a : Mat ℝ) : Vec ℝ :=
  Vec.ofFn n fun i => a.get (i + 1) 0 / √(a.get 0 0)

/-- What is left to factor after the first column. -/
noncomputable def trailing (n : Nat) (a : Mat ℝ) : Mat ℝ :=
  Mat.ofFn n n fun i j => a.get (i + 1) (j + 1) - (below n a).get j * (below n a).get i

@[simp] theorem size_below : (below n a).size = n := Vec.size_ofFn _ _

theorem get_below (hi : i < n) : (below n a).get i = a.get (i + 1) 0 / √(a.get 0 0) :=
  Vec.get_ofFn_of_lt _ hi

theorem get_trailing (hi : i < n) (hj : j < n) :
    (trailing n a).get i j = a.get (i + 1) (j + 1) - (below n a).get j * (below n a).get i :=
  Mat.get_ofFn _ hi hj

theorem columns?_succ (division : RootDivision) (n : Nat) (a : Mat ℝ) :
    columns? division (n + 1) a =
      if 0 < a.get 0 0 then
        (columns? division n (trailing n a)).map ((√(a.get 0 0), below n a) :: ·)
      else none := by
  have hbelow : (Vec.ofFn n fun i => division.divide (a.get (i + 1) 0) (Scalar.sqrt (a.get 0 0))) =
      below n a := by
    simp only [divide_eq, real_sqrt]
    rfl
  rw [columns?]
  simp only [isPivot_iff, hbelow]
  rfl

/-- The indices of a matrix, with the first one set apart. -/
noncomputable def cornerFirst (n : Nat) : Unit ⊕ Fin n ≃ Fin (n + 1) :=
  Equiv.ofBijective (Sum.elim (fun _ => 0) Fin.succ) <| by
    constructor
    · rintro (u | i) (v | j) h
      · rfl
      · exact absurd h.symm (Fin.succ_ne_zero j)
      · exact absurd h (Fin.succ_ne_zero i)
      · exact congrArg Sum.inr (Fin.succ_injective n h)
    · intro i
      induction i using Fin.cases with
      | zero => exact ⟨.inl (), rfl⟩
      | succ i => exact ⟨.inr i, rfl⟩

/-- The corner as a matrix. -/
noncomputable def corner (a : Mat ℝ) : Matrix Unit Unit ℝ := diagonal fun _ => a.get 0 0

/-- The first row after the corner. -/
noncomputable def firstRow (n : Nat) (a : Mat ℝ) : Matrix Unit (Fin n) ℝ :=
  of fun _ j => a.get (j + 1) 0

/-- What the first row and the first column leave. -/
noncomputable def rest (n : Nat) (a : Mat ℝ) : Matrix (Fin n) (Fin n) ℝ :=
  of fun i j => a.get (i + 1) (j + 1)

/-- A symmetric matrix is made of its corner, its first row and the rest. -/
theorem submatrix_cornerFirst (h : (a.toMatrix (n + 1) (n + 1)).IsHermitian) :
    (a.toMatrix (n + 1) (n + 1)).submatrix (cornerFirst n) (cornerFirst n) =
      fromBlocks (corner a) (firstRow n a) (firstRow n a)ᵀ (rest n a) := by
  ext (u | i) (v | j)
  · rfl
  · exact (h.apply 0 j.succ).symm
  · rfl
  · rfl

/-- The inverse of the corner. -/
noncomputable def cornerInverse (a : Mat ℝ) : Matrix Unit Unit ℝ :=
  diagonal fun _ => (a.get 0 0)⁻¹

theorem corner_mul_inverse (hcorner : 0 < a.get 0 0) : corner a * cornerInverse a = 1 := by
  rw [corner, cornerInverse, diagonal_mul_diagonal, mul_inv_cancel₀ hcorner.ne', diagonal_one]

/-- The trailing block is the complement of the corner. -/
theorem toMatrix_trailing (hcorner : 0 < a.get 0 0) :
    (trailing n a).toMatrix n n =
      rest n a - (firstRow n a)ᵀ * cornerInverse a * firstRow n a := by
  ext i j
  have hroot : √(a.get 0 0) * √(a.get 0 0) = a.get 0 0 := Real.mul_self_sqrt hcorner.le
  rw [Mat.toMatrix_apply, get_trailing i.isLt j.isLt, get_below i.isLt, get_below j.isLt,
    div_mul_div_comm, hroot, Matrix.sub_apply, mul_apply, Fintype.sum_unique, mul_apply,
    Fintype.sum_unique]
  show a.get (i + 1) (j + 1) - a.get (j + 1) 0 * a.get (i + 1) 0 / a.get 0 0 =
    a.get (i + 1) (j + 1) - a.get (i + 1) 0 * (a.get 0 0)⁻¹ * a.get (j + 1) 0
  ring

theorem corner_pos (h : (a.toMatrix (n + 1) (n + 1)).PosDef) : 0 < a.get 0 0 :=
  h.diag_pos (i := 0)

theorem isHermitian_trailing (h : (a.toMatrix (n + 1) (n + 1)).IsHermitian) :
    ((trailing n a).toMatrix n n).IsHermitian := by
  ext i j
  have hij : a.get (j + 1) (i + 1) = a.get (i + 1) (j + 1) := h.apply i.succ j.succ
  show (trailing n a).get j i = (trailing n a).get i j
  rw [get_trailing j.isLt i.isLt, get_trailing i.isLt j.isLt, hij, mul_comm]

theorem posDef_trailing (h : (a.toMatrix (n + 1) (n + 1)).PosDef) :
    ((trailing n a).toMatrix n n).PosDef := by
  have hblocks := h.submatrix (cornerFirst n).injective
  rw [submatrix_cornerFirst h.isHermitian] at hblocks
  rw [toMatrix_trailing (corner_pos h)]
  exact posDef_complement hblocks (corner_mul_inverse (corner_pos h))

/-- A matrix with a positive corner and a definite trailing block is
definite. -/
theorem posDef_of_trailing (h : (a.toMatrix (n + 1) (n + 1)).IsHermitian)
    (hcorner : 0 < a.get 0 0) (htrailing : ((trailing n a).toMatrix n n).PosDef) :
    (a.toMatrix (n + 1) (n + 1)).PosDef := by
  rw [toMatrix_trailing hcorner] at htrailing
  have hrest : (rest n a)ᵀ = rest n a := by
    ext i j
    exact h.apply i.succ j.succ
  have hblocks := posDef_fromBlocks (posDef_diagonal_iff.mpr fun _ => hcorner) htrailing
    (corner_mul_inverse hcorner) hrest
  rw [← corner, ← submatrix_cornerFirst h] at hblocks
  have hpos := hblocks.submatrix (cornerFirst n).symm.injective
  rwa [submatrix_submatrix, Equiv.self_comp_symm, submatrix_id_id] at hpos

/-! ## Factors -/

/-- A positive definite matrix has a factor. -/
theorem exists_columns? (division : RootDivision) (h : (a.toMatrix n n).PosDef) :
    ∃ columns, columns? division n a = some columns := by
  induction n generalizing a with
  | zero => exact ⟨[], rfl⟩
  | succ n ih =>
      obtain ⟨columns, hcolumns⟩ := ih (posDef_trailing h)
      exact ⟨_, by rw [columns?_succ, if_pos (corner_pos h), hcolumns, Option.map_some]⟩

/-- A symmetric matrix with a factor is positive definite. -/
theorem posDef_of_columns? {columns : List (ℝ × Vec ℝ)} (hsymm : (a.toMatrix n n).IsHermitian)
    (h : columns? division n a = some columns) : (a.toMatrix n n).PosDef := by
  induction n generalizing a columns with
  | zero => exact .of_dotProduct_mulVec_pos hsymm fun x hx => absurd (Subsingleton.elim x 0) hx
  | succ n ih =>
      rw [columns?_succ] at h
      split at h
      · rename_i hcorner
        obtain ⟨columns, hcolumns, -⟩ := Option.map_eq_some_iff.mp h
        exact posDef_of_trailing hsymm hcorner (ih (isHermitian_trailing hsymm) hcolumns)
      · cases h

/-! ## Solutions -/

variable {columns : List (ℝ × Vec ℝ)} {root : ℝ} {b x : Vec ℝ}

theorem solveList_cons (division : RootDivision) (root : ℝ) (l : Vec ℝ)
    (columns : List (ℝ × Vec ℝ)) (b : Vec ℝ) :
    Vec.ofList (solveList division ((root, l) :: columns) b) =
      let y := b.get 0 / root
      let x := Vec.ofList (solveList division columns
        (Vec.ofFn l.size fun i => b.get (i + 1) - l.get i * y))
      Vec.cons ((y - l.dot x) / root) x := by
  rw [solveList]
  simp only [divide_eq]
  rfl

/-- A solution of the trailing system extends to the whole system: what the
first unknown adds to a row is what was subtracted from the trailing block. -/
theorem solves_cons (hsymm : (a.toMatrix (n + 1) (n + 1)).IsHermitian) (hcorner : 0 < a.get 0 0)
    (hx : ∀ i < n, ∑ j ∈ range n, (trailing n a).get i j * x.get j =
      b.get (i + 1) - (below n a).get i * (b.get 0 / √(a.get 0 0))) :
    ∀ i < n + 1, ∑ j ∈ range (n + 1), a.get i j *
      (Vec.cons ((b.get 0 / √(a.get 0 0) - (below n a).dot x) / √(a.get 0 0)) x).get j =
        b.get i := by
  have hroot : √(a.get 0 0) ≠ 0 := (Real.sqrt_pos.mpr hcorner).ne'
  have hsquare : √(a.get 0 0) * √(a.get 0 0) = a.get 0 0 := Real.mul_self_sqrt hcorner.le
  have hbelow : ∀ i < n, a.get (i + 1) 0 = √(a.get 0 0) * (below n a).get i := by
    intro i hi
    rw [get_below hi, mul_div_cancel₀ _ hroot]
  have hdot : (below n a).dot x = ∑ j ∈ range n, (below n a).get j * x.get j := by
    rw [Vec.dot_eq_sum, size_below]
  generalize √(a.get 0 0) = r at *
  generalize (below n a).dot x = s at *
  generalize hfirst : (b.get 0 / r - s) / r = first
  have hfirst : r * first = b.get 0 / r - s := by rw [← hfirst, mul_div_cancel₀ _ hroot]
  intro i hi
  rw [Finset.sum_range_succ', Vec.get_cons_zero]
  simp only [Vec.get_cons_succ]
  cases i with
  | zero =>
      have hrow : ∑ j ∈ range n, a.get 0 (j + 1) * x.get j = r * s := by
        rw [hdot, Finset.mul_sum]
        refine Finset.sum_congr rfl fun j hj => ?_
        have hj := Finset.mem_range.mp hj
        have hsymm' : a.get 0 (j + 1) = a.get (j + 1) 0 := (hsymm.apply 0 (Fin.succ ⟨j, hj⟩)).symm
        rw [hsymm', hbelow j hj, mul_assoc]
      calc ∑ j ∈ range n, a.get 0 (j + 1) * x.get j + a.get 0 0 * first
          = r * s + r * (r * first) := by rw [hrow, ← hsquare, mul_assoc]
        _ = r * (b.get 0 / r) := by rw [hfirst]; ring
        _ = b.get 0 := mul_div_cancel₀ _ hroot
  | succ i =>
      have hi : i < n := Nat.lt_of_succ_lt_succ hi
      have hrow : ∑ j ∈ range n, a.get (i + 1) (j + 1) * x.get j =
          ∑ j ∈ range n, (trailing n a).get i j * x.get j + (below n a).get i * s := by
        rw [hdot, Finset.mul_sum, ← Finset.sum_add_distrib]
        refine Finset.sum_congr rfl fun j hj => ?_
        rw [get_trailing hi (Finset.mem_range.mp hj)]
        ring
      rw [hrow, hx i hi, hbelow i hi, mul_right_comm, hfirst]
      ring

theorem solveList_spec (hsymm : (a.toMatrix n n).IsHermitian)
    (h : columns? division n a = some columns) (b : Vec ℝ) :
    columns.length = n ∧ (solveList division columns b).length = n ∧ ∀ i < n,
      ∑ j ∈ range n, a.get i j * (Vec.ofList (solveList division columns b)).get j = b.get i := by
  induction n generalizing a columns b with
  | zero =>
      cases h
      exact ⟨rfl, rfl, nofun⟩
  | succ n ih =>
      rw [columns?_succ] at h
      split at h
      case isFalse => cases h
      rename_i hcorner
      obtain ⟨columns, hcolumns, rfl⟩ := Option.map_eq_some_iff.mp h
      let y := b.get 0 / √(a.get 0 0)
      let rhs := Vec.ofFn n fun i => b.get (i + 1) - (below n a).get i * y
      obtain ⟨hlen, hsize, hsolve⟩ := ih (isHermitian_trailing hsymm) hcolumns rhs
      have hcons := solveList_cons division (√(a.get 0 0)) (below n a) columns b
      rw [size_below] at hcons
      refine ⟨congrArg (· + 1) hlen, ?_, ?_⟩
      · rw [← Vec.size_ofList, hcons]
        exact (Vec.size_cons _ _).trans (congrArg (· + 1) ((Vec.size_ofList _).trans hsize))
      · rw [hcons]
        refine solves_cons hsymm hcorner fun i hi => ?_
        rw [hsolve i hi, Vec.get_ofFn_of_lt _ hi]

/-! ## Factors of matrices -/

/-- A matrix has a factor exactly if it is positive definite. -/
theorem isSome_factor?_iff (division : RootDivision) (hrows : a.rows = n)
    (hsymm : (a.toMatrix n n).IsHermitian) :
    (factor? division a).isSome ↔ (a.toMatrix n n).PosDef := by
  rw [factor?, Option.isSome_map, Option.isSome_iff_exists, hrows]
  exact ⟨fun ⟨_, h⟩ => posDef_of_columns? hsymm h, exists_columns? division⟩

/-- The inverse is made of the solutions for the unit vectors. -/
theorem get_inverse {c : Cholesky ℝ} (hi : i < c.size) (hj : j < c.size) :
    c.inverse.get i j = (c.solve (Vec.unit c.size j)).get i := by
  rw [inverse, Mat.get_ofFn _ hi hj, Array.getD_eq_getD_getElem?, Array.getElem?_map,
    Array.getElem?_range, if_pos hj, Option.map_some, Option.getD_some]

/-- What a factor is for: it solves every system with its matrix, and so
inverts it. -/
theorem factor?_spec (division : RootDivision) (hrows : a.rows = n) (h : (a.toMatrix n n).PosDef) :
    ∃ c, factor? division a = some c ∧
      (∀ b, (c.solve b).size = n ∧ a.toMatrix n n *ᵥ (c.solve b).toFun n = b.toFun n) ∧
      c.inverse.HasShape n n ∧ a.toMatrix n n * c.inverse.toMatrix n n = 1 := by
  obtain ⟨columns, hcolumns⟩ := exists_columns? division h
  generalize hc : Cholesky.mk columns division = c
  have hsolve : ∀ b, (c.solve b).size = n ∧
      a.toMatrix n n *ᵥ (c.solve b).toFun n = b.toFun n := by
    intro b
    obtain ⟨-, hsize, hsolve⟩ := solveList_spec h.isHermitian hcolumns b
    subst hc
    refine ⟨(Vec.size_ofList _).trans hsize, funext fun i => ?_⟩
    rw [Vec.toFun_apply, ← hsolve i i.isLt, Finset.sum_range]
    rfl
  have hlen : c.size = n := hc ▸ (solveList_spec h.isHermitian hcolumns default).1
  refine ⟨c, by rw [factor?, hrows, hcolumns, Option.map_some, hc], hsolve, ⟨hlen, hlen⟩, ?_⟩
  ext i j
  have hunit := congrFun (hsolve (Vec.unit n j)).2 i
  rw [Vec.toFun_apply, Vec.get_unit i.isLt] at hunit
  rw [Matrix.one_apply, mul_apply]
  simp only [Fin.ext_iff, ← hunit]
  show _ = ∑ k : Fin n, a.toMatrix n n i k * (c.solve (Vec.unit n j)).toFun n k
  refine Finset.sum_congr rfl fun k _ => ?_
  rw [Mat.toMatrix_apply, Mat.toMatrix_apply, get_inverse (hlen ▸ k.isLt) (hlen ▸ j.isLt), hlen]
  rfl

end Cholesky

end LeastSquares
