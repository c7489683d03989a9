import LeastSquares.Proofs.NormalEquations

/-!
# The solver by reflections

The regularizer stands below the matrix as rows of its own, so that the normal
equations of the stacked problem are the regularized ones of the matrix. The
solver minimizes the stacked problem, and over the real numbers it returns the
solution whenever there is exactly one.

## Main results

* `stackRegularizer_normal`, `stackRegularizer_moment` — the normal equations of
  the stacked problem.
* `denseReflections?_spec` — the solution of the regularized problem.
-/

namespace LeastSquares

open Matrix

/-! ## Stacked problems -/

section Stacked

variable {a : BlockMatrix ℝ} {b d d2 : Vec ℝ}

/-- The rows of the matrix, then those of the regularizer. -/
theorem submatrix_stackRegularizer (hd : d.size = a.numCols) :
    ((stackRegularizer a.toDense d).toMatrix (a.numRows + a.numCols) a.numCols).submatrix
      finSumFinEquiv id = fromRows a.toMatrix (diagonal (d.toFun a.numCols)) := by
  ext i j
  have hrows : a.toDense.rows + d.size = a.numRows + a.numCols := congrArg _ hd
  have hget : ∀ p < a.numRows + a.numCols, (stackRegularizer a.toDense d).get p j =
      if p < a.numRows then a.toDense.get p j else if p - a.numRows = j then d.get j else 0 := by
    intro p hp
    rw [← real_zero]
    exact Mat.get_ofFn (n := a.numCols) _ (hp.trans_eq hrows.symm) j.isLt
  rw [submatrix_apply, Mat.toMatrix_apply, id_eq, hget _ (finSumFinEquiv i).isLt]
  rcases i with i | i
  · rw [finSumFinEquiv_apply_left, Fin.val_castAdd, if_pos i.isLt, fromRows_apply_inl]
    rfl
  · rw [finSumFinEquiv_apply_right, Fin.val_natAdd, if_neg (by omega), Nat.add_sub_cancel_left,
      fromRows_apply_inr, diagonal_apply]
    simp only [Fin.ext_iff]
    split
    · rename_i hij
      rw [Vec.toFun_apply, hij]
    · rfl

/-- The transpose of a stacked matrix times a vector. -/
theorem transpose_stackRegularizer_mulVec (hd : d.size = a.numCols)
    (v : Fin (a.numRows + a.numCols) → ℝ) :
    ((stackRegularizer a.toDense d).toMatrix (a.numRows + a.numCols) a.numCols)ᵀ *ᵥ v =
      a.toMatrixᵀ *ᵥ (v ∘ finSumFinEquiv ∘ Sum.inl) +
        diagonal (d.toFun a.numCols) *ᵥ (v ∘ finSumFinEquiv ∘ Sum.inr) := by
  let stacked := (stackRegularizer a.toDense d).toMatrix (a.numRows + a.numCols) a.numCols
  have hreindex : (stackedᵀ.submatrix (Equiv.refl _) finSumFinEquiv) *ᵥ (v ∘ finSumFinEquiv) =
      stackedᵀ *ᵥ v := by
    rw [submatrix_mulVec_equiv, Function.comp_assoc, Equiv.self_comp_symm]
    rfl
  have htranspose : stackedᵀ.submatrix (Equiv.refl _) finSumFinEquiv =
      fromCols a.toMatrixᵀ (diagonal (d.toFun a.numCols)) := by
    rw [← diagonal_transpose, ← transpose_fromRows, ← submatrix_stackRegularizer hd]
    rfl
  rw [← hreindex, htranspose, fromCols_mulVec]
  rfl

theorem regularizerSquared_some (hd : d.size = a.numCols) :
    regularizerSquared (some d) a.numCols = .ok (d.mulEntries d) := if_pos hd

/-- The normal equations of the stacked problem are the regularized ones. -/
theorem stackRegularizer_normal (hd : d.size = a.numCols) (x : Fin a.numCols → ℝ) :
    let stacked := (stackRegularizer a.toDense d).toMatrix (a.numRows + a.numCols) a.numCols
    stackedᵀ *ᵥ (stacked *ᵥ x) = normalSystem a (d.mulEntries d) *ᵥ x := by
  intro stacked
  have hstacked : (stacked *ᵥ x) ∘ finSumFinEquiv =
      Sum.elim (a.toMatrix *ᵥ x) (diagonal (d.toFun a.numCols) *ᵥ x) := by
    rw [← fromRows_mulVec, ← submatrix_stackRegularizer hd]
    rfl
  have hsquare : diagonal (d.toFun a.numCols) * diagonal (d.toFun a.numCols) =
      diagonal ((d.mulEntries d).toFun a.numCols) := by
    rw [diagonal_mul_diagonal]
    refine congrArg _ (funext fun i => ?_)
    rw [Vec.toFun_apply, Vec.toFun_apply, Vec.get_mulEntries (i.isLt.trans_eq hd.symm)]
  rw [transpose_stackRegularizer_mulVec hd, ← Function.comp_assoc, hstacked, ← Function.comp_assoc,
    hstacked, Sum.elim_comp_inl, Sum.elim_comp_inr, mulVec_mulVec, mulVec_mulVec, hsquare,
    normalSystem, add_mulVec]

/-- What the right-hand side of the stacked problem makes of it. -/
theorem stackRegularizer_moment (hd : d.size = a.numCols) (hb : b.size = a.numRows) :
    ((stackRegularizer a.toDense d).toMatrix (a.numRows + a.numCols) a.numCols)ᵀ *ᵥ
      (Vec.concat [b, Vec.zeros a.numCols]).toFun (a.numRows + a.numCols) =
        a.toMatrixᵀ *ᵥ b.toFun a.numRows := by
  have hfirst : (Vec.concat [b, Vec.zeros a.numCols]).toFun (a.numRows + a.numCols) ∘
      finSumFinEquiv ∘ Sum.inl = b.toFun a.numRows := by
    funext i
    have hpart : [b, Vec.zeros a.numCols][0]? = some b := rfl
    have hget := Vec.get_concat hpart (i.isLt.trans_eq hb.symm)
    rw [List.take_zero, List.map_nil, total_nil, Nat.zero_add] at hget
    exact hget
  have hsecond : (Vec.concat [b, Vec.zeros a.numCols]).toFun (a.numRows + a.numCols) ∘
      finSumFinEquiv ∘ Sum.inr = 0 := by
    funext i
    have hpart : [b, Vec.zeros a.numCols][1]? = some (Vec.zeros a.numCols) := rfl
    have hget := Vec.get_concat hpart (i.isLt.trans_eq (Vec.size_zeros _).symm)
    have hplace : total (([b, Vec.zeros a.numCols].take 1).map Vec.size) = a.numRows := hb
    rw [Vec.get_zeros, hplace] at hget
    exact hget
  rw [transpose_stackRegularizer_mulVec hd, hfirst, hsecond, mulVec_zero, add_zero]

end Stacked

/-! ## The dense solver -/

/-- A problem with the normal matrix `N` has no fewer rows than columns and is
solved by reflections if `N` is positive definite. -/
theorem leastSquares?_normal (s : Mat ℝ) (rhs : Vec ℝ) {m n : Nat} {N : Matrix (Fin n) (Fin n) ℝ}
    (hrows : s.rows = m) (hcols : s.cols = n) (hrhs : rhs.size = m) (hN : N.PosDef)
    (hnormal : ∀ x, (s.toMatrix m n)ᵀ *ᵥ (s.toMatrix m n *ᵥ x) = N *ᵥ x) :
    n ≤ m ∧ ∃ x, leastSquares? s rhs = some x ∧ x.size = n ∧
      N *ᵥ x.toFun n = (s.toMatrix m n)ᵀ *ᵥ rhs.toFun m := by
  have hinjective : Function.Injective (s.toMatrix m n).mulVec := by
    intro x y hxy
    refine mulVec_injective_of_isUnit hN.isUnit ?_
    rw [← hnormal, ← hnormal, hxy]
  have hle := LinearMap.finrank_le_finrank_of_injective (f := (s.toMatrix m n).mulVecLin) hinjective
  rw [Module.finrank_fin_fun, Module.finrank_fin_fun] at hle
  obtain ⟨x, hx, hsize, hsolve⟩ := Factorizations.exact_provided.leastSquares hrows hcols hrhs
    hinjective
  exact ⟨hle, x, hx, hsize, (hnormal _).symm.trans hsolve⟩

/-- If the normal matrix is positive definite, the solver by reflections
succeeds and what it returns solves the normal equations. -/
theorem denseReflections?_spec {a : BlockMatrix ℝ} {b d2 : Vec ℝ} {d : Option (Vec ℝ)}
    (hd : regularizerSquared d a.numCols = .ok d2) (hb : b.size = a.numRows)
    (h : (normalSystem a d2).PosDef) :
    ∃ x, denseReflections? a b d = .ok x ∧ x.size = a.numCols ∧
      normalSystem a d2 *ᵥ x.toFun a.numCols = a.toMatrixᵀ *ᵥ b.toFun a.numRows := by
  cases d with
  | none =>
      cases hd
      obtain ⟨hle, x, hx, hsize, hsolve⟩ := leastSquares?_normal a.toDense b
        (m := a.numRows) (n := a.numCols) rfl rfl hb h fun x => by
          have hzero : diagonal ((Vec.zeros a.numCols).toFun a.numCols) = 0 :=
            (congrArg _ (funext fun i => Vec.get_zeros _ _)).trans diagonal_zero
          rw [normalSystem, hzero, add_zero, ← mulVec_mulVec]
          rfl
      refine ⟨x, ?_, hsize, hsolve⟩
      have hrows : ¬a.toDense.rows < a.numCols := Nat.not_lt.mpr hle
      simp only [denseReflections?, hb, ne_eq, not_true_eq_false, if_false, hrows, hx, bind, pure,
        Except.bind, Except.pure, Vec.isFinite_real, if_true]
  | some d =>
      have hsize : d.size = a.numCols := by
        by_contra hne
        rw [regularizerSquared, if_neg hne] at hd
        cases hd
      rw [regularizerSquared_some hsize] at hd
      cases hd
      -- The stacked system has the regularized normal equations for its own.
      have hrows : (stackRegularizer a.toDense d).rows = a.numRows + a.numCols :=
        congrArg _ hsize
      obtain ⟨hle, x, hx, hxsize, hsolve⟩ := leastSquares?_normal
        (stackRegularizer a.toDense d) (Vec.concat [b, Vec.zeros a.numCols]) (n := a.numCols)
        hrows rfl
        (by
          rw [Vec.size_concat]
          exact congrArg₂ (· + ·) hb (Vec.size_zeros _))
        h (stackRegularizer_normal hsize)
      refine ⟨x, ?_, hxsize, hsolve.trans (stackRegularizer_moment hsize hb)⟩
      have hrows : ¬(stackRegularizer a.toDense d).rows < a.numCols := by omega
      simp only [denseReflections?, hb, hsize, ne_eq, not_true_eq_false, if_false, hrows, hx, bind,
        pure, Except.bind, Except.pure, Vec.isFinite_real, if_true]

end LeastSquares
