import LeastSquares.Proofs.ReducedSystem
import Mathlib.Data.Matrix.Block

/-!
# Schur complements

Sorted by eliminated and remaining unknowns, the normal matrix falls into four
blocks. No row reads two eliminated blocks, so the first of them is block
diagonal and inverted block by block. The reduced matrix is its complement,
hence positive definite if the normal matrix is, and back substitution turns a
solution of the reduced system into one of the whole.

## Main definitions

* `BlockMatrix.Separates` — no row reads two of the first column blocks.
* `Elimination.EliminatedIndex`, `Elimination.KeptIndex` — the unknowns by
  blocks.

## Main results

* `Elimination.submatrix_normalSystem` — the normal matrix in four blocks.
* `Elimination.submatrix_assemble` — the reduced matrix is the complement.
* `Elimination.posDef_pivotBlock`, `Elimination.posDef_assemble` — what is
  factored is positive definite.
* `Elimination.normalSystem_mulVec_backSubstitute` — the whole solution.
-/

namespace LeastSquares

open Matrix
open Finset (range)

variable {a : BlockMatrix ℝ} {v d2 y : Vec ℝ} {count : Nat} {w : Nat → Mat ℝ}

/-- A matrix sorted by other indices times a vector sorted in the same way. -/
theorem submatrix_mulVec_comp {l m n o : Type} [Fintype n] [Fintype o] (M : Matrix m n ℝ)
    (u : n → ℝ) (f : l → m) (e : o ≃ n) : M.submatrix f e *ᵥ (u ∘ e) = (M *ᵥ u) ∘ f := by
  rw [submatrix_mulVec_equiv, Function.comp_assoc, Equiv.self_comp_symm, Function.comp_id]

/-! ## Rows and eliminated blocks -/

namespace BlockMatrix

/-- No row reads two of the first column blocks. -/
def Separates (a : BlockMatrix ℝ) (count : Nat) : Prop :=
  ∀ row ∈ a.rows, ∀ c ∈ row.cells, ∀ c' ∈ row.cells,
    c.column < count → c'.column < count → c.column = c'.column

theorem Separates.length_le_one (h : a.Separates count) (ha : a.WellFormed) :
    ∀ row ∈ a.rows, (row.cells.filter fun c => c.column < count).length ≤ 1 := by
  intro row hrow
  have hnodup : ((row.cells.filter fun c => c.column < count).map Cell.column).Nodup :=
    ((ha.ascending row hrow).nodup).sublist (List.filter_sublist.map _)
  have hmem : ∀ x ∈ row.cells.filter fun c => c.column < count,
      x ∈ row.cells ∧ x.column < count := by
    intro x hx
    rwa [List.mem_filter, decide_eq_true_eq] at hx
  generalize row.cells.filter (fun c => c.column < count) = l at hnodup hmem ⊢
  match l with
  | [] => exact Nat.zero_le 1
  | [c] => exact Nat.le_refl 1
  | c :: c' :: l =>
      obtain ⟨hc, hlt⟩ := hmem c (by simp)
      obtain ⟨hc', hlt'⟩ := hmem c' (by simp)
      have heq := h row hrow c hc c' hc' hlt hlt'
      simp [heq] at hnodup

/-- Eliminated blocks do not meet in the normal matrix. -/
theorem Separates.gram_eq_zero (h : a.Separates count) {e e' : Nat} (he : e < count)
    (he' : e' < count) (hne : e ≠ e') (i j : Nat) : a.gram e i e' j = 0 := by
  rw [gram, List.sum_eq_zero]
  intro x hx
  obtain ⟨row, hrow, rfl⟩ := List.mem_map.mp hx
  refine Finset.sum_eq_zero fun t _ => ?_
  cases hm : row.cell? e with
  | none => rw [BlockRow.entry_of_none hm, real_zero, zero_mul]
  | some m =>
      cases hm' : row.cell? e' with
      | none => rw [BlockRow.entry_of_none hm', real_zero, mul_zero]
      | some m' =>
          exact absurd (h row hrow _ (BlockRow.mem_of_cell? hm) _ (BlockRow.mem_of_cell? hm')
            he he') hne

end BlockMatrix

namespace Elimination

/-! ## Unknowns by blocks -/

/-- The unknowns of the eliminated blocks. -/
abbrev EliminatedIndex (a : BlockMatrix ℝ) (count : Nat) : Type :=
  Σ e : Fin count, Fin (a.column e).size

/-- The unknowns of the remaining blocks. -/
abbrev KeptIndex (a : BlockMatrix ℝ) (count : Nat) : Type :=
  Σ k : Fin (a.columns.length - count), Fin (a.column (count + k)).size

/-- The column block of an unknown. -/
def blockOfIndex : EliminatedIndex a count ⊕ KeptIndex a count → Nat :=
  Sum.elim (fun x => x.1) fun x => count + x.1

/-- The place of an unknown within its column block. -/
def placeOf : EliminatedIndex a count ⊕ KeptIndex a count → Nat :=
  Sum.elim (fun x => x.2) fun x => x.2

/-- The number of remaining unknowns. -/
abbrev keptSize (a : BlockMatrix ℝ) (count : Nat) : Nat :=
  total ((a.columns.drop count).map Block.size)

/-- The unknowns of the remaining blocks, one after the other. -/
noncomputable def keptIndex (a : BlockMatrix ℝ) (count : Nat) :
    KeptIndex a count ≃ Fin (keptSize a count) :=
  blockIndex (fun k => (a.column (count + k)).size)
    (by rw [List.length_map, List.length_drop])
    (fun k hk => by
      rw [List.getElem?_map, List.getElem?_drop, BlockMatrix.getElem?_column (by omega), Option.map_some])

/-- The unknowns of the eliminated blocks, one after the other. -/
noncomputable def eliminatedIndex (hcount : count ≤ a.columns.length) :
    EliminatedIndex a count ≃ Fin (total ((a.columns.take count).map Block.size)) :=
  blockIndex (fun e => (a.column e).size)
    (by rw [List.length_map, List.length_take, Nat.min_eq_left hcount])
    (fun e he => by
      rw [List.getElem?_map, List.getElem?_take_of_lt he, BlockMatrix.getElem?_column (by omega),
        Option.map_some])

theorem total_take_add_drop (a : BlockMatrix ℝ) (count : Nat) :
    total ((a.columns.take count).map Block.size) + keptSize a count = a.numCols := by
  rw [keptSize, ← total_append, ← List.map_append, List.take_append_drop]
  rfl

/-- All unknowns, the eliminated ones first. -/
noncomputable def wholeIndex (hcount : count ≤ a.columns.length) :
    EliminatedIndex a count ⊕ KeptIndex a count ≃ Fin a.numCols :=
  ((eliminatedIndex hcount).sumCongr (keptIndex a count)).trans
    (finSumFinEquiv.trans (finCongr (total_take_add_drop a count)))

/-- An unknown is an index within its column block. -/
theorem wholeIndex_spec (ha : a.WellFormed) (hcount : count ≤ a.columns.length)
    (x : EliminatedIndex a count ⊕ KeptIndex a count) :
    ∃ b, a.columns[blockOfIndex x]? = some b ∧ placeOf x < b.size ∧
      (wholeIndex hcount x : Nat) = b.position + placeOf x := by
  rcases x with ⟨e, i⟩ | ⟨k, i⟩
  · have hb := BlockMatrix.getElem?_column (Nat.lt_of_lt_of_le e.isLt hcount)
    refine ⟨a.column e, hb, i.isLt, ?_⟩
    show total (((a.columns.take count).map Block.size).take e) + (i : Nat) = _
    rw [ha.position_column hb, ← List.map_take, List.take_take, Nat.min_eq_left e.isLt.le]
    rfl
  · have hb := BlockMatrix.getElem?_column (Nat.add_lt_of_lt_sub' k.isLt)
    refine ⟨a.column (count + k), hb, i.isLt, ?_⟩
    show total ((a.columns.take count).map Block.size) +
      (total (((a.columns.drop count).map Block.size).take k) + (i : Nat)) = _
    rw [ha.position_column hb]
    simp only [List.take_add, List.map_append, total_append, List.map_take, Nat.add_assoc]
    rfl

/-! ## Four blocks -/

/-- The normal matrix among the eliminated blocks, block by block. -/
noncomputable def pivots (a : BlockMatrix ℝ) (d2 : Vec ℝ) (count : Nat) :
    Matrix (EliminatedIndex a count) (EliminatedIndex a count) ℝ :=
  blockDiagonal' fun e => (pivotBlock a d2 e).toMatrix _ _

/-- The normal matrix between eliminated and remaining blocks. -/
noncomputable def couplings (a : BlockMatrix ℝ) (count : Nat) :
    Matrix (EliminatedIndex a count) (KeptIndex a count) ℝ :=
  of fun x y => a.gram x.1 x.2 (count + y.1) y.2

/-- The normal matrix among the remaining blocks. -/
noncomputable def kept (a : BlockMatrix ℝ) (d2 : Vec ℝ) (count : Nat) :
    Matrix (KeptIndex a count) (KeptIndex a count) ℝ :=
  of fun x y => a.gram (count + x.1) x.2 (count + y.1) y.2 +
    if x = y then d2.get ((a.column (count + x.1)).position + x.2) else 0

/-- The entries of the normal matrix by blocks. -/
theorem normalSystem_wholeIndex (ha : a.WellFormed) (hcount : count ≤ a.columns.length)
    (x x' : EliminatedIndex a count ⊕ KeptIndex a count) :
    normalSystem a d2 (wholeIndex hcount x) (wholeIndex hcount x') =
      a.gram (blockOfIndex x) (placeOf x) (blockOfIndex x') (placeOf x') +
        if x = x' then d2.get (wholeIndex hcount x) else 0 := by
  obtain ⟨b, hb, hi, hval⟩ := wholeIndex_spec ha hcount x
  obtain ⟨b', hb', hi', hval'⟩ := wholeIndex_spec ha hcount x'
  have hgram : (a.toMatrixᵀ * a.toMatrix) (wholeIndex hcount x) (wholeIndex hcount x') =
      a.gram (blockOfIndex x) (placeOf x) (blockOfIndex x') (placeOf x') := by
    rw [← ha.gram_eq hb hi hb' hi', ← hval, ← hval', mul_apply, Finset.sum_range]
    rfl
  rw [normalSystem, Matrix.add_apply, diagonal_apply, hgram]
  simp only [EmbeddingLike.apply_eq_iff_eq]
  rfl

theorem pivots_apply (ha : a.WellFormed) (hcount : count ≤ a.columns.length)
    (hsep : a.Separates count) (x x' : EliminatedIndex a count) :
    pivots a d2 count x x' = a.gram x.1 x.2 x'.1 x'.2 +
      if x = x' then d2.get ((a.column x.1).position + x.2) else 0 := by
  obtain ⟨e, i⟩ := x
  obtain ⟨e', i'⟩ := x'
  by_cases he : e = e'
  · subst he
    have hb := BlockMatrix.getElem?_column (Nat.lt_of_lt_of_le e.isLt hcount)
    rw [pivots, blockDiagonal'_apply_eq, Mat.toMatrix_apply,
      (pivotBlock_spec d2 ha hb).2 i i.isLt i' i'.isLt]
    simp only [Sigma.mk.injEq, heq_eq_eq, true_and, Fin.ext_iff]
  · have hne : (e : Nat) ≠ e' := fun h => he (Fin.ext h)
    rw [pivots, blockDiagonal'_apply_ne _ _ _ he, hsep.gram_eq_zero e.isLt e'.isLt hne, zero_add,
      if_neg fun h => he (congrArg Sigma.fst h)]

/-- Sorted by eliminated and remaining unknowns, the normal matrix falls into
four blocks. -/
theorem submatrix_normalSystem (ha : a.WellFormed) (hcount : count ≤ a.columns.length)
    (hsep : a.Separates count) :
    (normalSystem a d2).submatrix (wholeIndex hcount) (wholeIndex hcount) =
      fromBlocks (pivots a d2 count) (couplings a count) (couplings a count)ᵀ
        (kept a d2 count) := by
  ext x x'
  obtain ⟨b, hb, -, hval⟩ := wholeIndex_spec ha hcount x
  rw [← BlockMatrix.column_eq hb] at hval
  rw [submatrix_apply, normalSystem_wholeIndex ha hcount, hval]
  rcases x with x | x <;> rcases x' with x' | x'
  · rw [fromBlocks_apply₁₁, pivots_apply ha hcount hsep]
    simp only [Sum.inl.injEq]
    rfl
  · exact add_zero _
  · exact (add_zero _).trans (a.gram_comm _ _ _ _)
  · simp only [Sum.inr.injEq]
    rfl

/-! ## The complement -/

/-- The inverse of the first block, block by block. -/
noncomputable def inverses (a : BlockMatrix ℝ) (count : Nat) (w : Nat → Mat ℝ) :
    Matrix (EliminatedIndex a count) (EliminatedIndex a count) ℝ :=
  blockDiagonal' fun e => (w e).toMatrix _ _

theorem pivots_mul_inverses (hw : Inverts a d2 count w) :
    pivots a d2 count * inverses a count w = 1 := by
  have hone : (fun e : Fin count =>
      (pivotBlock a d2 e).toMatrix (a.column e).size (a.column e).size *
        (w e).toMatrix (a.column e).size (a.column e).size) = 1 :=
    funext fun e => hw.mul_eq_one e e.isLt _ (hw.getElem? e.isLt)
  rw [pivots, inverses, ← blockDiagonal'_mul, hone, blockDiagonal'_one]

/-- The inverse acts on one block at a time. -/
theorem inverses_mulVec (f : Nat → Nat → ℝ) (x : EliminatedIndex a count) :
    (inverses a count w *ᵥ fun x => f x.1 x.2) x =
      ∑ u ∈ range (a.column x.1).size, (w x.1).get x.2 u * f x.1 u := by
  obtain ⟨e, i⟩ := x
  rw [mulVec, dotProduct, Fintype.sum_sigma, Fintype.sum_eq_single e, Finset.sum_range]
  · refine Finset.sum_congr rfl fun u _ => ?_
    rw [inverses, blockDiagonal'_apply_eq, Mat.toMatrix_apply]
  · intro e' hne
    refine Finset.sum_eq_zero fun u _ => ?_
    rw [inverses, blockDiagonal'_apply_ne _ _ _ hne.symm, zero_mul]

/-- What all eliminated blocks carry over to the remaining ones. -/
theorem carried_apply (f : Nat → Nat → ℝ) (x : KeptIndex a count) :
    ((couplings a count)ᵀ *ᵥ (inverses a count w *ᵥ fun x => f x.1 x.2)) x =
      ∑ e ∈ range count, carried a w e (count + x.1) x.2 (f e) := by
  rw [mulVec, dotProduct, Fintype.sum_sigma, Finset.sum_range]
  refine Finset.sum_congr rfl fun e _ => ?_
  rw [carried, Finset.sum_range]
  refine Finset.sum_congr rfl fun i _ => ?_
  rw [inverses_mulVec]
  rfl

/-- What the remaining blocks take from the eliminated ones. -/
theorem taken_apply (x : EliminatedIndex a count) :
    (couplings a count *ᵥ fun x => y.get (keptIndex a count x)) x =
      (ofInverses a v d2 count w).taken y x.1 x.2 := by
  rw [mulVec, dotProduct, Fintype.sum_sigma, taken, Finset.sum_range]
  refine Finset.sum_congr rfl fun k _ => ?_
  rw [Finset.sum_range]
  rfl

/-- The reduced matrix is the complement. -/
theorem submatrix_assemble (ha : a.WellFormed) (hw : Inverts a d2 count w) :
    ((ofInverses a v d2 count w).assemble.toMatrix (keptSize a count) (keptSize a count)).submatrix
      (keptIndex a count) (keptIndex a count) =
        kept a d2 count - (couplings a count)ᵀ * inverses a count w * couplings a count := by
  ext x x'
  have hc := BlockMatrix.getElem?_column (Nat.add_lt_of_lt_sub' x.1.isLt)
  have hc' := BlockMatrix.getElem?_column (Nat.add_lt_of_lt_sub' x'.1.isLt)
  have hcarried := carried_apply (w := w) (fun e u => a.gram e u (count + x'.1) x'.2) x
  have hmul : ((couplings a count)ᵀ * inverses a count w * couplings a count) x x' =
      ((couplings a count)ᵀ *ᵥ (inverses a count w *ᵥ
        fun z => a.gram z.1 z.2 (count + x'.1) x'.2)) x := by
    rw [mulVec_mulVec]
    rfl
  have hget : (ofInverses a v d2 count w).assemble.get (keptIndex a count x)
      (keptIndex a count x') = _ :=
    get_assemble (s := ofInverses a v d2 count w) hc hc' x.2.isLt x'.2.isLt
  rw [submatrix_apply, Mat.toMatrix_apply, hget,
    (reducedBlock?_spec ha hw hc hc').2 _ x.2.isLt _ x'.2.isLt, Matrix.sub_apply, hmul, hcarried]
  obtain ⟨k, i⟩ := x
  obtain ⟨k', i'⟩ := x'
  have hsame : ((k : Nat) = k' ∧ (i : Nat) = i') ↔ (⟨k, i⟩ : KeptIndex a count) = ⟨k', i'⟩ := by
    constructor
    · rintro ⟨hk, hi⟩
      obtain rfl := Fin.ext hk
      obtain rfl := Fin.ext hi
      rfl
    · intro h
      cases h
      exact ⟨rfl, rfl⟩
  simp only [hsame, kept, of_apply]
  rw [add_comm (a.gram _ _ _ _)]

/-- The reduced right-hand side, less what is carried over. -/
theorem reducedRhs_keptIndex (ha : a.WellFormed) (hw : Inverts a d2 count w) :
    (fun x => (ofInverses a v d2 count w).reducedRhs.get (keptIndex a count x)) =
      (fun x => a.moment v (count + x.1) x.2) -
        (couplings a count)ᵀ *ᵥ (inverses a count w *ᵥ fun x => a.moment v x.1 x.2) := by
  funext x
  have hc := BlockMatrix.getElem?_column (Nat.add_lt_of_lt_sub' x.1.isLt)
  have hget : (ofInverses a v d2 count w).reducedRhs.get (keptIndex a count x) = _ :=
    get_reducedRhs ha hw hc x.2.isLt
  rw [hget, Pi.sub_apply, carried_apply (a.moment v)]

theorem dimension_ofInverses :
    (ofInverses a v d2 count w).dimension = keptSize a count :=
  Nat.add_left_cancel ((offset_add_dimension (ofInverses a v d2 count w)).trans
    (total_take_add_drop a count).symm)

/-- Back substitution solves for the eliminated unknowns. -/
theorem backSubstitute_wholeIndex (ha : a.WellFormed) (hw : Inverts a d2 count w)
    (hy : y.size = keptSize a count) :
    ((ofInverses a v d2 count w).backSubstitute y).toFun a.numCols ∘ wholeIndex hw.count_le =
      Sum.elim
        (inverses a count w *ᵥ ((fun x => a.moment v x.1 x.2) -
          couplings a count *ᵥ (y.toFun (keptSize a count) ∘ keptIndex a count)))
        (y.toFun (keptSize a count) ∘ keptIndex a count) := by
  obtain ⟨-, hfront, hback⟩ :=
    get_backSubstitute (v := v) ha hw (hy.trans dimension_ofInverses.symm)
  funext x
  rcases x with x | x
  · obtain ⟨b, hb, -, hval⟩ := wholeIndex_spec ha hw.count_le (Sum.inl x)
    have htaken : (fun x : EliminatedIndex a count => a.moment v x.1 x.2) -
        couplings a count *ᵥ (y.toFun (keptSize a count) ∘ keptIndex a count) =
          fun x => a.moment v x.1 x.2 - (ofInverses a v d2 count w).taken y x.1 x.2 :=
      funext fun x => congrArg (a.moment v x.1 x.2 - ·) (taken_apply x)
    rw [Sum.elim_inl, htaken, inverses_mulVec fun e u =>
      a.moment v e u - (ofInverses a v d2 count w).taken y e u, ← hfront x.1 x.1.isLt x.2 x.2.isLt]
    rw [← BlockMatrix.column_eq hb] at hval
    exact congrArg (Vec.get _) hval
  · exact hback _ ((keptIndex a count x).isLt.trans_eq dimension_ofInverses.symm)

/-- The right-hand side of the whole system by blocks. -/
theorem moments_wholeIndex (ha : a.WellFormed) (hcount : count ≤ a.columns.length) :
    (a.toMatrixᵀ *ᵥ v.toFun a.numRows) ∘ wholeIndex hcount =
      Sum.elim (fun x => a.moment v x.1 x.2) fun x => a.moment v (count + x.1) x.2 := by
  funext x
  obtain ⟨b, hb, hi, hval⟩ := wholeIndex_spec ha hcount x
  have hmoment : (a.toMatrixᵀ *ᵥ v.toFun a.numRows) (wholeIndex hcount x) =
      a.moment v (blockOfIndex x) (placeOf x) := by
    rw [← ha.moment_eq hb hi, ← hval, Finset.sum_range]
    rfl
  rw [Function.comp_apply, hmoment]
  rcases x with x | x <;> rfl

/-- What back substitution makes of a solution of the reduced system solves the
whole system. -/
theorem normalSystem_mulVec_backSubstitute (ha : a.WellFormed) (hsep : a.Separates count)
    (hw : Inverts a d2 count w) (hy : y.size = keptSize a count)
    (hsolve : (ofInverses a v d2 count w).assemble.toMatrix (keptSize a count) (keptSize a count) *ᵥ
      y.toFun (keptSize a count) =
        (ofInverses a v d2 count w).reducedRhs.toFun (keptSize a count)) :
    normalSystem a d2 *ᵥ ((ofInverses a v d2 count w).backSubstitute y).toFun a.numCols =
      a.toMatrixᵀ *ᵥ v.toFun a.numRows := by
  have hreduced :
      (kept a d2 count - (couplings a count)ᵀ * inverses a count w * couplings a count) *ᵥ
        (y.toFun (keptSize a count) ∘ keptIndex a count) =
        (fun x => a.moment v (count + x.1) x.2) -
          (couplings a count)ᵀ *ᵥ (inverses a count w *ᵥ fun x => a.moment v x.1 x.2) := by
    rw [← submatrix_assemble (v := v) ha hw, submatrix_mulVec_comp, hsolve,
      ← reducedRhs_keptIndex ha hw]
    rfl
  have hwhole : (normalSystem a d2 *ᵥ
      ((ofInverses a v d2 count w).backSubstitute y).toFun a.numCols) ∘ wholeIndex hw.count_le =
        (a.toMatrixᵀ *ᵥ v.toFun a.numRows) ∘ wholeIndex hw.count_le := by
    rw [← submatrix_mulVec_comp _ _ _ (wholeIndex hw.count_le), backSubstitute_wholeIndex ha hw hy, submatrix_normalSystem ha hw.count_le hsep,
      fromBlocks_mulVec_eliminated (pivots_mul_inverses hw), hreduced, sub_add_cancel,
      moments_wholeIndex ha hw.count_le]
  exact (wholeIndex hw.count_le).surjective.injective_comp_right hwhole

/-! ## Definiteness -/

/-- The pivot blocks of a definite system are positive definite. -/
theorem posDef_pivotBlock (ha : a.WellFormed) (hcount : count ≤ a.columns.length)
    (hsep : a.Separates count) (h : (normalSystem a d2).PosDef) {e : Nat} (he : e < count) :
    ((pivotBlock a d2 e).toMatrix (a.column e).size (a.column e).size).PosDef := by
  have hwhole := h.submatrix (wholeIndex hcount).injective
  rw [submatrix_normalSystem ha hcount hsep] at hwhole
  have hinjective : Function.Injective
      fun i => (⟨⟨e, he⟩, i⟩ : EliminatedIndex a count) := fun i i' h => by
    cases h
    rfl
  have hblock := (posDef_of_fromBlocks hwhole).submatrix hinjective
  have heq : (pivots a d2 count).submatrix (fun i => ⟨⟨e, he⟩, i⟩) (fun i => ⟨⟨e, he⟩, i⟩) =
      (pivotBlock a d2 e).toMatrix (a.column e).size (a.column e).size := by
    ext i j
    rw [submatrix_apply, pivots, blockDiagonal'_apply_eq]
  rwa [heq] at hblock

/-- The reduced matrix of a definite system is positive definite. -/
theorem posDef_assemble (ha : a.WellFormed) (hsep : a.Separates count) (hw : Inverts a d2 count w)
    (h : (normalSystem a d2).PosDef) :
    ((ofInverses a v d2 count w).assemble.toMatrix
      (keptSize a count) (keptSize a count)).PosDef := by
  have hwhole := h.submatrix (wholeIndex hw.count_le).injective
  rw [submatrix_normalSystem ha hw.count_le hsep] at hwhole
  have hcomplement := posDef_complement hwhole (pivots_mul_inverses hw)
  rw [← submatrix_assemble (v := v) ha hw] at hcomplement
  have hpos := hcomplement.submatrix (keptIndex a count).symm.injective
  rwa [submatrix_submatrix, Equiv.self_comp_symm, submatrix_id_id] at hpos

end Elimination

end LeastSquares
