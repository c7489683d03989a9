import LeastSquares.Proofs.AssembledBlocks
import LeastSquares.Proofs.EliminationVectors
import LeastSquares.Proofs.LinearSolvers

/-!
# The forms of a reduced system

What is left of the normal equations after an elimination is the complement

  `S = FᵀF + D_f² - FᵀE (EᵀE + D_e²)⁻¹ EᵀF`,
  `S y = Fᵀb - FᵀE (EᵀE + D_e²)⁻¹ Eᵀb`,

where `E` are the eliminated columns and `F` the others. Elimination succeeds only
if no row reads two eliminated blocks and every pivot block is definite, so
`EᵀE + D_e²` falls into blocks that have been inverted one by one. Whatever is
accumulated from there on, the blocks, the entries, the diagonal, the product or
the right-hand side, is the same `S`. A block appears where two remaining blocks
meet in a row or by way of an eliminated block, whatever the numbers are.

## Main definitions

* `Elimination.complement`, `Elimination.complementRhs` — `S` and its right-hand
  side.
* `Elimination.FormsAgree` — all forms are those of the complement.

## Main results

* `Elimination.exists_inverts`, `Elimination.separates_of_new?` — what success
  says about the system.
* `Elimination.Inverts.toMatrix_assemble`, `Elimination.Inverts.toFun_reducedRhs`
  — the reduced system is the complement.
* `Elimination.keys_gather_congr` — which blocks there are.
* `Elimination.formsAgree_of_new?` — all forms of a reduced system.
-/

namespace LeastSquares

open Matrix

variable {a : BlockMatrix ℝ} {v d2 : Vec ℝ} {count : Nat} {w : Nat → Mat ℝ}

/-! ## Two groups of columns -/

namespace BlockMatrix

/-- The number of eliminated columns. -/
abbrev eliminatedSize (a : BlockMatrix ℝ) (count : Nat) : Nat :=
  total ((a.columns.take count).map Block.size)

/-- The columns of the eliminated blocks. -/
noncomputable def eliminatedColumns (a : BlockMatrix ℝ) (count : Nat) :
    Matrix (Fin a.numRows) (Fin (a.eliminatedSize count)) ℝ :=
  of fun i j => a.toDense.get i j

/-- The columns of the remaining blocks. -/
noncomputable def keptColumns (a : BlockMatrix ℝ) (count : Nat) :
    Matrix (Fin a.numRows) (Fin (Elimination.keptSize a count)) ℝ :=
  of fun i j => a.toDense.get i (a.eliminatedSize count + j)

/-- The columns of both groups, the eliminated ones first. -/
def splitIndex (a : BlockMatrix ℝ) (count : Nat) :
    Fin (a.eliminatedSize count) ⊕ Fin (Elimination.keptSize a count) ≃ Fin a.numCols :=
  finSumFinEquiv.trans (finCongr (Elimination.total_take_add_drop a count))

theorem toMatrix_splitIndex (a : BlockMatrix ℝ) (count : Nat) :
    a.toMatrix.submatrix id (a.splitIndex count) =
      fromCols (a.eliminatedColumns count) (a.keptColumns count) := by
  ext i (j | j) <;> rfl

end BlockMatrix

namespace Elimination

/-- The normal matrix of the eliminated columns, `EᵀE + D_e²`. -/
noncomputable def pivotSystem (a : BlockMatrix ℝ) (d2 : Vec ℝ) (count : Nat) :
    Matrix (Fin (a.eliminatedSize count)) (Fin (a.eliminatedSize count)) ℝ :=
  (a.eliminatedColumns count)ᵀ * a.eliminatedColumns count +
    diagonal fun j : Fin (a.eliminatedSize count) => d2.get j

/-- The normal matrix of the remaining columns, `FᵀF + D_f²`. -/
noncomputable def keptSystem (a : BlockMatrix ℝ) (d2 : Vec ℝ) (count : Nat) :
    Matrix (Fin (keptSize a count)) (Fin (keptSize a count)) ℝ :=
  (a.keptColumns count)ᵀ * a.keptColumns count +
    diagonal fun j : Fin (keptSize a count) => d2.get (a.eliminatedSize count + j)

/-- The complement `FᵀF + D_f² - FᵀE (EᵀE + D_e²)⁻¹ EᵀF`. -/
noncomputable def complement (a : BlockMatrix ℝ) (d2 : Vec ℝ) (count : Nat) :
    Matrix (Fin (keptSize a count)) (Fin (keptSize a count)) ℝ :=
  keptSystem a d2 count - (a.keptColumns count)ᵀ * a.eliminatedColumns count *
    (pivotSystem a d2 count)⁻¹ * ((a.eliminatedColumns count)ᵀ * a.keptColumns count)

/-- The right-hand side `Fᵀb - FᵀE (EᵀE + D_e²)⁻¹ Eᵀb`. -/
noncomputable def complementRhs (a : BlockMatrix ℝ) (v d2 : Vec ℝ) (count : Nat) :
    Fin (keptSize a count) → ℝ :=
  (a.keptColumns count)ᵀ *ᵥ v.toFun a.numRows -
    ((a.keptColumns count)ᵀ * a.eliminatedColumns count * (pivotSystem a d2 count)⁻¹) *ᵥ
      ((a.eliminatedColumns count)ᵀ *ᵥ v.toFun a.numRows)

theorem normalSystem_splitIndex (a : BlockMatrix ℝ) (d2 : Vec ℝ) (count : Nat) :
    (normalSystem a d2).submatrix (a.splitIndex count) (a.splitIndex count) =
      fromBlocks (pivotSystem a d2 count)
        ((a.eliminatedColumns count)ᵀ * a.keptColumns count)
        ((a.keptColumns count)ᵀ * a.eliminatedColumns count) (keptSystem a d2 count) := by
  have hgram : (a.toMatrixᵀ * a.toMatrix).submatrix (a.splitIndex count) (a.splitIndex count) =
      (a.toMatrix.submatrix id (a.splitIndex count))ᵀ *
        a.toMatrix.submatrix id (a.splitIndex count) := rfl
  have hdiagonal : (diagonal (d2.toFun a.numCols)).submatrix (a.splitIndex count)
      (a.splitIndex count) = fromBlocks (diagonal fun j : Fin (a.eliminatedSize count) => d2.get j)
        0 0 (diagonal fun j : Fin (keptSize a count) => d2.get (a.eliminatedSize count + j)) := by
    rw [fromBlocks_diagonal, submatrix_diagonal_equiv]
    refine congrArg diagonal (funext fun x => ?_)
    rcases x with x | x <;> rfl
  rw [normalSystem, submatrix_add, Pi.add_apply, Pi.add_apply, hgram, hdiagonal,
    BlockMatrix.toMatrix_splitIndex, transpose_fromCols, fromRows_mul_fromCols, fromBlocks_add,
    add_zero, add_zero]
  rfl

/-- The normal matrix of the two groups, by blocks. -/
theorem submatrix_groups (d2 : Vec ℝ) (ha : a.WellFormed) (hcount : count ≤ a.columns.length)
    (hsep : a.Separates count) :
    (pivotSystem a d2 count).submatrix (eliminatedIndex hcount) (eliminatedIndex hcount) =
        pivots a d2 count ∧
      ((a.eliminatedColumns count)ᵀ * a.keptColumns count).submatrix (eliminatedIndex hcount)
        (keptIndex a count) = couplings a count ∧
      (keptSystem a d2 count).submatrix (keptIndex a count) (keptIndex a count) =
        kept a d2 count := by
  have hwhole : (normalSystem a d2).submatrix (wholeIndex hcount) (wholeIndex hcount) =
      ((normalSystem a d2).submatrix (a.splitIndex count) (a.splitIndex count)).submatrix
        (Sum.map (eliminatedIndex hcount) (keptIndex a count))
        (Sum.map (eliminatedIndex hcount) (keptIndex a count)) := rfl
  have hblocks : (normalSystem a d2).submatrix (wholeIndex hcount) (wholeIndex hcount) = _ :=
    submatrix_normalSystem ha hcount hsep
  rw [hwhole, normalSystem_splitIndex] at hblocks
  refine ⟨?_, ?_, ?_⟩
  · exact congrArg toBlocks₁₁ hblocks
  · exact congrArg toBlocks₁₂ hblocks
  · exact congrArg toBlocks₂₂ hblocks

/-- The right-hand sides of the two groups, by blocks. -/
theorem mulVec_groups (v : Vec ℝ) (ha : a.WellFormed) (hcount : count ≤ a.columns.length) :
    ((a.eliminatedColumns count)ᵀ *ᵥ v.toFun a.numRows) ∘ eliminatedIndex hcount =
        (fun x => a.moment v x.1 x.2) ∧
      ((a.keptColumns count)ᵀ *ᵥ v.toFun a.numRows) ∘ keptIndex a count =
        fun x => a.moment v (count + x.1) x.2 := by
  have hmoments := moments_wholeIndex (v := v) ha hcount
  refine ⟨?_, ?_⟩
  · exact congrArg (· ∘ Sum.inl) hmoments
  · exact congrArg (· ∘ Sum.inr) hmoments

/-! ## The complement by blocks -/

/-- The pivot blocks are inverted if their inverses are, all at once. -/
theorem Inverts.inv_pivotSystem (hw : Inverts a d2 count w) (ha : a.WellFormed)
    (hsep : a.Separates count) : IsUnit (pivotSystem a d2 count) ∧
      (pivotSystem a d2 count)⁻¹.submatrix (eliminatedIndex hw.count_le)
        (eliminatedIndex hw.count_le) = inverses a count w := by
  obtain ⟨hpivots, -, -⟩ := submatrix_groups d2 ha hw.count_le hsep
  have hmul := pivots_mul_inverses hw
  rw [← hpivots] at hmul
  refine ⟨?_, ?_⟩
  · rw [← isUnit_submatrix_equiv (eliminatedIndex hw.count_le) (eliminatedIndex hw.count_le)]
    exact IsUnit.of_mul_eq_one _ hmul
  · rw [← inv_submatrix_equiv]
    exact inv_eq_right_inv hmul

theorem Inverts.submatrix_complement (hw : Inverts a d2 count w) (ha : a.WellFormed)
    (hsep : a.Separates count) :
    (complement a d2 count).submatrix (keptIndex a count) (keptIndex a count) =
      kept a d2 count - (couplings a count)ᵀ * inverses a count w * couplings a count := by
  obtain ⟨-, hcouplings, hkept⟩ := submatrix_groups d2 ha hw.count_le hsep
  rw [← hkept, ← hcouplings, ← (hw.inv_pivotSystem ha hsep).2, transpose_submatrix,
    submatrix_mul_equiv, submatrix_mul_equiv, transpose_mul, transpose_transpose]
  rfl

theorem Inverts.complementRhs_keptIndex (hw : Inverts a d2 count w) (ha : a.WellFormed)
    (hsep : a.Separates count) (v : Vec ℝ) :
    complementRhs a v d2 count ∘ keptIndex a count = (fun x => a.moment v (count + x.1) x.2) -
      (couplings a count)ᵀ *ᵥ (inverses a count w *ᵥ fun x => a.moment v x.1 x.2) := by
  obtain ⟨-, hcouplings, -⟩ := submatrix_groups d2 ha hw.count_le hsep
  obtain ⟨heliminated, hkept⟩ := mulVec_groups v ha hw.count_le
  rw [← hkept, ← heliminated, ← hcouplings, ← (hw.inv_pivotSystem ha hsep).2, transpose_submatrix,
    submatrix_mulVec_comp, submatrix_mulVec_comp, mulVec_mulVec, transpose_mul, transpose_transpose]
  rfl

/-- The assembled reduced matrix is the complement. -/
theorem Inverts.toMatrix_assemble (hw : Inverts a d2 count w) (ha : a.WellFormed)
    (hsep : a.Separates count) (v : Vec ℝ) :
    (ofInverses a v d2 count w).assemble.toMatrix (keptSize a count) (keptSize a count) =
      complement a d2 count := by
  have hblocks := (submatrix_assemble (v := v) ha hw).trans (hw.submatrix_complement ha hsep).symm
  ext p q
  have hentry := congrFun₂ hblocks ((keptIndex a count).symm p) ((keptIndex a count).symm q)
  rwa [submatrix_apply, submatrix_apply, Equiv.apply_symm_apply, Equiv.apply_symm_apply] at hentry

theorem Inverts.toFun_reducedRhs (hw : Inverts a d2 count w) (ha : a.WellFormed)
    (hsep : a.Separates count) (v : Vec ℝ) :
    (ofInverses a v d2 count w).reducedRhs.toFun (keptSize a count) =
      complementRhs a v d2 count :=
  (keptIndex a count).surjective.injective_comp_right
    ((reducedRhs_keptIndex ha hw).trans (hw.complementRhs_keptIndex ha hsep v).symm)

/-! ## Successful eliminations -/

section Success

variable {s : Elimination ℝ} {b c : Block} {e k l : Nat}

theorem isHermitian_pivotBlock (d2 : Vec ℝ) (ha : a.WellFormed) (hb : a.columns[e]? = some b) :
    ((pivotBlock a d2 e).toMatrix b.size b.size).IsHermitian := by
  refine .ext fun i j => ?_
  obtain ⟨-, hget⟩ := pivotBlock_spec d2 ha hb
  rw [star_trivial, Mat.toMatrix_apply, Mat.toMatrix_apply, hget _ i.isLt _ j.isLt,
    hget _ j.isLt _ i.isLt, a.gram_comm]
  refine congrArg (_ + ·) ?_
  by_cases hij : (i : Nat) = j
  · rw [if_pos hij, if_pos hij.symm, hij]
  · rw [if_neg hij, if_neg (Ne.symm hij)]

/-- Where elimination succeeds, all pivot blocks have been inverted. -/
theorem exists_inverts (ha : a.WellFormed) (h : new? a v d2 count = .ok s) :
    ∃ w, Inverts a d2 count w ∧ s = ofInverses a v d2 count w := by
  obtain ⟨w, rfl⟩ := exists_ofInverses h
  have hs := creates_of_new? h
  have hblocks : ∀ e < count, eliminateBlock? a v d2 count e = .ok (blockOf a v count w e) :=
    fun e he => List.forall₂_same.mp (List.forall₂_map_right_iff.mp hs.blocks) e
      (List.mem_range.mpr he)
  have hinverse : ∀ e < count, ∀ b, a.columns[e]? = some b → (w e).HasShape b.size b.size ∧
      (pivotBlock a d2 e).toMatrix b.size b.size * (w e).toMatrix b.size b.size = 1 := by
    intro e he b hb
    have hrows := (pivotBlock_spec d2 ha hb).1.1
    have hblock := hblocks e he
    rw [eliminateBlock?_eq] at hblock
    cases hfactor : (Factorizations.provided ℝ).factor? (pivotBlock a d2 e) with
    | none =>
        rw [hfactor] at hblock
        cases hblock
    | some f =>
        rw [hfactor] at hblock
        have hw : (Factorizations.provided ℝ).inverse f = w e := congrArg EliminatedBlock.inverse (Except.ok.inj hblock)
        have hpos := Factorizations.exact_provided.definite hrows
          (isHermitian_pivotBlock d2 ha hb) hfactor
        obtain ⟨f', hf', -, hshape, hmul⟩ := Factorizations.exact_provided.factors hrows hpos
        cases hfactor.symm.trans hf'
        exact ⟨hw ▸ hshape, hw ▸ hmul⟩
  exact ⟨w, ⟨hs.count_le, fun e he b hb => (hinverse e he b hb).1,
    fun e he b hb => (hinverse e he b hb).2⟩, rfl⟩

/-- In ascending order the first columns come first. -/
theorem takeWhile_eq_filter {cells : List (Cell ℝ)}
    (h : Ascending.Sorted (cells.map Cell.column)) (n : Nat) :
    (cells.takeWhile fun c => c.column < n) = cells.filter fun c => c.column < n := by
  induction cells with
  | nil => rfl
  | cons c cells ih =>
      obtain ⟨hhead, htail⟩ := List.pairwise_cons.mp h
      rw [List.takeWhile_cons, List.filter_cons]
      by_cases hc : c.column < n
      · simp only [hc, decide_true, if_true, ih htail]
      · have hrest : (cells.filter fun c => c.column < n) = [] := by
          refine List.filter_eq_nil_iff.mpr fun d hd hlt => ?_
          have hle := hhead _ (List.mem_map_of_mem hd)
          have hlt := of_decide_eq_true hlt
          omega
        rw [decide_eq_false hc, if_neg Bool.false_ne_true, hrest]
        rfl

/-- Where elimination succeeds, no row reads two eliminated blocks. -/
theorem separates_of_new? (ha : a.WellFormed) (h : new? a v d2 count = .ok s) :
    a.Separates count := by
  intro row hrow c hc c' hc' hlt hlt'
  obtain ⟨r, hr, rfl⟩ := List.mem_iff_getElem.mp hrow
  have hnone := List.find?_eq_none.mp (creates_of_new? h).uncoupled
  have hlength : (a.rows[r].cells.filter fun c => c.column < count).length ≤ 1 := by
    rw [← takeWhile_eq_filter (ha.ascending _ hrow)]
    have hle := hnone _ (List.mem_mapIdx.mpr ⟨r, hr, rfl⟩)
    exact Nat.le_of_not_lt fun hlt => hle (decide_eq_true hlt)
  have hmem : ∀ d ∈ a.rows[r].cells, d.column < count →
      d ∈ a.rows[r].cells.filter fun c => c.column < count :=
    fun d hd hlt => List.mem_filter.mpr ⟨hd, decide_eq_true hlt⟩
  have hfirst := hmem c hc hlt
  have hsecond := hmem c' hc' hlt'
  generalize a.rows[r].cells.filter (fun c => c.column < count) = l at hlength hfirst hsecond
  match l with
  | [] => cases hfirst
  | [d] => rw [List.mem_singleton.mp hfirst, List.mem_singleton.mp hsecond]
  | _ :: _ :: _ => simp at hlength

end Success

/-! ## Blocks, entries and positions -/

section Forms

variable {s : Elimination ℝ} {b c : Block} {k l i j : Nat}

/-- An entry of the assembled matrix lies in the block where two remaining blocks
meet. -/
theorem get_assemble_remaining (hs : s.matrix.WellFormed) (hb : s.remaining[k]? = some b)
    (hc : s.remaining[l]? = some c) (hi : i < b.size) (hj : j < c.size) :
    s.assemble.get (b.position + i) (c.position + j) =
      (s.reducedBlock? k l).elim 0 fun m => m.get i j := by
  obtain ⟨b', hb', rfl⟩ := exists_column_of_remaining hb
  obtain ⟨c', hc', rfl⟩ := exists_column_of_remaining hc
  rw [position_remaining hs hb', position_remaining hs hc', Nat.add_sub_cancel_left,
    Nat.add_sub_cancel_left]
  exact get_assemble hb' hc' hi hj

theorem Regular.find?_gather (hs : s.Regular) (k l : Nat) :
    Table.find? ⟨k, l⟩ (s.gather false) = s.reducedBlock? k l :=
  (hs.readsAs_gather false k l).find

/-- The blocks that are copied make up the assembled matrix. -/
theorem Regular.toMatrix_assembleDense (hs : s.Regular) {n : Nat} (hn : s.dimension = n) :
    (s.assembleDense (s.gather false)).toMatrix n n = s.assemble.toMatrix n n := by
  subst hn
  ext p q
  obtain ⟨k, b, hb, i, hi, hp⟩ := exists_remaining hs.matrix p.isLt
  obtain ⟨l, c, hc, j, hj, hq⟩ := exists_remaining hs.matrix q.isLt
  rw [Mat.toMatrix_apply, Mat.toMatrix_apply, hp, hq,
    (hs.places_gather false).get_assembleDense hs.matrix hb hc hi hj, hs.find?_gather,
    get_assemble_remaining hs.matrix hb hc hi hj, real_zero]

/-- The entries that are listed make up the assembled matrix. -/
theorem Regular.toMatrix_assembleSparse (hs : s.Regular) {n : Nat} (hn : s.dimension = n) :
    (of fun p q : Fin n => sumAt (s.assembleSparse (s.gather false)) p q) =
      s.assemble.toMatrix n n := by
  subst hn
  ext p q
  obtain ⟨k, b, hb, i, hi, hp⟩ := exists_remaining hs.matrix p.isLt
  obtain ⟨l, c, hc, j, hj, hq⟩ := exists_remaining hs.matrix q.isLt
  rw [of_apply, Mat.toMatrix_apply, hp, hq,
    (hs.places_gather false).sumAt_assembleSparse hs.matrix hb hc hi hj, hs.find?_gather,
    get_assemble_remaining hs.matrix hb hc hi hj]

/-- The matrix `m` stands in `S` where two remaining blocks meet. -/
def IsBlock {n : Nat} (S : Matrix (Fin n) (Fin n) ℝ) (b c : Block) (m : Mat ℝ) : Prop :=
  m.HasShape b.size c.size ∧ ∀ i < b.size, ∀ j < c.size, ∃ p q : Fin n,
    (p : Nat) = b.position + i ∧ (q : Nat) = c.position + j ∧ m.get i j = S p q

/-- A gathered block stands in the assembled matrix. -/
theorem Regular.isBlock_gather (hs : s.Regular) {n : Nat} (hn : s.dimension = n)
    {diagonalOnly : Bool} {m : Mat ℝ} (hm : (⟨k, l⟩, m) ∈ s.gather diagonalOnly) :
    IsBlock (s.assemble.toMatrix n n) (s.keptBlock k) (s.keptBlock l) m := by
  subst hn
  have hblock := (hs.mem_gather.mp hm).2
  obtain ⟨b, c, hb, hc, hrows, hcols⟩ := hs.shape_reducedBlock? hblock
  rw [keptBlock_eq hb, keptBlock_eq hc]
  refine ⟨⟨hrows, hcols⟩, fun i hi j hj => ?_⟩
  have hp := (Nat.add_lt_add_left hi b.position).trans_le (stop_remaining_le hs.matrix hb)
  have hq := (Nat.add_lt_add_left hj c.position).trans_le (stop_remaining_le hs.matrix hc)
  refine ⟨⟨_, hp⟩, ⟨_, hq⟩, rfl, rfl, ?_⟩
  rw [Mat.toMatrix_apply, get_assemble_remaining hs.matrix hb hc hi hj, hblock]
  rfl

/-- The positions that a sparse factorization is prepared for are those of the
listed entries. -/
theorem Regular.mem_reducedPattern (hs : s.Regular) {p q : Nat} :
    (p, q) ∈ s.reducedPattern ↔ ∃ v, (p, q, v) ∈ s.assembleSparse (s.gather false) := by
  have hzip : ∀ {β : Type} {f : Nat → β} {x : β} {b : Block},
      (x, b) ∈ ((List.range s.remaining.length).map f).zip s.remaining ↔
        ∃ k, s.remaining[k]? = some b ∧ f k = x := by
    intro β f x b
    rw [List.mem_iff_getElem?]
    refine exists_congr fun k => ?_
    rw [List.getElem?_zip_eq_some, and_comm]
    refine and_congr_right fun hb => ?_
    rw [List.getElem?_map, List.getElem?_range (List.getElem?_eq_some_iff.mp hb).1,
      Option.map_some, Option.some.injEq]
  simp only [reducedPattern, reducedBlocks, List.mem_flatMap, Prod.exists, hzip, List.mem_range,
    (hs.places_gather false).mem_assembleSparse, hs.mem_gather]
  constructor
  · rintro ⟨_, b, ⟨k, hb, rfl⟩, i, hi, o, c, hmem, hpos⟩
    obtain ⟨l, hc, rfl⟩ := hzip.mp hmem
    split at hpos
    · rename_i hsome
      obtain ⟨m, hm⟩ := Option.isSome_iff_exists.mp hsome
      obtain ⟨j, hj, hpq⟩ := List.mem_map.mp hpos
      cases hpq
      exact ⟨_, ⟨k, l⟩, m, b, c, ⟨fun h => absurd h Bool.false_ne_true, hm⟩, hb, hc, i, hi, j,
        List.mem_range.mp hj, rfl, rfl, rfl⟩
    · cases hpos
  · rintro ⟨v, ⟨k, l⟩, m, b, c, ⟨-, hm⟩, hb, hc, i, hi, j, hj, rfl, rfl, rfl⟩
    refine ⟨_, b, ⟨k, hb, rfl⟩, i, hi, s.reducedBlock? k l, c, hzip.mpr ⟨l, hc, rfl⟩, ?_⟩
    rw [if_pos (Option.isSome_iff_exists.mpr ⟨m, hm⟩)]
    exact List.mem_map.mpr ⟨j, List.mem_range.mpr hj, rfl⟩

/-- Which blocks of the reduced matrix there are. -/
theorem isSome_reducedBlock?_iff (hs : (ofInverses a v d2 count w).Regular) :
    ((ofInverses a v d2 count w).reducedBlock? k l).isSome = true ↔
      (k < a.columns.length - count ∧ l < a.columns.length - count) ∧
        a.coupled count k l = true := by
  constructor
  · intro h
    obtain ⟨m, hm⟩ := Option.isSome_iff_exists.mp h
    obtain ⟨b, c, hb, hc, -⟩ := hs.shape_reducedBlock? hm
    have hk := (List.getElem?_eq_some_iff.mp hb).1.trans_eq (length_remaining _)
    have hl := (List.getElem?_eq_some_iff.mp hc).1.trans_eq (length_remaining _)
    exact ⟨⟨hk, hl⟩, (isSome_reducedBlock? hk hl).symm.trans h⟩
  · rintro ⟨⟨hk, hl⟩, h⟩
    exact (isSome_reducedBlock? hk hl).trans h

/-- The diagonal alone has a block for every remaining one. -/
theorem keys_gather_true (hs : (ofInverses a v d2 count w).Regular) :
    Table.keys ((ofInverses a v d2 count w).gather true) =
      (List.range (a.columns.length - count)).map fun k => ⟨k, k⟩ := by
  refine List.Pairwise.eq_of_mem_iff (hs.places_gather true).sorted ?_ fun x => ?_
  · exact List.pairwise_map.mpr (List.pairwise_lt_range.imp fun hlt => .inl hlt)
  · rw [hs.mem_keys_gather, isSome_reducedBlock?_iff hs, List.mem_map]
    constructor
    · rintro ⟨hdiagonal, ⟨hk, -⟩, -⟩
      obtain ⟨row, column⟩ := x
      exact ⟨row, List.mem_range.mpr hk, congrArg (BlockKey.mk row) (hdiagonal rfl)⟩
    · rintro ⟨k, hk, rfl⟩
      have hk := List.mem_range.mp hk
      exact ⟨fun _ => rfl, ⟨hk, hk⟩, by simp [BlockMatrix.coupled]⟩

/-- The diagonal alone is what preconditioners are made of. -/
theorem values_gather_true (hs : (ofInverses a v d2 count w).Regular) :
    Table.values ((ofInverses a v d2 count w).gather true) =
      (ofInverses a v d2 count w).diagonalBlocks.map Prod.snd := by
  refine List.ext_getElem? fun k => ?_
  have hkey := congrArg (fun keys : List BlockKey => keys[k]?) (keys_gather_true hs)
  simp only [Table.keys, List.getElem?_map] at hkey
  rw [Table.values, List.getElem?_map, List.getElem?_map, diagonalBlocks, List.getElem?_mapIdx]
  by_cases hk : k < a.columns.length - count
  · have hb := List.getElem?_eq_getElem
      (hk.trans_eq (length_remaining (ofInverses a v d2 count w)).symm)
    rw [List.getElem?_range hk, Option.map_some] at hkey
    obtain ⟨⟨key, m⟩, he, hEq⟩ := Option.map_eq_some_iff.mp hkey
    obtain rfl : key = ⟨k, k⟩ := hEq
    have hblock := (hs.mem_gather.mp (List.mem_of_getElem? he)).2
    rw [he, hb, Option.map_some, Option.map_some, Option.map_some, hblock, Option.getD_some]
  · have hnone : (ofInverses a v d2 count w).remaining[k]? = none :=
      List.getElem?_eq_none ((length_remaining _).trans_le (Nat.le_of_not_lt hk))
    have hrange : (List.range (a.columns.length - count))[k]? = none :=
      List.getElem?_eq_none (List.length_range.trans_le (Nat.le_of_not_lt hk))
    rw [hrange, Option.map_none] at hkey
    rw [Option.map_eq_none_iff.mp hkey, hnone]
    rfl

/-- Which blocks are gathered depends on the structure alone. -/
theorem keys_gather_congr {a' : BlockMatrix ℝ} {v' d2' : Vec ℝ} {s' : Elimination ℝ}
    (ha : a.WellFormed) (ha' : a'.WellFormed) (hshape : a'.shape = a.shape)
    (h : new? a v d2 count = .ok s) (h' : new? a' v' d2' count = .ok s') (diagonalOnly : Bool) :
    Table.keys (s'.gather diagonalOnly) = Table.keys (s.gather diagonalOnly) := by
  have hs := regular_of_new? ha h
  have hs' := regular_of_new? ha' h'
  obtain ⟨w, rfl⟩ := exists_ofInverses h
  obtain ⟨w', rfl⟩ := exists_ofInverses h'
  refine List.Pairwise.eq_of_mem_iff (hs'.places_gather diagonalOnly).sorted
    (hs.places_gather diagonalOnly).sorted fun x => ?_
  rw [hs.mem_keys_gather, hs'.mem_keys_gather, isSome_reducedBlock?_iff hs,
    isSome_reducedBlock?_iff hs', BlockMatrix.columns_congr hshape,
    BlockMatrix.coupled_congr hshape]

end Forms

/-! ## All forms -/

/-- All forms in which a reduced system is available are those of the complement:
with `E` and `F` the eliminated and the remaining columns of `A`,
`S = FᵀF + D_f² - FᵀE (EᵀE + D_e²)⁻¹ EᵀF`, and the right-hand side is
`Fᵀb - FᵀE (EᵀE + D_e²)⁻¹ Eᵀb`. -/
structure FormsAgree (a : BlockMatrix ℝ) (b d2 : Vec ℝ) (count : Nat) (s : Elimination ℝ) :
    Prop where
  /-- What is inverted can be inverted. -/
  invertible : IsUnit (pivotSystem a d2 count)
  /-- The blocks copied into place are the complement. -/
  dense : (s.assembleDense (s.gather false)).HasShape (keptSize a count) (keptSize a count) ∧
    (s.assembleDense (s.gather false)).toMatrix (keptSize a count) (keptSize a count) =
      complement a d2 count
  /-- The listed entries lie within the matrix, none of them twice. -/
  positions : ((s.assembleSparse (s.gather false)).map fun e => (e.1, e.2.1)).Nodup ∧
    ∀ e ∈ s.assembleSparse (s.gather false), e.1 < keptSize a count ∧ e.2.1 < keptSize a count
  /-- The listed entries make up the complement. -/
  sparse : (of fun p q : Fin (keptSize a count) => sumAt (s.assembleSparse (s.gather false)) p q) =
    complement a d2 count
  /-- The product that never forms the matrix is that with the complement. -/
  product : Multiplies s.walkReduced (complement a d2 count)
  /-- The right-hand side. -/
  rhs : s.walkRhs.size = keptSize a count ∧
    s.walkRhs.toFun (keptSize a count) = complementRhs a b d2 count
  /-- The diagonal alone has one block for every remaining one, which is that of the
  complement. -/
  diagonal : Table.keys (s.gather true) =
      ((List.range (a.columns.length - count)).map fun k => ⟨k, k⟩) ∧
    ∀ k m, (⟨k, k⟩, m) ∈ s.gather true →
      IsBlock (complement a d2 count) (s.keptBlock k) (s.keptBlock k) m
  /-- Which blocks there are is the same for all systems of a structure. -/
  keys : ∀ (a' : BlockMatrix ℝ) (b' d2' : Vec ℝ) (s' : Elimination ℝ), a'.WellFormed →
    a'.shape = a.shape → new? a' b' d2' count = .ok s' → ∀ diagonalOnly,
      Table.keys (s'.gather diagonalOnly) = Table.keys (s.gather diagonalOnly)
  /-- The solvers work with the same matrix, pattern, diagonal, product and right-hand
  side. -/
  solvers : s.assemble.toMatrix (keptSize a count) (keptSize a count) = complement a d2 count ∧
    (∀ p q, (p, q) ∈ s.reducedPattern ↔ ∃ v, (p, q, v) ∈ s.assembleSparse (s.gather false)) ∧
    s.diagonalBlocks.map Prod.snd = Table.values (s.gather true) ∧
    s.applyReduced = s.walkReduced ∧ s.reducedRhs = s.walkRhs

/-- In exact arithmetic, wherever elimination succeeds, the reduced system has the
same meaning in all its forms: assembled from the gathered blocks densely or as a
list of entries, applied without forming it, and reduced to its diagonal. -/
theorem formsAgree_of_new? {b : Vec ℝ} {s : Elimination ℝ} (ha : a.WellFormed)
    (h : new? a b d2 count = .ok s) : FormsAgree a b d2 count s := by
  have hs := regular_of_new? ha h
  have hsep := separates_of_new? ha h
  have hkeys := fun (a' : BlockMatrix ℝ) (b' d2' : Vec ℝ) (s' : Elimination ℝ)
    (ha' : a'.WellFormed) (hshape : a'.shape = a.shape) (h' : new? a' b' d2' count = .ok s') =>
      keys_gather_congr ha ha' hshape h h'
  obtain ⟨w, hw, rfl⟩ := exists_inverts ha h
  have hn : (ofInverses a b d2 count w).dimension = keptSize a count := dimension_ofInverses
  have hassemble := hw.toMatrix_assemble ha hsep b
  have hproduct : (ofInverses a b d2 count w).walkReduced =
      (ofInverses a b d2 count w).applyReduced := funext hs.walkReduced_eq
  exact {
    invertible := (hw.inv_pivotSystem ha hsep).1
    dense := ⟨hn ▸ shape_assembleDense _ _, (hs.toMatrix_assembleDense hn).trans hassemble⟩
    positions := ⟨(hs.places_gather false).nodup_positions hs.matrix,
      hn ▸ (hs.places_gather false).lt_dimension hs.matrix⟩
    sparse := (hs.toMatrix_assembleSparse hn).trans hassemble
    product := by
      rw [hproduct, ← hassemble]
      exact multiplies_applyReduced ha hw
    rhs := by
      rw [hs.walkRhs_eq]
      exact ⟨size_reducedRhs ha hw, hw.toFun_reducedRhs ha hsep b⟩
    diagonal := ⟨keys_gather_true hs, fun k m hm => hassemble ▸ hs.isBlock_gather hn hm⟩
    keys := hkeys
    solvers := ⟨hassemble, fun p q => hs.mem_reducedPattern, (values_gather_true hs).symm,
      hproduct.symm, hs.walkRhs_eq.symm⟩ }

/-- One equation in two unknowns, of which the first is eliminated. -/
theorem formsAgree_oneEquation :
    ∃ s, new? oneEquation (Vec.ofList [3]) (Vec.ofList [1, 1]) 1 = .ok s ∧
      FormsAgree oneEquation (Vec.ofList [3]) (Vec.ofList [1, 1]) 1 s := by
  have hsep : oneEquation.Separates 1 := fun row _ c _ c' _ hc hc' => by omega
  obtain ⟨w, -, hs⟩ := new?_eq_ok (v := Vec.ofList [3]) wellFormed_oneEquation (Nat.le_succ 1)
    (hsep.length_le_one wellFormed_oneEquation) rfl rfl fun e he b hb => by
      have hpos := posDef_pivotBlock wellFormed_oneEquation (Nat.le_succ 1) hsep
        (posDef_normalSystem positive_oneEquation) he
      rwa [BlockMatrix.column_eq hb] at hpos
  exact ⟨_, hs, formsAgree_of_new? wellFormed_oneEquation hs⟩

end Elimination

end LeastSquares
