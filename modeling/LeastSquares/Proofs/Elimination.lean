import LeastSquares.LinearSolver.Schur
import LeastSquares.Proofs.NormalEquations
import LeastSquares.Proofs.SchurRows

/-!
# The blocks of an elimination

The elimination of the first column blocks keeps, for each of them, an inverse
and some products of cells. Over the real numbers every such product is a part
of the normal equations, so the reduced matrix, the reduced right-hand side
and the back substitution are read off, entry by entry, as sums over the
normal equations and the inverses.

## Main definitions

* `BlockRow.tMul?` — the product of two cells of a row.
* `Elimination.ofInverses` — an elimination by the given inverses.

## Main results

* `sumMats_spec` — the entries of a sum of matrices.
* `Elimination.pivotBlock_spec`, `Elimination.find?_couplingsOf` — pivots and
  couplings are blocks of the normal matrix.
* `Elimination.new?_eq_ok` — elimination succeeds if the pivots are definite.
-/

namespace LeastSquares

open Finset (range)

/-! ## Sums of blocks -/

theorem sum_filterMap {β γ : Type} (f : β → Option γ) (g : γ → ℝ) (l : List β) :
    ((l.filterMap f).map g).sum = (l.map fun x => (f x).elim 0 g).sum := by
  induction l with
  | nil => rfl
  | cons x l ih =>
      rw [List.filterMap_cons, List.map_cons, List.sum_cons, ← ih]
      cases f x with
      | none => exact (zero_add _).symm
      | some y => rfl

/-- The entry of a block that may be missing. -/
noncomputable def blockEntry (o : Option (Mat ℝ)) (i j : Nat) : ℝ := o.elim 0 fun m => m.get i j

/-- A sum of matrices has their shape, and its entries are sums. -/
theorem sumMats_spec {l : List (Mat ℝ)} {p q : Nat} (h : ∀ m ∈ l, m.HasShape p q) :
    (∀ m ∈ sumMats l, m.HasShape p q) ∧
      ∀ i < p, ∀ j < q, blockEntry (sumMats l) i j = (l.map fun m => m.get i j).sum := by
  cases l with
  | nil => exact ⟨nofun, fun _ _ _ _ => rfl⟩
  | cons m l =>
      obtain ⟨hrows, hcols⟩ := h m List.mem_cons_self
      obtain ⟨hrows', hcols', hget⟩ := Mat.get_foldl_add l m
      refine ⟨fun s hs => ?_, fun i hi j hj => ?_⟩
      · cases hs
        exact ⟨hrows'.trans hrows, hcols'.trans hcols⟩
      · exact hget i (hrows ▸ hi) j (hcols ▸ hj)

/-! ## Products of cells -/

/-- The product of two cells of a row, the first one transposed. -/
noncomputable def BlockRow.tMul? (row : BlockRow ℝ) (k l : Nat) : Option (Mat ℝ) :=
  (row.cell? k).bind fun m => (row.cell? l).map fun m' => m.tMul m'

variable {a : BlockMatrix ℝ} {b c : Block} {row : BlockRow ℝ} {v d2 : Vec ℝ} {e k l i j : Nat}

namespace BlockMatrix

theorem WellFormed.tMul?_spec (ha : a.WellFormed) (hrow : row ∈ a.rows)
    (hb : a.columns[k]? = some b) (hc : a.columns[l]? = some c) :
    (∀ m ∈ row.tMul? k l, m.HasShape b.size c.size) ∧
      ∀ i < b.size, ∀ j < c.size, blockEntry (row.tMul? k l) i j =
        ∑ t ∈ range row.block.size, row.entry k t i * row.entry l t j := by
  cases hm : row.cell? k with
  | none =>
      rw [BlockRow.tMul?, hm, Option.bind_none]
      simp only [BlockRow.entry_of_none hm, real_zero, zero_mul, Finset.sum_const_zero]
      exact ⟨nofun, fun _ _ _ _ => rfl⟩
  | some m =>
      cases hm' : row.cell? l with
      | none =>
          rw [BlockRow.tMul?, hm, Option.bind_some, hm', Option.map_none]
          simp only [BlockRow.entry_of_none hm', real_zero, mul_zero, Finset.sum_const_zero]
          exact ⟨nofun, fun _ _ _ _ => rfl⟩
      | some m' =>
          obtain ⟨hrows, hcols⟩ := ha.shape hrow hb hm
          obtain ⟨-, hcols'⟩ := ha.shape hrow hc hm'
          rw [BlockRow.tMul?, hm, Option.bind_some, hm', Option.map_some]
          refine ⟨fun p hp => ?_, fun i hi j hj => ?_⟩
          · cases hp
            exact ⟨hcols, hcols'⟩
          · simp only [BlockRow.entry_of_cell? hm, BlockRow.entry_of_cell? hm']
            rw [← hrows]
            exact Mat.get_tMul (hcols ▸ hi) (hcols' ▸ hj)

/-- The products of the cells in two column blocks add up to a block of the
normal matrix. -/
theorem WellFormed.sum_tMul? (ha : a.WellFormed) (hb : a.columns[k]? = some b)
    (hc : a.columns[l]? = some c) (hi : i < b.size) (hj : j < c.size) :
    ((a.rows.filterMap (BlockRow.tMul? · k l)).map fun m => m.get i j).sum = a.gram k i l j := by
  rw [sum_filterMap, gram]
  refine congrArg List.sum (List.map_congr_left fun row hrow => ?_)
  exact (ha.tMul?_spec hrow hb hc).2 i hi j hj

theorem WellFormed.shape_tMul? (ha : a.WellFormed) (hb : a.columns[k]? = some b)
    (hc : a.columns[l]? = some c) :
    ∀ m ∈ a.rows.filterMap (BlockRow.tMul? · k l), m.HasShape b.size c.size := by
  intro m hm
  obtain ⟨row, hrow, hm⟩ := List.mem_filterMap.mp hm
  exact (ha.tMul?_spec hrow hb hc).1 m hm

end BlockMatrix

/-! ## Eliminated blocks -/

namespace Elimination

/-- The row blocks that read a column block, with their cells there. -/
noncomputable def readers (a : BlockMatrix ℝ) (e : Nat) : List (BlockRow ℝ × Mat ℝ) :=
  a.rows.filterMap fun row => (row.cell? e).map fun cell => (row, cell)

/-- The block of the normal matrix that is inverted. -/
noncomputable def pivotBlock (a : BlockMatrix ℝ) (d2 : Vec ℝ) (e : Nat) : Mat ℝ :=
  (readers a e).foldl (fun acc r => acc + r.2.tMul r.2) (Mat.diagonal (part d2 (a.column e)))

/-- The part of `Aᵀb` that belongs to an eliminated block. -/
noncomputable def ownGradient (a : BlockMatrix ℝ) (v : Vec ℝ) (e : Nat) : Vec ℝ :=
  (readers a e).foldl (fun acc r => acc + r.2.tMulVec (part v r.1.block))
    (Vec.zeros (a.column e).size)

/-- The couplings of an eliminated block. -/
noncomputable def couplingsOf (a : BlockMatrix ℝ) (count e : Nat) : List (Nat × Mat ℝ) :=
  (List.range (a.columns.length - count)).filterMap fun k =>
    (sumMats (a.rows.filterMap (BlockRow.tMul? · e (count + k)))).map fun m => (k, m)

theorem eliminateBlock?_eq (a : BlockMatrix ℝ) (v d2 : Vec ℝ) (count e : Nat) :
    eliminateBlock? a v d2 count e =
      ((Factorizations.provided ℝ).factor? (pivotBlock a d2 e)).elim (.error (.indefiniteBlock e))
        fun c => .ok ⟨(Factorizations.provided ℝ).inverse c, ownGradient a v e,
          couplingsOf a count e⟩ := by
  have hcouplings : ∀ k, ((readers a e).filterMap fun r =>
      (r.1.cell? (count + k)).map fun other => r.2.tMul other) =
        a.rows.filterMap (BlockRow.tMul? · e (count + k)) := by
    intro k
    rw [readers, List.filterMap_filterMap]
    refine List.filterMap_congr fun row _ => ?_
    rw [BlockRow.tMul?]
    cases row.cell? e <;> rfl
  simp only [couplingsOf, ← hcouplings]
  unfold eliminateBlock?
  dsimp only
  split
  · rename_i hnone
    have hnone : (Factorizations.provided ℝ).factor? (pivotBlock a d2 e) = none := hnone
    rw [hnone]
    rfl
  · rename_i f hsome
    have hsome : (Factorizations.provided ℝ).factor? (pivotBlock a d2 e) = some f := hsome
    rw [hsome]
    rfl

theorem map_tMul_readers (a : BlockMatrix ℝ) (e : Nat) :
    (readers a e).map (fun r => r.2.tMul r.2) = a.rows.filterMap (BlockRow.tMul? · e e) := by
  rw [readers, List.map_filterMap]
  refine List.filterMap_congr fun row _ => ?_
  rw [BlockRow.tMul?]
  cases row.cell? e <;> rfl

/-- The pivot block is the diagonal block of the normal matrix. -/
theorem pivotBlock_spec (d2 : Vec ℝ) (ha : a.WellFormed) (hb : a.columns[e]? = some b) :
    (pivotBlock a d2 e).HasShape b.size b.size ∧ ∀ i < b.size, ∀ j < b.size,
      (pivotBlock a d2 e).get i j =
        a.gram e i e j + if i = j then d2.get (b.position + i) else 0 := by
  have hpart : (part d2 (a.column e)).size = b.size := by
    rw [part, BlockMatrix.column_eq hb, Vec.size_slice]
  obtain ⟨hrows, hcols, hget⟩ := Mat.get_foldl_add
    (a.rows.filterMap (BlockRow.tMul? · e e)) (Mat.diagonal (part d2 (a.column e)))
  have hfold : pivotBlock a d2 e = (a.rows.filterMap (BlockRow.tMul? · e e)).foldl (· + ·)
      (Mat.diagonal (part d2 (a.column e))) := by
    rw [pivotBlock, ← map_tMul_readers, List.foldl_map]
  rw [hfold]
  refine ⟨⟨hrows.trans hpart, hcols.trans hpart⟩, fun i hi j hj => ?_⟩
  have hi' := hi.trans_eq hpart.symm
  have hj' := hj.trans_eq hpart.symm
  rw [hget i hi' j hj', ha.sum_tMul? hb hb hi hj, Mat.get_diagonal hi' hj', part,
    BlockMatrix.column_eq hb, Vec.get_slice hi, add_comm]

theorem ownGradient_spec (ha : a.WellFormed) (hb : a.columns[e]? = some b) :
    (ownGradient a v e).size = b.size ∧
      ∀ i < b.size, (ownGradient a v e).get i = a.moment v e i := by
  have hsize : (a.column e).size = b.size := by rw [BlockMatrix.column_eq hb]
  obtain ⟨hs, hget⟩ := Vec.get_foldl (l := readers a e) (n := b.size)
    (f := fun acc r => acc + r.2.tMulVec (part v r.1.block))
    (fun r i => (r.2.tMulVec (part v r.1.block)).get i)
    (fun r _ acc hacc => ⟨(Vec.size_add _ _).trans hacc, fun i hi => Vec.get_add (hacc ▸ hi)⟩)
    ((Vec.size_zeros _).trans hsize)
  refine ⟨hs, fun i hi => ?_⟩
  rw [ownGradient, hget i hi, Vec.get_zeros, zero_add, readers, sum_filterMap, BlockMatrix.moment]
  refine congrArg List.sum (List.map_congr_left fun row hrow => ?_)
  rw [← ha.elim_leftPart hrow hb hi, BlockMatrix.leftPart]
  cases row.cell? e <;> rfl

/-- What is found under its own index in a list made by indices. -/
theorem find?_filterMap_index (f : Nat → Option (Mat ℝ)) (l : List Nat) (k : Nat) :
    ((l.filterMap fun k => (f k).map fun m => (k, m)).find? fun p => p.1 == k).map Prod.snd =
      if k ∈ l then f k else none := by
  induction l with
  | nil => rfl
  | cons x l ih =>
      rw [List.filterMap_cons]
      by_cases hx : x = k
      · subst hx
        rw [if_pos List.mem_cons_self]
        cases hf : f x with
        | none => exact ih.trans (by rw [hf, ite_self])
        | some m => simp
      · have hmem : k ∈ x :: l ↔ k ∈ l := by
          rw [List.mem_cons, or_iff_right (Ne.symm hx)]
        simp only [hmem, ← ih]
        cases f x <;> simp [hx]

/-- Couplings are blocks of the normal matrix. -/
theorem find?_couplingsOf (ha : a.WellFormed) {count : Nat} (hb : a.columns[e]? = some b)
    (hc : a.columns[count + k]? = some c) :
    let found := ((couplingsOf a count e).find? fun p => p.1 == k).map Prod.snd
    (∀ m ∈ found, m.HasShape b.size c.size) ∧
      ∀ i < b.size, ∀ j < c.size, blockEntry found i j = a.gram e i (count + k) j := by
  have hk : k < a.columns.length - count := by
    have := (List.getElem?_eq_some_iff.mp hc).1
    omega
  rw [couplingsOf, find?_filterMap_index, if_pos (List.mem_range.mpr hk)]
  obtain ⟨hshape, hget⟩ := sumMats_spec (ha.shape_tMul? hb hc)
  exact ⟨hshape, fun i hi j hj => (hget i hi j hj).trans (ha.sum_tMul? hb hc hi hj)⟩

/-! ## Eliminations -/

variable {count : Nat} {w : Nat → Mat ℝ}

/-- The elimination of a column block by the given inverse. -/
noncomputable def blockOf (a : BlockMatrix ℝ) (v : Vec ℝ) (count : Nat) (w : Nat → Mat ℝ)
    (e : Nat) : EliminatedBlock ℝ :=
  ⟨w e, ownGradient a v e, couplingsOf a count e⟩

/-- The elimination of the first column blocks by the given inverses. -/
noncomputable def ofInverses (a : BlockMatrix ℝ) (v d2 : Vec ℝ) (count : Nat) (w : Nat → Mat ℝ) :
    Elimination ℝ :=
  ⟨a, v, d2, count, (List.range count).map (blockOf a v count w)⟩

/-- The matrices are inverses of the pivot blocks. -/
structure Inverts (a : BlockMatrix ℝ) (d2 : Vec ℝ) (count : Nat) (w : Nat → Mat ℝ) : Prop where
  count_le : count ≤ a.columns.length
  shape : ∀ e < count, ∀ b, a.columns[e]? = some b → (w e).HasShape b.size b.size
  mul_eq_one : ∀ e < count, ∀ b, a.columns[e]? = some b →
    (pivotBlock a d2 e).toMatrix b.size b.size * (w e).toMatrix b.size b.size = 1

/-- Blocks whose pivots are positive definite are eliminated. -/
theorem new?_eq_ok (ha : a.WellFormed) (hcount : count ≤ a.columns.length)
    (hrows : ∀ row ∈ a.rows, (row.cells.filter fun c => c.column < count).length ≤ 1)
    (hv : v.size = a.numRows) (hd : d2.size = a.numCols)
    (hpos : ∀ e < count, ∀ b, a.columns[e]? = some b →
      ((pivotBlock a d2 e).toMatrix b.size b.size).PosDef) :
    ∃ w, Inverts a d2 count w ∧ new? a v d2 count = .ok (ofInverses a v d2 count w) := by
  have hex : ∀ e, ∃ m : Mat ℝ, e < count → ∀ b, a.columns[e]? = some b →
      (m.HasShape b.size b.size ∧
        (pivotBlock a d2 e).toMatrix b.size b.size * m.toMatrix b.size b.size = 1) ∧
      eliminateBlock? a v d2 count e =
        .ok ⟨m, ownGradient a v e, couplingsOf a count e⟩ := by
    intro e
    by_cases he : e < count
    · have hb := List.getElem?_eq_getElem (Nat.lt_of_lt_of_le he hcount)
      obtain ⟨f, hf, -, hshape, hmul⟩ := Factorizations.exact_provided.factors
        (pivotBlock_spec d2 ha hb).1.1 (hpos e he _ hb)
      refine ⟨(Factorizations.provided ℝ).inverse f, fun _ b hb' => ?_⟩
      rw [hb] at hb'
      cases hb'
      refine ⟨⟨hshape, hmul⟩, ?_⟩
      rw [eliminateBlock?_eq, hf, Option.elim_some]
    · exact ⟨default, fun h => absurd h he⟩
  choose w hw using hex
  have hlt : ∀ e < count, a.columns[e]? = some (a.column e) := by
    intro e he
    have hb := List.getElem?_eq_getElem (Nat.lt_of_lt_of_le he hcount)
    rw [hb, BlockMatrix.column_eq hb]
  refine ⟨w, ⟨hcount, fun e he b hb => (hw e he b hb).1.1, fun e he b hb => (hw e he b hb).1.2⟩, ?_⟩
  have hmapM : (List.range count).mapM (eliminateBlock? a v d2 count) =
      .ok ((List.range count).map (blockOf a v count w)) := by
    refine mapM_eq_ok_iff.mpr (List.forall₂_map_right_iff.mpr (List.forall₂_same.mpr ?_))
    intro e he
    have he := List.mem_range.mp he
    exact (hw e he _ (hlt e he)).2
  simp only [new?, Nat.not_lt.mpr hcount, if_false, hv, hd, ne_eq, not_true_eq_false, or_self,
    coupledRow?_eq_none hrows, hmapM]
  rfl

/-- What a successful elimination says about its system. -/
structure Creates {α : Type} [Scalar α] (a : BlockMatrix α) (v d2 : Vec α) (count : Nat)
    (s : Elimination α) : Prop where
  count_le : count ≤ a.columns.length
  sizeRhs : v.size = a.numRows
  sizeRegularizer : d2.size = a.numCols
  uncoupled : coupledRow? a count = none
  blocks : List.Forall₂ (fun e E => eliminateBlock? a v d2 count e = .ok E) (List.range count)
    s.eliminated
  eq : s = ⟨a, v, d2, count, s.eliminated⟩

theorem creates_of_new? {α : Type} [Scalar α] {a : BlockMatrix α} {v d2 : Vec α}
    {s : Elimination α} (h : new? a v d2 count = .ok s) : Creates a v d2 count s := by
  by_cases hcount : a.columns.length < count
  · simp only [new?, hcount, if_true] at h
    cases h
  by_cases hsizes : v.size ≠ a.numRows ∨ d2.size ≠ a.numCols
  · simp only [new?, hcount, if_false, hsizes, if_true] at h
    cases h
  simp only [new?, hcount, hsizes, if_false] at h
  cases hrow : coupledRow? a count with
  | some p =>
      rw [hrow] at h
      cases h
  | none =>
      rw [hrow] at h
      obtain ⟨eliminated, hmapM, h⟩ := except_bind_eq_ok.mp h
      cases h
      rw [not_or, not_not, not_not] at hsizes
      exact ⟨Nat.le_of_not_lt hcount, hsizes.1, hsizes.2, hrow, mapM_eq_ok_iff.mp hmapM, rfl⟩

/-- Every elimination is one by some inverses. -/
theorem exists_ofInverses {s : Elimination ℝ} (h : new? a v d2 count = .ok s) :
    ∃ w, s = ofInverses a v d2 count w := by
  let w := fun e => (eliminateBlock? a v d2 count e).toOption.elim default EliminatedBlock.inverse
  have hblock : ∀ e E, eliminateBlock? a v d2 count e = .ok E → blockOf a v count w e = E := by
    intro e E hE
    have hw : w e = E.inverse := by
      show (eliminateBlock? a v d2 count e).toOption.elim default EliminatedBlock.inverse = _
      rw [hE]
      rfl
    rw [eliminateBlock?_eq] at hE
    cases hc : (Factorizations.provided ℝ).factor? (pivotBlock a d2 e) with
    | none =>
        rw [hc] at hE
        cases hE
    | some c =>
        rw [hc] at hE
        cases hE
        rw [blockOf, hw]
  have hs := creates_of_new? h
  have hmap := map_eq_map_of_forall₂ (g := id) hs.blocks hblock
  rw [List.map_id] at hmap
  refine ⟨w, ?_⟩
  rw [hs.eq, ofInverses, hmap]

/-! ## Products with blocks that may be missing -/

section Missing

variable {o o' : Option (Mat ℝ)} {p q q' : Nat} {u : Vec ℝ}

theorem elim_tMulVec (ho : ∀ m ∈ o, m.HasShape p q) (hi : i < q) :
    o.elim 0 (fun m => (m.tMulVec u).get i) = ∑ t ∈ range p, blockEntry o t i * u.get t := by
  cases o with
  | none => simp [blockEntry]
  | some m =>
      obtain ⟨hrows, hcols⟩ := ho m rfl
      rw [Option.elim_some, Mat.get_tMulVec (hcols ▸ hi), hrows]
      rfl

theorem elim_mulVec (ho : ∀ m ∈ o, m.HasShape p q) (hi : i < p) :
    o.elim 0 (fun m => (m.mulVec u).get i) = ∑ t ∈ range q, blockEntry o i t * u.get t := by
  cases o with
  | none => simp [blockEntry]
  | some m =>
      obtain ⟨hrows, hcols⟩ := ho m rfl
      rw [Option.elim_some, Mat.get_mulVec (hrows ▸ hi), hcols]
      rfl

/-- The product of two blocks through a third one, negated. -/
noncomputable def through (m : Mat ℝ) (o o' : Option (Mat ℝ)) : Option (Mat ℝ) :=
  o.bind fun c => o'.map fun d => -(c.tMul (m.mul d))

theorem through_spec {m : Mat ℝ} (hm : m.HasShape p p) (ho : ∀ c ∈ o, c.HasShape p q)
    (ho' : ∀ d ∈ o', d.HasShape p q') :
    (∀ c ∈ through m o o', c.HasShape q q') ∧ ∀ i < q, ∀ j < q',
      blockEntry (through m o o') i j =
        -∑ s ∈ range p, blockEntry o s i * ∑ t ∈ range p, m.get s t * blockEntry o' t j := by
  cases o with
  | none => exact ⟨nofun, fun i _ j _ => by simp [blockEntry, through]⟩
  | some c =>
      cases o' with
      | none => exact ⟨nofun, fun i _ j _ => by simp [blockEntry, through]⟩
      | some d =>
          obtain ⟨hrows, hcols⟩ := ho c rfl
          obtain ⟨-, hcols'⟩ := ho' d rfl
          refine ⟨fun x hx => ?_, fun i hi j hj => ?_⟩
          · cases hx
            exact ⟨hcols, hcols'⟩
          · have hi : i < c.cols := hcols ▸ hi
            have hj : j < d.cols := hcols' ▸ hj
            show (-(c.tMul (m.mul d))).get i j = _
            rw [Mat.get_neg (a := c.tMul (m.mul d)) hi hj, Mat.get_tMul (b := m.mul d) hi hj, hrows]
            refine congrArg Neg.neg (Finset.sum_congr rfl fun s hs => ?_)
            rw [Mat.get_mul (hm.1.symm ▸ Finset.mem_range.mp hs) hj, hm.2]
            rfl

end Missing

end Elimination

end LeastSquares
