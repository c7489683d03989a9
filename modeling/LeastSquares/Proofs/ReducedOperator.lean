import LeastSquares.Proofs.ConjugateGradients
import LeastSquares.Proofs.Products
import LeastSquares.Proofs.SchurSolver

/-!
# The reduced matrix as an operator

An iterative solver multiplies by the reduced matrix without forming it: every
row block is applied to the remaining unknowns and transposed back, and every
eliminated block takes off what passes through it. Over the real numbers this
is the product with the matrix that the direct solvers assemble.

## Main definitions

* `Elimination.image`, `Elimination.weight` — what a row block and an eliminated
  block make of the remaining unknowns.

## Main results

* `Elimination.get_applyReduced` — the product, entry by entry.
* `Elimination.multiplies_applyReduced` — the operator is the assembled matrix.
-/

namespace LeastSquares

open Matrix
open Finset (range)

namespace Elimination

variable {a : BlockMatrix ℝ} {b c : Block} {row : BlockRow ℝ} {v d2 y : Vec ℝ}
  {e k i t count : Nat} {w : Nat → Mat ℝ}

/-! ## Rows -/

/-- What a row block makes of the remaining unknowns. -/
noncomputable def image (s : Elimination ℝ) (y : Vec ℝ) (row : BlockRow ℝ) : Vec ℝ :=
  (s.remaining.mapIdx fun k b => (k, b)).foldl
    (fun acc p => (row.cell? (s.count + p.1)).elim acc fun m => acc + m.mulVec (part y p.2))
    (Vec.zeros row.block.size)

theorem mapIdx_pair (l : List Block) :
    (l.mapIdx fun k b => (k, b)) = (List.range l.length).map fun k => (k, l.getD k default) := by
  refine List.ext_getElem (by simp) fun k hk _ => ?_
  rw [List.length_mapIdx] at hk
  simp [List.getD_eq_getElem?_getD, hk]

theorem part_remaining {s : Elimination ℝ} (ha : s.matrix.WellFormed)
    (hc : s.matrix.columns[s.count + k]? = some c) (ht : t < c.size) :
    (part y (s.remaining.getD k default)).get t = y.get (s.start k + t) := by
  have hstart : c.position - s.offset = s.start k := by
    rw [position_remaining ha hc, Nat.add_sub_cancel_left]
  rw [List.getD_eq_getElem?_getD, getElem?_remaining hc, Option.getD_some, part,
    Vec.get_slice ht, hstart]

theorem blockEntry_cell? (row : BlockRow ℝ) (k t j : Nat) :
    blockEntry (row.cell? k) t j = row.entry k t j := by
  cases hm : row.cell? k with
  | none => rw [BlockRow.entry_of_none hm, blockEntry, Option.elim_none, real_zero]
  | some m => rw [BlockRow.entry_of_cell? hm, blockEntry, Option.elim_some]

theorem elim_add {o : Option (Mat ℝ)} {acc : Vec ℝ} {n : Nat} (hacc : acc.size = n)
    (f : Mat ℝ → Vec ℝ) :
    (o.elim acc fun m => acc + f m).size = n ∧ ∀ i < n,
      (o.elim acc fun m => acc + f m).get i = acc.get i + o.elim 0 fun m => (f m).get i := by
  cases o with
  | none => exact ⟨hacc, fun i _ => (add_zero _).symm⟩
  | some m => exact ⟨(Vec.size_add _ _).trans hacc, fun i hi => Vec.get_add (hacc ▸ hi)⟩

theorem image_spec (ha : a.WellFormed) (hrow : row ∈ a.rows) :
    let s := ofInverses a v d2 count w
    (s.image y row).size = row.block.size ∧ ∀ t < row.block.size,
      (s.image y row).get t = ∑ k ∈ range (a.columns.length - count),
        ∑ j ∈ range (a.column (count + k)).size,
          row.entry (count + k) t j * y.get (s.start k + j) := by
  intro s
  obtain ⟨hsize, hget⟩ := Vec.get_foldl (n := row.block.size)
    (l := s.remaining.mapIdx fun k b => (k, b))
    (f := fun acc p => (row.cell? (s.count + p.1)).elim acc fun m => acc + m.mulVec (part y p.2))
    (fun p i => (row.cell? (s.count + p.1)).elim 0 fun m => (m.mulVec (part y p.2)).get i)
    (fun p _ acc hacc => elim_add hacc _) (Vec.size_zeros _)
  refine ⟨hsize, fun t ht => (hget t ht).trans ?_⟩
  rw [Vec.get_zeros, zero_add, mapIdx_pair, List.map_map, length_remaining]
  refine congrArg List.sum (List.map_congr_left fun k hk => ?_)
  have hc := BlockMatrix.getElem?_column (Nat.add_lt_of_lt_sub' (List.mem_range.mp hk))
  refine (elim_mulVec (fun m hm => ha.shape hrow hc hm) ht).trans ?_
  refine Finset.sum_congr rfl fun j hj => ?_
  rw [blockEntry_cell?, part_remaining (s := s) ha hc (Finset.mem_range.mp hj)]
  rfl

/-- Rows applied to the remaining unknowns and transposed back are the normal
matrix among these. -/
theorem sum_image (ha : a.WellFormed) (hc : a.columns[count + k]? = some c) (hi : i < c.size) :
    let s := ofInverses a v d2 count w
    (a.rows.map fun row => (row.cell? (count + k)).elim 0 fun m =>
      (m.tMulVec (s.image y row)).get i).sum =
        ∑ l ∈ range (a.columns.length - count), ∑ j ∈ range (a.column (count + l)).size,
          a.gram (count + k) i (count + l) j * y.get (s.start l + j) := by
  intro s
  have hrow : ∀ row ∈ a.rows, ((row.cell? (count + k)).elim 0 fun m =>
      (m.tMulVec (s.image y row)).get i) =
        ∑ l ∈ range (a.columns.length - count), ∑ j ∈ range (a.column (count + l)).size,
          (∑ t ∈ range row.block.size, row.entry (count + k) t i * row.entry (count + l) t j) *
            y.get (s.start l + j) := by
    intro row hrow
    refine (elim_tMulVec (fun m hm => ha.shape hrow hc hm) hi).trans ?_
    simp only [Finset.sum_mul]
    simp only [Finset.sum_comm (s := range (a.column _).size)]
    rw [Finset.sum_comm]
    refine Finset.sum_congr rfl fun t ht => ?_
    rw [blockEntry_cell?, (image_spec ha hrow).2 t (Finset.mem_range.mp ht), Finset.mul_sum]
    refine Finset.sum_congr rfl fun l _ => ?_
    rw [Finset.mul_sum]
    exact Finset.sum_congr rfl fun j _ => (mul_assoc _ _ _).symm
  rw [List.map_congr_left hrow]
  refine (Multiset.sum_map_sum (m := (a.rows : Multiset (BlockRow ℝ)))).trans ?_
  refine Finset.sum_congr rfl fun l _ => ?_
  refine (Multiset.sum_map_sum (m := (a.rows : Multiset (BlockRow ℝ)))).trans ?_
  exact Finset.sum_congr rfl fun j _ => List.sum_map_mul_right ..

/-! ## Eliminated blocks -/

/-- What an eliminated block takes from the remaining unknowns, solved for its
own. -/
noncomputable def weight (s : Elimination ℝ) (y : Vec ℝ) (e : EliminatedBlock ℝ) : Vec ℝ :=
  e.inverse.mulVec (e.couplings.foldl
    (fun acc p => acc + p.2.mulVec (part y (s.remaining.getD p.1 default)))
    (Vec.zeros e.inverse.rows))

theorem weight_spec (ha : a.WellFormed) (hw : Inverts a d2 count w) (he : e < count) :
    let s := ofInverses a v d2 count w
    ∀ i < (a.column e).size, (s.weight y (blockOf a v count w e)).get i =
      ∑ u ∈ range (a.column e).size, (w e).get i u * s.taken y e u := by
  intro s i hi
  obtain ⟨hrows, hcols⟩ := hw.shape e he _ (hw.getElem? he)
  obtain ⟨-, hget⟩ := Vec.get_foldl (l := couplingsOf a count e)
    (f := fun acc p => acc + p.2.mulVec (part y (s.remaining.getD p.1 default)))
    (fun p i => (p.2.mulVec (part y (s.remaining.getD p.1 default))).get i)
    (fun p _ acc hacc => ⟨(Vec.size_add _ _).trans hacc, fun i hi => Vec.get_add (hacc ▸ hi)⟩)
    ((Vec.size_zeros (w e).rows).trans hrows)
  refine (Mat.get_mulVec (a := w e) (hi.trans_eq hrows.symm)).trans ?_
  rw [hcols]
  refine Finset.sum_congr rfl fun u hu => congrArg _ ?_
  have hu := Finset.mem_range.mp hu
  refine (hget u hu).trans ?_
  rw [Vec.get_zeros, zero_add, sum_couplingsOf ha hw he hu]

/-! ## The product -/

/-- The product in a remaining block. -/
noncomputable def appliedBlock (s : Elimination ℝ) (y : Vec ℝ) (k : Nat) (b : Block) : Vec ℝ :=
  s.eliminated.foldl
    (fun acc e => (e.coupling? k).elim acc fun m => acc - m.tMulVec (s.weight y e))
    (s.matrix.rows.foldl
      (fun acc row => (row.cell? (s.count + k)).elim acc fun m =>
        acc + m.tMulVec (s.image y row))
      ((s.regularizerOf b).mulEntries (part y b)))

theorem applyReduced_eq (s : Elimination ℝ) (y : Vec ℝ) :
    s.applyReduced y = Vec.concat (s.remaining.mapIdx (s.appliedBlock y)) := by
  rw [applyReduced]
  dsimp only
  congr
  funext k b
  rw [appliedBlock, List.foldl_map, List.foldl_map]
  congr
  · funext acc e
    cases e.coupling? k <;> rfl
  · funext acc row
    rw [remainingCell?]
    cases row.cell? (s.count + k) with
    | none => rfl
    | some m =>
        refine congrArg (fun u => acc + m.tMulVec u) ?_
        dsimp only [image]
        congr
        funext acc p
        rw [remainingCell?]
        cases row.cell? (s.count + p.1) <;> rfl

/-- What an eliminated block subtracts from a remaining one. -/
theorem subtracted_spec (ha : a.WellFormed) (hw : Inverts a d2 count w) (he : e < count)
    (hc : a.columns[count + k]? = some c) {acc : Vec ℝ} (hacc : acc.size = c.size) :
    let s := ofInverses a v d2 count w
    let next := ((blockOf a v count w e).coupling? k).elim acc fun m =>
      acc - m.tMulVec (s.weight y (blockOf a v count w e))
    next.size = c.size ∧ ∀ i < c.size,
      next.get i = acc.get i + -carried a w e (count + k) i (s.taken y e) := by
  intro s next
  obtain ⟨hshape, hentry⟩ := coupling?_blockOf (v := v) ha hw he hc
  obtain ⟨hsize, hget⟩ := elim_sub (o := (blockOf a v count w e).coupling? k) hacc
    fun m => m.tMulVec (s.weight y (blockOf a v count w e))
  refine ⟨hsize, fun i hi => ?_⟩
  rw [hget i hi, elim_tMulVec hshape hi, sub_eq_add_neg, carried]
  congr 2
  refine Finset.sum_congr rfl fun t ht => ?_
  rw [hentry t (Finset.mem_range.mp ht) i hi, weight_spec ha hw he t (Finset.mem_range.mp ht)]

/-- A block of the product: the regularizer and the normal matrix among the
remaining unknowns, without what the eliminated blocks carry. -/
theorem appliedBlock_spec (ha : a.WellFormed) (hw : Inverts a d2 count w)
    (hc : a.columns[count + k]? = some c) :
    let s := ofInverses a v d2 count w
    let b : Block := ⟨c.size, c.position - s.offset⟩
    (s.appliedBlock y k b).size = c.size ∧ ∀ i < c.size, (s.appliedBlock y k b).get i =
      d2.get (c.position + i) * y.get (s.start k + i) +
        ∑ l ∈ range (a.columns.length - count), ∑ j ∈ range (a.column (count + l)).size,
          a.gram (count + k) i (count + l) j * y.get (s.start l + j) -
        ∑ e ∈ range count, carried a w e (count + k) i (s.taken y e) := by
  intro s b
  have hb : s.remaining.getD k default = b := by
    rw [List.getD_eq_getElem?_getD, getElem?_remaining (s := s) hc, Option.getD_some]
  have hplace : s.offset + b.position = c.position := by
    have hstart := position_remaining (s := s) ha hc
    show s.offset + (c.position - s.offset) = c.position
    omega
  have hown : ((s.regularizerOf b).mulEntries (part y b)).size = c.size := by
    rw [Vec.size_mulEntries, regularizerOf, Vec.size_slice]
  obtain ⟨hdirect, hgetDirect⟩ := Vec.get_foldl (n := c.size) (l := a.rows)
    (f := fun acc row => (row.cell? (count + k)).elim acc fun m =>
      acc + m.tMulVec (s.image y row))
    (fun row i => (row.cell? (count + k)).elim 0 fun m => (m.tMulVec (s.image y row)).get i)
    (fun row _ acc hacc => elim_add hacc _) hown
  obtain ⟨hsize, hget⟩ := Vec.get_foldl _ (fun e he acc hacc =>
    subtracted_spec (v := v) (y := y) ha hw (List.mem_range.mp he) hc hacc) hdirect
  have hfold : s.appliedBlock y k b = _ := List.foldl_map
  rw [hfold]
  refine ⟨hsize, fun i hi => (hget i hi).trans ?_⟩
  have hpart : (part y b).get i = y.get (s.start k + i) := by
    rw [← hb, part_remaining (s := s) ha hc hi]
  have hregularizer : (s.regularizerOf b).get i = d2.get (c.position + i) := by
    rw [regularizerOf, Vec.get_slice hi, hplace]
    rfl
  have hi' : i < (s.regularizerOf b).size := hi.trans_eq (Vec.size_slice _ _ _).symm
  rw [hgetDirect i hi, sum_image ha hc hi, Vec.get_mulEntries hi', hregularizer, hpart,
    sub_eq_add_neg, ← Finset.sum_neg_distrib]
  rfl

/-- The product of the operator, entry by entry. -/
theorem get_applyReduced (ha : a.WellFormed) (hw : Inverts a d2 count w)
    (hc : a.columns[count + k]? = some c) (hi : i < c.size) :
    let s := ofInverses a v d2 count w
    (s.applyReduced y).get (s.start k + i) = d2.get (c.position + i) * y.get (s.start k + i) +
        ∑ l ∈ range (a.columns.length - count), ∑ j ∈ range (a.column (count + l)).size,
          a.gram (count + k) i (count + l) j * y.get (s.start l + j) -
        ∑ e ∈ range count, carried a w e (count + k) i (s.taken y e) := by
  intro s
  have hrem := getElem?_remaining (s := s) hc
  have hget : (Vec.concat (s.remaining.mapIdx (s.appliedBlock y))).get
      (total ((s.remaining.take k).map Block.size) + i) = _ :=
    Vec.get_concat_mapIdx (n := Block.size) (fun k b hb => by
      obtain ⟨c, hc, rfl⟩ := exists_column_of_remaining hb
      exact (appliedBlock_spec ha hw hc).1) hrem hi
  rw [List.map_take, map_size_remaining] at hget
  rw [applyReduced_eq]
  exact hget.trans ((appliedBlock_spec ha hw hc).2 i hi)

theorem size_applyReduced (ha : a.WellFormed) (hw : Inverts a d2 count w) (y : Vec ℝ) :
    ((ofInverses a v d2 count w).applyReduced y).size = keptSize a count := by
  rw [applyReduced_eq, Vec.size_concat, Vec.map_size_mapIdx (n := Block.size), map_size_remaining]
  · rfl
  · intro k b hb
    obtain ⟨c, hc, rfl⟩ := exists_column_of_remaining hb
    exact (appliedBlock_spec ha hw hc).1

/-- The product in four blocks. -/
theorem applyReduced_keptIndex (ha : a.WellFormed) (hw : Inverts a d2 count w) (y : Vec ℝ) :
    (fun x => ((ofInverses a v d2 count w).applyReduced y).get (keptIndex a count x)) =
      (kept a d2 count - (couplings a count)ᵀ * inverses a count w * couplings a count) *ᵥ
        fun x => y.get (keptIndex a count x) := by
  funext x
  have hc := BlockMatrix.getElem?_column (Nat.add_lt_of_lt_sub' x.1.isLt)
  have hget : ((ofInverses a v d2 count w).applyReduced y).get (keptIndex a count x) = _ :=
    get_applyReduced ha hw hc x.2.isLt
  have htaken : (couplings a count *ᵥ fun x => y.get (keptIndex a count x)) =
      fun x => (ofInverses a v d2 count w).taken y x.1 x.2 := funext fun x => taken_apply x
  rw [hget, sub_mulVec, ← mulVec_mulVec, ← mulVec_mulVec, htaken, Pi.sub_apply,
    carried_apply fun e u => (ofInverses a v d2 count w).taken y e u]
  refine congrArg (· - _) ?_
  have hkept : (kept a d2 count *ᵥ fun x => y.get (keptIndex a count x)) x =
      (∑ x' : KeptIndex a count, a.gram (count + x.1) x.2 (count + x'.1) x'.2 *
        y.get (keptIndex a count x')) +
      d2.get ((a.column (count + x.1)).position + x.2) * y.get (keptIndex a count x) := by
    rw [mulVec, dotProduct]
    simp only [kept, of_apply, add_mul, Finset.sum_add_distrib, ite_mul, zero_mul]
    rw [Finset.sum_ite_eq, if_pos (Finset.mem_univ x)]
  rw [hkept, Fintype.sum_sigma, Finset.sum_range, add_comm]
  refine congrArg₂ (· + ·) (Finset.sum_congr rfl fun l _ => ?_) rfl
  rw [Finset.sum_range]
  rfl

/-- The operator multiplies by the assembled matrix. -/
theorem multiplies_applyReduced (ha : a.WellFormed) (hw : Inverts a d2 count w) :
    Multiplies (ofInverses a v d2 count w).applyReduced
      ((ofInverses a v d2 count w).assemble.toMatrix (keptSize a count) (keptSize a count)) where
  size y _ := size_applyReduced ha hw y
  toFun y _ := by
    have hblocks : ((ofInverses a v d2 count w).applyReduced y).toFun (keptSize a count) ∘
        keptIndex a count =
          ((ofInverses a v d2 count w).assemble.toMatrix (keptSize a count) (keptSize a count) *ᵥ
            y.toFun (keptSize a count)) ∘ keptIndex a count := by
      have hmul := submatrix_mulVec_comp
        ((ofInverses a v d2 count w).assemble.toMatrix (keptSize a count) (keptSize a count))
        (y.toFun (keptSize a count)) (keptIndex a count) (keptIndex a count)
      rw [submatrix_assemble ha hw] at hmul
      exact (applyReduced_keptIndex ha hw y).trans hmul
    exact (keptIndex a count).surjective.injective_comp_right hblocks

end Elimination

end LeastSquares
