import LeastSquares.Proofs.CellWalk

/-!
# One dense meaning

A matrix that is built from a structure and whose cells have been filled in
any way stands for its dense form, and everything that is done with the matrix
on a walk through its cells is what linear algebra does with the dense form:
the products with vectors from both sides, the lengths of the columns, and
scaling the columns. The stored entries are entries of the dense form, and no place is
listed twice, so sorting them into columns neither adds nor drops a number; the
dense form is zero wherever nothing is listed.

Filling the cells changes numbers only. Column blocks, row blocks, and the
columns and shapes of the cells are the outline of a matrix, and whether a
matrix is well-formed is a question about its outline.

## Main definitions

* `BlockMatrix.outline` — a matrix apart from its numbers.
* `BlockMatrix.scaledRow` — a row with its columns scaled.
* `byColumns` — the positions of a dense matrix, column by column.

## Main results

* `BlockMatrix.WellFormed.of_outline` — matrices of one outline are alike.
* `BlockMatrix.WellFormed.toMatrix_scaleColumns` — scaled columns.
* `BlockMatrix.WellFormed.positions_entries` — where the entries stand.
* `BlockMatrix.WellFormed.triplets_perm` — sorting the entries into columns.
* `BlockMatrix.agrees_with_dense` — all operations on a filled matrix.
-/

namespace LeastSquares

open Matrix
open Finset (range)

/-! ## Positions -/

/-- The positions of a matrix with `m` rows and `n` columns, column by column
and from the top down. -/
def byColumns (m n : Nat) : List (Nat × Nat) :=
  (List.range n).flatMap fun q => (List.range m).map fun p => (p, q)

theorem mem_byColumns {m n p q : Nat} : (p, q) ∈ byColumns m n ↔ p < m ∧ q < n := by
  simp [byColumns, and_comm]

theorem nodup_byColumns (m n : Nat) : (byColumns m n).Nodup := by
  refine List.nodup_flatMap.mpr ⟨fun q _ => ?_, ?_⟩
  · exact List.nodup_range.map fun p p' h => congrArg Prod.fst h
  · refine List.nodup_range.imp ?_
    intro q q' hne x hx hx'
    obtain ⟨p, -, rfl⟩ := List.mem_map.mp hx
    obtain ⟨p', -, hEq⟩ := List.mem_map.mp hx'
    exact hne (congrArg Prod.snd hEq).symm

/-! ## Outlines -/

namespace BlockMatrix

section Outline

variable {α : Type} {a b : BlockMatrix α} {row : BlockRow α}

/-- A matrix apart from its numbers: its column blocks, and for every row
block the columns and shapes of its cells. -/
def outline (a : BlockMatrix α) : List Block × List (Block × List (Nat × Nat × Nat)) :=
  (a.columns, a.rows.map fun row =>
    (row.block, row.cells.map fun c => (c.column, c.values.rows, c.values.cols)))

theorem columns_of_outline (h : b.outline = a.outline) : b.columns = a.columns :=
  congrArg Prod.fst h

theorem map_block_of_outline (h : b.outline = a.outline) :
    b.rows.map BlockRow.block = a.rows.map BlockRow.block := by
  have hblocks := congrArg (fun o => o.2.map Prod.fst) h
  simpa only [outline, List.map_map, Function.comp_def] using hblocks

/-- Every row has a row of the other matrix beside it. -/
theorem getElem?_of_outline (h : b.outline = a.outline) {r : Nat} (hrow : b.rows[r]? = some row) :
    ∃ other, a.rows[r]? = some other ∧ row.block = other.block ∧
      (row.cells.map fun c => (c.column, c.values.rows, c.values.cols)) =
        other.cells.map fun c => (c.column, c.values.rows, c.values.cols) := by
  have hget : b.outline.2[r]? = a.outline.2[r]? := by rw [h]
  simp only [outline, List.getElem?_map, hrow, Option.map_some] at hget
  obtain ⟨other, hother, hsame⟩ := Option.map_eq_some_iff.mp hget.symm
  obtain ⟨hblock, hcells⟩ := Prod.mk.inj hsame
  exact ⟨other, hother, hblock.symm, hcells.symm⟩

theorem map_column_of_cells {cells cells' : List (Cell α)}
    (h : (cells.map fun c => (c.column, c.values.rows, c.values.cols)) =
      cells'.map fun c => (c.column, c.values.rows, c.values.cols)) :
    cells.map Cell.column = cells'.map Cell.column := by
  have hcolumns := congrArg (List.map Prod.fst) h
  simpa only [List.map_map, Function.comp_def] using hcolumns

/-- Whether the blocks and cells of a matrix fit together does not depend on
the numbers. -/
theorem WellFormed.of_outline (ha : a.WellFormed) (h : b.outline = a.outline) : b.WellFormed where
  columns := by
    rw [columns_of_outline h]
    exact ha.columns
  rows := by
    have hsizes := congrArg (List.map Block.size) (map_block_of_outline h)
    simp only [List.map_map, Function.comp_def] at hsizes
    rw [map_block_of_outline h, hsizes]
    exact ha.rows
  ascending row hrow := by
    obtain ⟨r, hr⟩ := List.mem_iff_getElem?.mp hrow
    obtain ⟨other, hother, -, hcells⟩ := getElem?_of_outline h hr
    rw [map_column_of_cells hcells]
    exact ha.ascending other (List.mem_of_getElem? hother)
  shapes row hrow c hc := by
    obtain ⟨r, hr⟩ := List.mem_iff_getElem?.mp hrow
    obtain ⟨other, hother, hblock, hcells⟩ := getElem?_of_outline h hr
    have hmem := List.mem_map_of_mem (f := fun c : Cell α =>
      (c.column, c.values.rows, c.values.cols)) hc
    rw [hcells] at hmem
    obtain ⟨c', hc', hsame⟩ := List.mem_map.mp hmem
    simp only [Prod.mk.injEq] at hsame
    obtain ⟨hcolumn, hrows, hcols⟩ := hsame
    obtain ⟨b', hb', hshape⟩ := ha.shapes other (List.mem_of_getElem? hother) c' hc'
    refine ⟨b', ?_, ?_⟩
    · rw [columns_of_outline h, ← hcolumn, hb']
    · rw [← hrows, ← hcols, hblock]
      exact hshape

variable [Scalar α] {sizes : List Nat} {rows : List (Nat × List Nat)}

/-- The rows of a matrix that fills the cells of a structure. -/
theorem row_of_structure (h : a.outline = (ofStructure sizes rows : BlockMatrix α).outline)
    {r : Nat} (hrow : a.rows[r]? = some row) :
    ∃ shape, rows[r]? = some shape ∧ row.block.size = shape.1 ∧
      row.cells.map Cell.column = Ascending.ofList shape.2 := by
  obtain ⟨other, hother, hblock, hcells⟩ := getElem?_of_outline h hrow
  have hlength : (ofStructure sizes rows : BlockMatrix α).rows.length = rows.length := by
    have hblocks := congrArg List.length (map_block_ofStructure (α := α) sizes rows)
    rwa [List.length_map, length_layout, List.length_map] at hblocks
  have hr : r < rows.length := hlength ▸ (List.getElem?_eq_some_iff.mp hother).1
  have hshape := List.getElem?_eq_getElem hr
  rw [getElem?_rows_ofStructure hshape] at hother
  cases hother
  refine ⟨rows[r], hshape, congrArg Block.size hblock, ?_⟩
  rw [map_column_of_cells hcells, List.map_map]
  exact List.map_id _

/-- The dimensions are those of the structure. -/
theorem dimensions_of_structure (h : a.outline = (ofStructure sizes rows : BlockMatrix α).outline) :
    a.numRows = total (rows.map Prod.fst) ∧ a.numCols = total sizes := by
  have hsizes := congrArg (List.map Block.size)
    ((map_block_of_outline h).trans (map_block_ofStructure sizes rows))
  rw [map_size_layout, List.map_map] at hsizes
  refine ⟨congrArg total hsizes, ?_⟩
  rw [numCols, columns_of_outline h]
  exact congrArg total (map_size_layout sizes)

end Outline

/-! ## Places within the matrix -/

section Places

variable {α : Type} {a : BlockMatrix α} {row : BlockRow α} {k : Nat} {b : Block}

theorem WellFormed.stop_cell_le (ha : a.WellFormed) (hrow : row ∈ a.rows) {c : Cell α}
    (hc : c ∈ row.cells) : (a.column c.column).stop ≤ a.numCols := by
  obtain ⟨b, hb, -⟩ := ha.shapes row hrow c hc
  rw [column_eq hb]
  exact ha.stop_column_le hb

/-- A vector with an entry for every column can be multiplied with. -/
theorem WellFormed.rightMultiply?_eq [Scalar α] (ha : a.WellFormed) {x : Vec α}
    (hx : x.size = a.numCols) : a.rightMultiply? x = .ok (a.rightMultiply x) := by
  refine if_pos (List.all_eq_true.mpr fun row hrow => List.all_eq_true.mpr fun c hc => ?_)
  exact decide_eq_true (hx ▸ ha.stop_cell_le hrow hc)

theorem WellFormed.walkRight?_eq [Scalar α] (ha : a.WellFormed) (x : Vec α) :
    a.walkRight? x = a.rightMultiply? x := by
  rw [walkRight?, rightMultiply?, ha.walkRight_eq]

theorem WellFormed.walkLeft?_eq [Scalar α] (ha : a.WellFormed) (y : Vec α) :
    a.walkLeft? y = a.leftMultiply? y := by
  rw [walkLeft?, leftMultiply?, ha.walkLeft_eq]

/-- A vector with a factor for every column scales the whole matrix. -/
theorem WellFormed.scaleColumns?_eq [Scalar α] (ha : a.WellFormed) {c : Vec α}
    (hc : c.size = a.numCols) : a.scaleColumns? c = (.ok (), a.scaleColumns c) := by
  refine if_pos (List.all_eq_true.mpr fun row hrow => List.all_eq_true.mpr fun cell hcell => ?_)
  rw [Bool.or_eq_true]
  exact .inr (decide_eq_true (hc ▸ ha.stop_cell_le hrow hcell))

end Places

variable {a : BlockMatrix ℝ} {c : Vec ℝ} {row : BlockRow ℝ} {b : Block} {k i j t : Nat}

/-! ## The dense form -/

/-- Copying cell by cell gives the dense form. -/
theorem WellFormed.toMatrix_walkDense (ha : a.WellFormed) :
    a.walkDense.toMatrix a.numRows a.numCols = a.toMatrix := by
  ext p q
  obtain ⟨r, row, hrow, i, hi, hp⟩ := ha.exists_row p.isLt
  obtain ⟨k, b, hb, j, hj, hq⟩ := ha.exists_column q.isLt
  rw [toMatrix, Mat.toMatrix_apply, Mat.toMatrix_apply, hp, hq, ha.get_walkDense hrow hi hb hj,
    ha.get_toDense hrow hi hb hj]

/-! ## Lengths of columns -/

/-- What the cells of a column block add up to. -/
theorem foldl_normSq (k : Nat) (rows : List (BlockRow ℝ)) (n : Nat) :
    let sum := rows.foldl (fun acc row => (row.cell? k).elim acc fun m =>
      acc + Vec.ofFn n fun j => (m.col j).normSq) (Vec.zeros n)
    sum.size = n ∧ ∀ j < n,
      sum.get j = (rows.map fun row => (row.cell? k).elim 0 fun m => (m.col j).normSq).sum := by
  obtain ⟨hsize, hget⟩ := Vec.get_foldl (n := n) (l := rows)
    (f := fun acc row => (row.cell? k).elim acc fun m =>
      acc + Vec.ofFn n fun j => (m.col j).normSq)
    (fun row j => (row.cell? k).elim 0 fun m => (m.col j).normSq)
    (fun row _ acc hacc => by
      cases row.cell? k with
      | none => exact ⟨hacc, fun j _ => (add_zero _).symm⟩
      | some m =>
          refine ⟨(Vec.size_add _ _).trans hacc, fun j hj => ?_⟩
          exact (Vec.get_add (hacc ▸ hj)).trans (congrArg _ (Vec.get_ofFn_of_lt _ hj)))
    (Vec.size_zeros n)
  refine ⟨hsize, fun j hj => ?_⟩
  rw [hget j hj, Vec.get_zeros, zero_add]

/-- The squared lengths of the columns are the diagonal of `AᵀA`. -/
theorem WellFormed.get_squaredColumnNorms (ha : a.WellFormed) (hb : a.columns[k]? = some b)
    (hj : j < b.size) : a.squaredColumnNorms.get (b.position + j) = a.gram k j k j := by
  rw [ha.position_column hb, squaredColumnNorms_eq_concat,
    Vec.get_concat_mapIdx (n := Block.size) (fun k b _ => (foldl_normSq k a.rows b.size).1) hb hj,
    (foldl_normSq k a.rows b.size).2 j hj, gram]
  refine congrArg List.sum (List.map_congr_left fun row hrow => ?_)
  cases hm : row.cell? k with
  | none =>
      simp only [BlockRow.entry_of_none hm, real_zero, zero_mul, Finset.sum_const_zero]
      rfl
  | some m =>
      obtain ⟨hrows, -⟩ := ha.shape hrow hb hm
      have hsize : (m.col j).size = row.block.size := (Vec.size_ofFn _ _).trans hrows
      rw [Option.elim_some, Vec.normSq_eq_sum, hsize]
      refine Finset.sum_congr rfl fun t ht => ?_
      rw [BlockRow.entry_of_cell? hm, Mat.col,
        Vec.get_ofFn_of_lt _ ((Finset.mem_range.mp ht).trans_eq hrows.symm)]

/-- The squared lengths of the columns of the matrix that is stored. -/
theorem WellFormed.squaredColumnNorms_eq (ha : a.WellFormed) (q : Fin a.numCols) :
    a.squaredColumnNorms.get q = ∑ p, a.toMatrix p q ^ 2 := by
  obtain ⟨k, b, hb, j, hj, hq⟩ := ha.exists_column q.isLt
  rw [hq, ha.get_squaredColumnNorms hb hj, ← ha.gram_eq hb hj hb hj, ← hq, Finset.sum_range]
  exact Finset.sum_congr rfl fun p _ => (pow_two _).symm

/-! ## Scaled columns -/

/-- A row with its columns scaled. -/
noncomputable def scaledRow (a : BlockMatrix ℝ) (c : Vec ℝ) (row : BlockRow ℝ) : BlockRow ℝ :=
  { row with
    cells := row.cells.map fun cell => ⟨cell.column, cell.values.scaleCols fun j =>
      c.get ((a.column cell.column).position + j)⟩ }

theorem rows_scaleColumns (a : BlockMatrix ℝ) (c : Vec ℝ) :
    (a.scaleColumns c).rows = a.rows.map (a.scaledRow c) := rfl

theorem cell?_scaledRow (row : BlockRow ℝ) (k : Nat) :
    (a.scaledRow c row).cell? k = (row.cell? k).map fun m =>
      m.scaleCols fun j => c.get ((a.column k).position + j) := by
  rw [BlockRow.cell?, scaledRow, List.find?_map, Option.map_map, BlockRow.cell?, Option.map_map]
  show Option.map _ (row.cells.find? fun c => c.column == k) =
    Option.map _ (row.cells.find? fun c => c.column == k)
  cases hfind : row.cells.find? fun c => c.column == k with
  | none => rfl
  | some cell =>
      have hk : cell.column = k := by simpa using List.find?_some hfind
      subst hk
      rfl

theorem WellFormed.entry_scaledRow (ha : a.WellFormed) (hrow : row ∈ a.rows)
    (hb : a.columns[k]? = some b) (ht : t < row.block.size) (hi : i < b.size) :
    (a.scaledRow c row).entry k t i = row.entry k t i * c.get (b.position + i) := by
  have hscaled := cell?_scaledRow (a := a) (c := c) row k
  cases hm : row.cell? k with
  | none =>
      rw [hm, Option.map_none] at hscaled
      rw [BlockRow.entry_of_none hscaled, BlockRow.entry_of_none hm, real_zero, zero_mul]
  | some m =>
      rw [hm, Option.map_some] at hscaled
      obtain ⟨hrows, hcols⟩ := ha.shape hrow hb hm
      rw [BlockRow.entry_of_cell? hscaled, BlockRow.entry_of_cell? hm, column_eq hb]
      exact Mat.get_ofFn _ (ht.trans_eq hrows.symm) (hi.trans_eq hcols.symm)

/-- Scaling columns changes numbers only. -/
theorem outline_scaleColumns (a : BlockMatrix ℝ) (c : Vec ℝ) :
    (a.scaleColumns c).outline = a.outline := by
  rw [outline, outline, scaleColumns, mapCells, List.map_map]
  refine congrArg (Prod.mk a.columns) (List.map_congr_left fun row _ => ?_)
  rw [Function.comp_apply, List.map_map]
  rfl

theorem WellFormed.scaleColumns (ha : a.WellFormed) (c : Vec ℝ) :
    (a.scaleColumns c).WellFormed :=
  ha.of_outline (outline_scaleColumns a c)

/-- Scaling the columns is a product with a diagonal matrix from the right. -/
theorem WellFormed.toMatrix_scaleColumns (ha : a.WellFormed) (c : Vec ℝ) :
    (a.scaleColumns c).toDense.toMatrix a.numRows a.numCols =
      a.toMatrix * diagonal (c.toFun a.numCols) := by
  ext p q
  obtain ⟨r, row, hrow, t, ht, hp⟩ := ha.exists_row p.isLt
  obtain ⟨k, b, hb, i, hi, hq⟩ := ha.exists_column q.isLt
  have hscaled : (a.scaleColumns c).rows[r]? = some (a.scaledRow c row) := by
    rw [rows_scaleColumns, List.getElem?_map, hrow, Option.map_some]
  have hleft : (a.scaleColumns c).toDense.get p q = row.entry k t i * c.get q := by
    rw [hp, hq, ← ha.entry_scaledRow (List.mem_of_getElem? hrow) hb ht hi]
    exact (ha.scaleColumns c).get_toDense hscaled ht hb hi
  have hright : a.toDense.get p q = row.entry k t i := by
    rw [hp, hq, ha.get_toDense hrow ht hb hi]
  rw [mul_diagonal, Mat.toMatrix_apply, hleft, Vec.toFun_apply, toMatrix, Mat.toMatrix_apply,
    hright]

/-! ## Stored entries -/

theorem entries_eq_flatMap (a : BlockMatrix ℝ) :
    a.entries = a.columns.zipIdx.flatMap fun x => (List.range x.1.size).flatMap fun j =>
      a.rows.flatMap fun row => (row.cell? x.2).elim [] fun m =>
        (List.range row.block.size).map fun i =>
          (row.block.position + i, x.1.position + j, m.get i j) := by
  rw [entries, List.mapIdx_eq_zipIdx_map, ← List.flatMap_def]
  refine congrArg (List.flatMap · a.columns.zipIdx) (funext fun x => ?_)
  refine congrArg (List.flatMap · (List.range x.1.size)) (funext fun j => ?_)
  refine congrArg (List.flatMap · a.rows) (funext fun row => ?_)
  cases row.cell? x.2 <;> rfl

/-- The stored entries are those of the cells. -/
theorem mem_entries {p q : Nat} {v : ℝ} : (p, q, v) ∈ a.entries ↔
    ∃ k b, a.columns[k]? = some b ∧ ∃ j < b.size, ∃ row ∈ a.rows, ∃ m, row.cell? k = some m ∧
      ∃ i < row.block.size, row.block.position + i = p ∧ b.position + j = q ∧ m.get i j = v := by
  simp only [entries_eq_flatMap, List.mem_flatMap, Prod.exists, List.mem_zipIdx_iff_getElem?,
    List.mem_range]
  constructor
  · rintro ⟨b, k, hb, j, hj, row, hrow, hmem⟩
    cases hm : row.cell? k with
    | none =>
        rw [hm] at hmem
        cases hmem
    | some m =>
        rw [hm, Option.elim_some] at hmem
        obtain ⟨i, hi, hEq⟩ := List.mem_map.mp hmem
        simp only [Prod.mk.injEq] at hEq
        exact ⟨k, b, hb, j, hj, row, hrow, m, hm, i, List.mem_range.mp hi, hEq⟩
  · rintro ⟨k, b, hb, j, hj, row, hrow, m, hm, i, hi, rfl, rfl, rfl⟩
    refine ⟨b, k, hb, j, hj, row, hrow, ?_⟩
    rw [hm, Option.elim_some]
    exact List.mem_map.mpr ⟨i, List.mem_range.mpr hi, rfl⟩

/-- A stored entry is an entry of the dense form. -/
theorem WellFormed.toDense_of_mem_entries (ha : a.WellFormed) {p q : Nat} {v : ℝ}
    (h : (p, q, v) ∈ a.entries) : a.toDense.get p q = v := by
  obtain ⟨k, b, hb, j, hj, row, hrow, m, hm, i, hi, rfl, rfl, rfl⟩ := mem_entries.mp h
  obtain ⟨r, hr⟩ := List.mem_iff_getElem?.mp hrow
  rw [ha.get_toDense hr hi hb hj, BlockRow.entry_of_cell? hm]

/-- The dense form is zero where nothing is stored. -/
theorem WellFormed.toDense_of_not_mem_entries (ha : a.WellFormed) {p q : Nat}
    (hp : p < a.numRows) (hq : q < a.numCols) (h : ∀ v, (p, q, v) ∉ a.entries) :
    a.toDense.get p q = 0 := by
  obtain ⟨r, row, hrow, i, hi, rfl⟩ := ha.exists_row hp
  obtain ⟨k, b, hb, j, hj, rfl⟩ := ha.exists_column hq
  rw [ha.get_toDense hrow hi hb hj]
  cases hm : row.cell? k with
  | none => rw [BlockRow.entry_of_none hm, real_zero]
  | some m =>
      exact absurd (mem_entries.mpr ⟨k, b, hb, j, hj, row, List.mem_of_getElem? hrow, m, hm, i, hi,
        rfl, rfl, rfl⟩) (h _)

/-- The positions by the blocks in which they lie. -/
theorem WellFormed.byColumns_eq (ha : a.WellFormed) :
    byColumns a.numRows a.numCols = a.columns.zipIdx.flatMap fun x =>
      (List.range x.1.size).flatMap fun j => a.rows.flatMap fun row =>
        (List.range row.block.size).map fun i => (row.block.position + i, x.1.position + j) := by
  have hrows : ∀ q : Nat, ((List.range a.numRows).map fun p => (p, q)) = a.rows.flatMap fun row =>
      (List.range row.block.size).map fun i => (row.block.position + i, q) := by
    intro q
    rw [numRows, range_total, ← ha.rows, List.flatMap_map, List.map_flatMap]
    simp only [List.map_map, Function.comp_def]
  have hcolumns : a.columns = a.columns.zipIdx.map Prod.fst := (List.zipIdx_map_fst 0 _).symm
  rw [byColumns, numCols, range_total, ← ha.columns, List.flatMap_assoc]
  simp only [List.flatMap_map, hrows]
  conv_lhs => rw [hcolumns]
  rw [List.flatMap_map]

/-- The entries are listed column by column and from the top down. -/
theorem WellFormed.positions_entries (ha : a.WellFormed) :
    (a.entries.map fun e => (e.1, e.2.1)).Sublist (byColumns a.numRows a.numCols) := by
  rw [ha.byColumns_eq, entries_eq_flatMap, List.map_flatMap]
  refine List.Sublist.flatMap_right _ fun x _ => ?_
  rw [List.map_flatMap]
  refine List.Sublist.flatMap_right _ fun j _ => ?_
  rw [List.map_flatMap]
  refine List.Sublist.flatMap_right _ fun row _ => ?_
  cases row.cell? x.2 with
  | none => exact List.nil_sublist _
  | some m =>
      rw [Option.elim_some, List.map_map]
      exact List.Sublist.refl _

/-- The entries that a walk hands over, one cell after the other. -/
theorem triplets_eq_flatMap (a : BlockMatrix ℝ) :
    a.triplets = a.rows.flatMap fun row => row.cells.flatMap fun c =>
      (List.range row.block.size).flatMap fun i =>
        (List.range (a.column c.column).size).map fun j =>
          (row.block.position + i, (a.column c.column).position + j, c.values.get i j) := by
  simp only [triplets, walk, List.foldl_append_eq_append, List.nil_append, ← List.flatMap_def]

theorem WellFormed.mem_triplets (ha : a.WellFormed) {e : Nat × Nat × ℝ} :
    e ∈ a.triplets ↔ e ∈ a.entries := by
  obtain ⟨p, q, v⟩ := e
  rw [mem_entries]
  simp only [triplets_eq_flatMap, List.mem_flatMap, List.mem_map, List.mem_range, Prod.mk.injEq]
  constructor
  · rintro ⟨row, hrow, cell, hcell, i, hi, j, hj, rfl, rfl, rfl⟩
    obtain ⟨b, hb, -⟩ := ha.shapes row hrow cell hcell
    have hm := (BlockRow.cell?_eq_some_iff (ha.ascending row hrow).nodup).mpr hcell
    rw [column_eq hb] at hj ⊢
    exact ⟨cell.column, b, hb, j, hj, row, hrow, cell.values, hm, i, hi, rfl, rfl, rfl⟩
  · rintro ⟨k, b, hb, j, hj, row, hrow, m, hm, i, hi, rfl, rfl, rfl⟩
    rw [← column_eq hb] at hj ⊢
    exact ⟨row, hrow, ⟨k, m⟩, BlockRow.mem_of_cell? hm, i, hi, j, hj, rfl, rfl, rfl⟩

/-- No entry is handed over twice: different rows, different cells of a row and
different entries of a cell stand in different places. -/
theorem WellFormed.nodup_triplets (ha : a.WellFormed) : a.triplets.Nodup := by
  rw [triplets_eq_flatMap]
  refine List.nodup_flatMap.mpr ⟨fun row hrow => List.nodup_flatMap.mpr ⟨fun cell _ =>
    List.nodup_flatMap.mpr ⟨fun i _ => ?entries, ?rowsOfCell⟩, ?cells⟩, ?rows⟩
  case entries =>
    refine List.nodup_range.map fun j j' h => ?_
    exact Nat.add_left_cancel (congrArg (fun e => e.2.1) h)
  case rowsOfCell =>
    refine List.nodup_range.imp ?_
    intro i i' hne e he he'
    obtain ⟨j, -, rfl⟩ := List.mem_map.mp he
    obtain ⟨j', -, hEq⟩ := List.mem_map.mp he'
    exact hne (Nat.add_left_cancel (congrArg Prod.fst hEq)).symm
  case cells =>
    refine (List.pairwise_map.mp (ha.ascending row hrow)).imp_of_mem ?_
    intro c c' hc hc' hlt e he he'
    simp only [List.mem_flatMap, List.mem_map, List.mem_range] at he he'
    obtain ⟨i, -, j, hj, rfl⟩ := he
    obtain ⟨i', -, j', hj', hEq⟩ := he'
    obtain ⟨b, hb, -⟩ := ha.shapes row hrow c hc
    obtain ⟨b', hb', -⟩ := ha.shapes row hrow c' hc'
    rw [column_eq hb] at hj hEq
    rw [column_eq hb'] at hj' hEq
    exact hlt.ne (ha.column_inj hb hb' hj hj' (congrArg (fun e => e.2.1) hEq).symm)
  case rows =>
    refine List.pairwise_iff_getElem.mpr ?_
    intro r s hr hs hlt e he he'
    simp only [List.mem_flatMap, List.mem_map, List.mem_range] at he he'
    obtain ⟨c, -, i, hi, j, -, rfl⟩ := he
    obtain ⟨c', -, i', hi', j', -, hEq⟩ := he'
    exact hlt.ne (ha.row_inj (List.getElem?_eq_getElem hr) (List.getElem?_eq_getElem hs) hi hi'
      (congrArg Prod.fst hEq).symm)

/-- Sorting into columns keeps every entry and adds none. -/
theorem WellFormed.triplets_perm (ha : a.WellFormed) : a.triplets.Perm a.entries := by
  have hentries : (a.entries.map fun e => (e.1, e.2.1)).Nodup :=
    (nodup_byColumns _ _).sublist ha.positions_entries
  exact (List.perm_ext_iff_of_nodup ha.nodup_triplets hentries.of_map).mpr fun _ => ha.mem_triplets

/-! ## All operations -/

/-- Whatever the cells of a structure are filled with, the operations on the
matrix are those on its dense form `A`: the products `A x` and `Aᵀ y`, the
squared lengths of the columns, and `A` times a diagonal matrix. It makes no
difference whether a result is put together from blocks or the cells are walked
through and each is added or copied to its place. The stored entries are
entries of `A`, in the order of the columns and none of them twice, and `A` is
zero elsewhere. The cells of a row ascend, one for each column block that the
structure names for the row. -/
theorem agrees_with_dense (sizes : List Nat) (rows : List (Nat × List Nat))
    (hrows : ∀ row ∈ rows, ∀ k ∈ row.2, k < sizes.length) (a : BlockMatrix ℝ)
    (ha : a.outline = (ofStructure sizes rows : BlockMatrix ℝ).outline) :
    let A : Matrix (Fin a.numRows) (Fin a.numCols) ℝ := a.toDense.toMatrix a.numRows a.numCols
    (a.numRows = total (rows.map Prod.fst) ∧ a.numCols = total sizes) ∧
    (a.walkDense.rows = a.numRows ∧ a.walkDense.cols = a.numCols ∧
      a.walkDense.toMatrix a.numRows a.numCols = A) ∧
    (∀ x, x.size = a.numCols → ∃ y, a.walkRight? x = .ok y ∧ a.rightMultiply? x = .ok y ∧
      y.size = a.numRows ∧ y.toFun a.numRows = A *ᵥ x.toFun a.numCols) ∧
    (∀ y, y.size = a.numRows → ∃ x, a.walkLeft? y = .ok x ∧ a.leftMultiply? y = .ok x ∧
      x.size = a.numCols ∧ x.toFun a.numCols = Aᵀ *ᵥ y.toFun a.numRows) ∧
    (a.walkNorms = a.squaredColumnNorms ∧ a.squaredColumnNorms.size = a.numCols ∧
      ∀ q : Fin a.numCols, a.squaredColumnNorms.get q = ∑ p, A p q ^ 2) ∧
    (∀ c, c.size = a.numCols → ∃ a', a.scaleColumns? c = (.ok (), a') ∧ a'.outline = a.outline ∧
      a'.toDense.toMatrix a.numRows a.numCols = A * diagonal (c.toFun a.numCols)) ∧
    (a.triplets.Perm a.entries ∧ (a.entries.map fun e => (e.1, e.2.1)).Nodup ∧
      (a.entries.map fun e => (e.1, e.2.1)).Sublist (byColumns a.numRows a.numCols) ∧
      (∀ e ∈ a.entries, ∃ (p : Fin a.numRows) (q : Fin a.numCols), e = (↑p, ↑q, A p q)) ∧
      ∀ (p : Fin a.numRows) (q : Fin a.numCols), (∀ v, (↑p, ↑q, v) ∉ a.entries) → A p q = 0) ∧
    ∀ (r : Nat) (row : BlockRow ℝ), a.rows[r]? = some row →
      (row.cells.map Cell.column).Pairwise (· < ·) ∧
      ∃ shape, rows[r]? = some shape ∧ row.block.size = shape.1 ∧
        ∀ k, k ∈ row.cells.map Cell.column ↔ k ∈ shape.2 := by
  intro A
  have hw : a.WellFormed := (wellFormed_ofStructure hrows).of_outline ha
  have hshape := shape_walkDense a
  refine ⟨dimensions_of_structure ha, ⟨hshape.1, hshape.2, hw.toMatrix_walkDense⟩, ?_, ?_, ?_, ?_,
    ⟨hw.triplets_perm, ?_, hw.positions_entries, ?_, ?_⟩, ?_⟩
  · intro x hx
    have hright := hw.rightMultiply?_eq hx
    exact ⟨_, (hw.walkRight?_eq x).trans hright, hright, hw.size_rightMultiply x,
      hw.toFun_rightMultiply x⟩
  · intro y hy
    have hleft : a.leftMultiply? y = .ok (a.leftMultiply y) := if_pos (hw.fitsLeft_iff.mpr hy.ge)
    exact ⟨_, (hw.walkLeft?_eq y).trans hleft, hleft, size_leftMultiply a y,
      hw.toFun_leftMultiply y⟩
  · exact ⟨hw.walkNorms_eq, size_squaredColumnNorms a, hw.squaredColumnNorms_eq⟩
  · intro c hc
    exact ⟨_, hw.scaleColumns?_eq hc, outline_scaleColumns a c, hw.toMatrix_scaleColumns c⟩
  · exact (nodup_byColumns _ _).sublist hw.positions_entries
  · rintro ⟨p, q, v⟩ he
    have hplace := hw.positions_entries.subset (List.mem_map_of_mem he)
    obtain ⟨hp, hq⟩ := mem_byColumns.mp hplace
    exact ⟨⟨p, hp⟩, ⟨q, hq⟩, Prod.ext rfl (Prod.ext rfl (hw.toDense_of_mem_entries he).symm)⟩
  · intro p q hnone
    exact hw.toDense_of_not_mem_entries p.isLt q.isLt hnone
  · intro r row hrow
    obtain ⟨shape, hshape, hsize, hcells⟩ := row_of_structure ha hrow
    refine ⟨hw.ascending row (List.mem_of_getElem? hrow), shape, hshape, hsize, fun k => ?_⟩
    rw [hcells, Ascending.mem_ofList]

/-- The first row names its columns out of order and one of them twice, the
second is empty, and the third names a column block without columns. -/
theorem agrees_with_dense_unordered :
    let rows := [(1, [2, 0, 2]), (0, [0]), (2, [1])]
    let a : BlockMatrix ℝ := ((ofStructure [1, 0, 2] rows).setCell 0 0
      (Mat.ofFn 1 1 fun _ _ => 3)).setCell 0 2 (Mat.ofFn 1 2 fun _ j => j)
    (∀ row ∈ rows, ∀ k ∈ row.2, k < [1, 0, 2].length) ∧
    a.outline = (ofStructure [1, 0, 2] rows : BlockMatrix ℝ).outline ∧
    a.numRows = 3 ∧ a.numCols = 3 ∧ a.triplets.Perm a.entries ∧
    ∃ y, a.walkRight? (Vec.ofFn 3 fun _ => 1) = .ok y ∧
      a.rightMultiply? (Vec.ofFn 3 fun _ => 1) = .ok y ∧ y.size = a.numRows ∧
      y.toFun a.numRows = a.toDense.toMatrix a.numRows a.numCols *ᵥ
        (Vec.ofFn 3 fun _ => 1).toFun a.numCols := by
  intro rows a
  have hrows : ∀ row ∈ rows, ∀ k ∈ row.2, k < [1, 0, 2].length := by decide
  have ha : a.outline = (ofStructure [1, 0, 2] rows : BlockMatrix ℝ).outline := rfl
  obtain ⟨⟨hnumRows, hnumCols⟩, -, hright, -, -, -, ⟨hperm, -⟩, -⟩ :=
    agrees_with_dense [1, 0, 2] rows hrows a ha
  exact ⟨hrows, ha, hnumRows, hnumCols, hperm, hright _ ((Vec.size_ofFn _ _).trans hnumCols.symm)⟩

end BlockMatrix

end LeastSquares
