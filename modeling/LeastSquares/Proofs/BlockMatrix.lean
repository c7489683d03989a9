import LeastSquares.Proofs.Ascending
import LeastSquares.Proofs.Blocks
import LeastSquares.Proofs.Matrices

/-!
# Block-sparse matrices as matrices

A block-sparse matrix is well-formed if its row and column blocks lie one
after the other, the cells of a row ascend, and every cell has the shape of
the place where its row and its column meet. Such a matrix stands for a dense
one: at the place of two blocks it holds the entry of the cell, and zero where
the row has no cell in the column. Products computed cell by cell are products
of this matrix.

## Main definitions

* `BlockMatrix.WellFormed` — the blocks and cells fit together.
* `BlockRow.entry` — the entry of a row block in a column block.

## Main results

* `BlockMatrix.WellFormed.get_toDense` — the entries of the dense form.
* `BlockMatrix.wellFormed_ofStructure` — matrices that are built from a
  structure are well-formed.
* `BlockMatrix.get_leftMultiply_parts` — the transpose times a vector.
-/

namespace LeastSquares

open Finset (range)

variable {α : Type}

/-! ## Well-formed matrices -/

namespace BlockMatrix

/-- The blocks and cells of a matrix fit together. -/
structure WellFormed (a : BlockMatrix α) : Prop where
  columns : a.columns = Block.layout (a.columns.map Block.size)
  rows : a.rows.map BlockRow.block = Block.layout (a.rows.map fun row => row.block.size)
  ascending : ∀ row ∈ a.rows, Ascending.Sorted (row.cells.map Cell.column)
  shapes : ∀ row ∈ a.rows, ∀ c ∈ row.cells, ∃ b, a.columns[c.column]? = some b ∧
    c.values.rows = row.block.size ∧ c.values.cols = b.size

variable {a : BlockMatrix α} {k r : Nat} {b : Block} {row : BlockRow α}

theorem column_eq (hb : a.columns[k]? = some b) : a.column k = b := by
  rw [column, List.getD_eq_getElem?_getD, hb, Option.getD_some]

theorem getElem?_column (hk : k < a.columns.length) : a.columns[k]? = some (a.column k) := by
  have hb := List.getElem?_eq_getElem hk
  rw [hb, column_eq hb]

theorem WellFormed.position_column (ha : a.WellFormed) (hb : a.columns[k]? = some b) :
    b.position = total ((a.columns.take k).map Block.size) := by
  have h := getElem?_layout (a.columns.map Block.size) k
  rw [← ha.columns, hb, List.getElem?_map, hb, ← List.map_take] at h
  exact congrArg Block.position (Option.some.inj h)

theorem WellFormed.position_row (ha : a.WellFormed) (hrow : a.rows[r]? = some row) :
    row.block.position = total ((a.rows.take r).map fun row => row.block.size) := by
  have h := getElem?_layout (a.rows.map fun row => row.block.size) r
  rw [← ha.rows, List.getElem?_map, hrow, List.getElem?_map, hrow, ← List.map_take] at h
  exact congrArg Block.position (Option.some.inj h)

theorem WellFormed.stop_row_le (ha : a.WellFormed) (hrow : row ∈ a.rows) :
    row.block.stop ≤ a.numRows := by
  obtain ⟨r, hr⟩ := List.mem_iff_getElem?.mp hrow
  rw [Block.stop, ha.position_row hr, List.map_take, numRows]
  refine total_take_add_le ?_
  rw [List.getElem?_map, hr, Option.map_some]

/-- A vector reaches every row if it has as many entries as there are rows: the
last row block stops at the last row. -/
theorem WellFormed.fitsLeft_iff (ha : a.WellFormed) {n : Nat} :
    a.fitsLeft n = true ↔ a.numRows ≤ n := by
  rw [fitsLeft, List.all_eq_true]
  refine ⟨fun hall => ?_, fun hn row hrow => decide_eq_true ((ha.stop_row_le hrow).trans hn)⟩
  cases hlast : a.rows.getLast? with
  | none =>
      rw [numRows, List.getLast?_eq_none_iff.mp hlast]
      exact Nat.zero_le n
  | some row =>
      have hstop : row.block.stop = a.numRows := by
        rw [List.getLast?_eq_getElem?] at hlast
        have hsize : (a.rows.map fun row => row.block.size)[a.rows.length - 1]? =
            some row.block.size := by
          rw [List.getElem?_map, hlast, Option.map_some]
        have hlength : a.rows.length - 1 + 1 = (a.rows.map fun row => row.block.size).length := by
          have hlt := (List.getElem?_eq_some_iff.mp hlast).1
          rw [List.length_map]
          omega
        rw [Block.stop, ha.position_row hlast, List.map_take, ← total_take_succ hsize, hlength,
          List.take_length, numRows]
      exact hstop ▸ of_decide_eq_true (hall row (List.mem_of_getLast? hlast))

end BlockMatrix

namespace BlockRow

variable {row : BlockRow α} {k : Nat} {m : Mat α}

theorem mem_of_cell? (h : row.cell? k = some m) : ⟨k, m⟩ ∈ row.cells := by
  obtain ⟨c, hc, rfl⟩ := Option.map_eq_some_iff.mp h
  obtain ⟨hk, -⟩ := List.find?_eq_some_iff_append.mp hc
  rw [← eq_of_beq hk]
  exact List.mem_of_find?_eq_some hc

theorem cell?_eq_none_iff : row.cell? k = none ↔ k ∉ row.cells.map Cell.column := by
  rw [cell?, Option.map_eq_none_iff, List.find?_eq_none, List.mem_map]
  constructor
  · rintro h ⟨c, hc, rfl⟩
    exact h c hc (beq_self_eq_true _)
  · intro h c hc hk
    exact h ⟨c, hc, eq_of_beq hk⟩

/-- The cells of a row whose columns are all different. -/
theorem cell?_eq_some_iff (h : (row.cells.map Cell.column).Nodup) :
    row.cell? k = some m ↔ ⟨k, m⟩ ∈ row.cells := by
  refine ⟨mem_of_cell?, fun hmem => ?_⟩
  cases hm : row.cell? k with
  | none => exact absurd (List.mem_map_of_mem hmem) (cell?_eq_none_iff.mp hm)
  | some m' =>
      have hsame := List.inj_on_of_nodup_map h (mem_of_cell? hm) hmem rfl
      exact congrArg (some ∘ Cell.values) hsame

variable [Scalar α]

/-- The entry of a row block in a column block, zero without a cell. -/
def entry (row : BlockRow α) (k i j : Nat) : α := ((row.cell? k).map fun m => m.get i j).getD 0

theorem entry_of_cell? {i j : Nat} (h : row.cell? k = some m) : row.entry k i j = m.get i j := by
  rw [entry, h, Option.map_some, Option.getD_some]

theorem entry_of_none {i j : Nat} (h : row.cell? k = none) : row.entry k i j = 0 := by
  rw [entry, h, Option.map_none, Option.getD_none]

end BlockRow

namespace BlockMatrix

variable {a : BlockMatrix α} {k r i j : Nat} {b : Block} {row : BlockRow α}

theorem WellFormed.shape (ha : a.WellFormed) (hrow : row ∈ a.rows) (hb : a.columns[k]? = some b)
    {m : Mat α} (hm : row.cell? k = some m) : m.rows = row.block.size ∧ m.cols = b.size := by
  obtain ⟨b', hb', hshape⟩ := ha.shapes row hrow _ (BlockRow.mem_of_cell? hm)
  rw [hb] at hb'
  cases hb'
  exact hshape

/-- The dense form has the entries of the cells, and zeros elsewhere. -/
theorem WellFormed.get_toDense [Scalar α] (ha : a.WellFormed) (hrow : a.rows[r]? = some row)
    (hi : i < row.block.size) (hb : a.columns[k]? = some b) (hj : j < b.size) :
    a.toDense.get (row.block.position + i) (b.position + j) = row.entry k i j := by
  rw [ha.position_row hrow, ha.position_column hb, toDense,
    Mat.get_flatMap_rows (fun row => row.block.size) hrow hi]
  rw [Vec.get_concat_mapIdx (n := Block.size) ?_ hb hj]
  · rw [BlockRow.entry]
    cases row.cell? k with
    | none => exact (Vec.get_ofFn _ _ _).trans (ite_self _)
    | some m => exact Vec.get_ofFn_of_lt _ hj
  · intro k b _
    cases row.cell? k <;> exact Vec.size_ofFn _ _

/-! ## Building well-formed matrices -/

section Building

variable [Scalar α] {sizes : List Nat} {rows : List (Nat × List Nat)}

/-- A row of a matrix built from a structure. -/
theorem getElem?_rows_ofStructure {r : Nat} {shape : Nat × List Nat}
    (h : rows[r]? = some shape) :
    (ofStructure sizes rows : BlockMatrix α).rows[r]? =
      some ⟨⟨shape.1, total ((rows.take r).map Prod.fst)⟩,
        (Ascending.ofList shape.2).map fun k =>
          ⟨k, Mat.zeros shape.1 ((Block.layout sizes).getD k default).size⟩⟩ := by
  have hblock : (Block.layout (rows.map Prod.fst))[r]? =
      some ⟨shape.1, total ((rows.take r).map Prod.fst)⟩ := by
    rw [getElem?_layout, List.getElem?_map, h, List.map_take]
    rfl
  have hzip : ((Block.layout (rows.map Prod.fst)).zip rows)[r]? =
      some (⟨shape.1, total ((rows.take r).map Prod.fst)⟩, shape) :=
    List.getElem?_zip_eq_some.mpr ⟨hblock, h⟩
  rw [ofStructure, List.getElem?_map, hzip]
  rfl

theorem mem_rows_ofStructure (h : row ∈ (ofStructure sizes rows : BlockMatrix α).rows) :
    ∃ size cells, (size, cells) ∈ rows ∧ row.cells = (Ascending.ofList cells).map fun k =>
      ⟨k, Mat.zeros row.block.size ((Block.layout sizes).getD k default).size⟩ := by
  obtain ⟨⟨block, size, cells⟩, hmem, rfl⟩ := List.mem_map.mp h
  exact ⟨size, cells, (List.of_mem_zip hmem).2, rfl⟩

theorem map_block_ofStructure (sizes : List Nat) (rows : List (Nat × List Nat)) :
    (ofStructure sizes rows : BlockMatrix α).rows.map BlockRow.block =
      Block.layout (rows.map Prod.fst) := by
  rw [ofStructure, List.map_map]
  refine List.map_fst_zip ?_
  rw [length_layout, List.length_map]

/-- Matrices built from a structure are well-formed if its columns exist. -/
theorem wellFormed_ofStructure (h : ∀ row ∈ rows, ∀ k ∈ row.2, k < sizes.length) :
    (ofStructure sizes rows : BlockMatrix α).WellFormed where
  columns := by
    show Block.layout sizes = Block.layout ((Block.layout sizes).map Block.size)
    rw [map_size_layout]
  rows := by
    have hsizes : (ofStructure sizes rows : BlockMatrix α).rows.map (fun row => row.block.size) =
        rows.map Prod.fst := by
      rw [← map_size_layout (rows.map Prod.fst), ← map_block_ofStructure (α := α) sizes,
        List.map_map]
      rfl
    rw [hsizes, map_block_ofStructure]
  ascending row hrow := by
    obtain ⟨size, cells, -, hcells⟩ := mem_rows_ofStructure hrow
    rw [hcells, List.map_map]
    exact (List.map_id (Ascending.ofList cells)).symm ▸ Ascending.sorted_ofList cells
  shapes row hrow c hc := by
    obtain ⟨size, cells, hmem, hcells⟩ := mem_rows_ofStructure hrow
    rw [hcells] at hc
    obtain ⟨k, hk, rfl⟩ := List.mem_map.mp hc
    have hlt := h _ hmem k (Ascending.mem_ofList.mp hk)
    have hlen : k < (Block.layout sizes).length := (length_layout sizes).symm ▸ hlt
    refine ⟨(Block.layout sizes)[k], List.getElem?_eq_getElem hlen, rfl, ?_⟩
    rw [List.getD_eq_getElem?_getD, List.getElem?_eq_getElem hlen]
    rfl

end Building

theorem cells_setCell (row : BlockRow α) (k : Nat) (m : Mat α) :
    (row.setCell k m).cells.map Cell.column = row.cells.map Cell.column := by
  rw [BlockRow.setCell, List.map_map]
  refine List.map_congr_left fun c _ => ?_
  rw [Function.comp_apply]
  split
  · rename_i heq
    exact (eq_of_beq heq).symm
  · rfl

/-! ## Results by column blocks -/

theorem leftMultiply_eq [Scalar α] (a : BlockMatrix α) (y : Vec α) :
    a.leftMultiply y = Vec.concat (a.columns.mapIdx fun k b => a.rows.foldl
      (fun acc row => (row.cell? k).elim acc fun m =>
        acc + m.tMulVec (y.slice row.block.position row.block.size)) (Vec.zeros b.size)) := by
  rw [leftMultiply]
  congr
  funext k b
  congr
  funext acc row
  cases row.cell? k <;> rfl

theorem size_leftMultiply [Scalar α] (a : BlockMatrix α) (y : Vec α) :
    (a.leftMultiply y).size = a.numCols := by
  rw [leftMultiply_eq, Vec.size_concat, Vec.map_size_mapIdx (n := Block.size)]
  · rfl
  · intro k b _
    refine List.foldlRecOn (motive := fun v : Vec α => v.size = b.size) _ _ (Vec.size_zeros _)
      fun v hv row _ => ?_
    cases row.cell? k with
    | none => exact hv
    | some m => exact (Vec.size_add _ _).trans hv

theorem squaredColumnNorms_eq_concat [Scalar α] (a : BlockMatrix α) :
    a.squaredColumnNorms = Vec.concat (a.columns.mapIdx fun k b => a.rows.foldl
      (fun acc row => (row.cell? k).elim acc fun m =>
        acc + Vec.ofFn b.size fun j => (m.col j).normSq) (Vec.zeros b.size)) := by
  rw [squaredColumnNorms]
  congr
  funext k b
  congr
  funext acc row
  cases row.cell? k <;> rfl

/-! ## Products over the real numbers -/

variable {a : BlockMatrix ℝ} {row : BlockRow ℝ} {y : Vec ℝ}

/-- What a row block contributes to the transpose times a vector. -/
noncomputable def leftPart (y : Vec ℝ) (k : Nat) (row : BlockRow ℝ) : Option (Vec ℝ) :=
  (row.cell? k).map fun m => m.tMulVec (y.slice row.block.position row.block.size)

theorem foldl_leftPart (y : Vec ℝ) (k : Nat) (rows : List (BlockRow ℝ)) (n : Nat) :
    let sum := rows.foldl
      (fun acc row => (row.cell? k).elim acc fun m =>
        acc + m.tMulVec (y.slice row.block.position row.block.size)) (Vec.zeros n)
    sum.size = n ∧ ∀ j < n,
      sum.get j = (rows.map fun row => (leftPart y k row).elim 0 (Vec.get · j)).sum := by
  obtain ⟨hsize, hget⟩ := Vec.get_foldl (n := n) (l := rows)
    (f := fun acc row => (row.cell? k).elim acc fun m =>
      acc + m.tMulVec (y.slice row.block.position row.block.size))
    (fun row j => (leftPart y k row).elim 0 (Vec.get · j))
    (fun row _ acc hacc => by
      rw [leftPart]
      cases row.cell? k with
      | none => exact ⟨hacc, fun j _ => (add_zero _).symm⟩
      | some m => exact ⟨(Vec.size_add _ _).trans hacc, fun j hj => Vec.get_add (hacc ▸ hj)⟩)
    (Vec.size_zeros n)
  refine ⟨hsize, fun j hj => ?_⟩
  rw [hget j hj, Vec.get_zeros, zero_add]

/-- The transpose times a vector, one column block at a time. -/
theorem get_leftMultiply_parts (hb : a.columns[k]? = some b) (hj : j < b.size) :
    (a.leftMultiply y).get (total ((a.columns.take k).map Block.size) + j) =
      (a.rows.map fun row => (leftPart y k row).elim 0 (Vec.get · j)).sum := by
  rw [leftMultiply_eq, Vec.get_concat_mapIdx (n := Block.size) ?_ hb hj,
    (foldl_leftPart y k a.rows b.size).2 j hj]
  exact fun k b _ => (foldl_leftPart y k a.rows b.size).1

/-- What a row block contributes to an entry. -/
theorem WellFormed.elim_leftPart (ha : a.WellFormed) (hrow : row ∈ a.rows)
    (hb : a.columns[k]? = some b) (hj : j < b.size) :
    (leftPart y k row).elim 0 (Vec.get · j) =
      ∑ i ∈ range row.block.size, row.entry k i j * y.get (row.block.position + i) := by
  rw [leftPart]
  cases hm : row.cell? k with
  | none =>
      simp only [BlockRow.entry_of_none hm, real_zero, zero_mul, Finset.sum_const_zero]
      rfl
  | some m =>
      obtain ⟨hrows, hcols⟩ := ha.shape hrow hb hm
      rw [Option.map_some, Option.elim_some, Mat.get_tMulVec (hcols ▸ hj), hrows]
      refine Finset.sum_congr rfl fun i hi => ?_
      rw [BlockRow.entry_of_cell? hm, Vec.get_slice (Finset.mem_range.mp hi)]

end BlockMatrix

end LeastSquares
