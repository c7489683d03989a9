import LeastSquares.Proofs.NormalEquations

/-!
# Products with block-sparse matrices

The products of a block-sparse matrix with a vector are computed cell by cell.
For a well-formed matrix they are the products of the matrix that is stored:
`A x` from the right and `Aᵀ y` from the left.

## Main results

* `BlockMatrix.WellFormed.toFun_rightMultiply` — the product with a vector.
* `BlockMatrix.WellFormed.toFun_leftMultiply` — the transpose times a vector.
-/

namespace LeastSquares

open Matrix
open Finset (range)

namespace BlockMatrix

section Indices

variable {α : Type} {a : BlockMatrix α} {p : Nat}

/-- A row lies in a row block. -/
theorem WellFormed.exists_row (ha : a.WellFormed) (hp : p < a.numRows) :
    ∃ (r : Nat) (row : BlockRow α), a.rows[r]? = some row ∧
      ∃ i < row.block.size, p = row.block.position + i := by
  obtain ⟨r, n, hr, i, hi, rfl⟩ := exists_block_index hp
  rw [List.getElem?_map] at hr
  obtain ⟨row, hrow, rfl⟩ := Option.map_eq_some_iff.mp hr
  refine ⟨r, row, hrow, i, hi, ?_⟩
  rw [ha.position_row hrow, List.map_take]

/-- A column lies in a column block. -/
theorem WellFormed.exists_column (ha : a.WellFormed) (hp : p < a.numCols) :
    ∃ (k : Nat) (b : Block), a.columns[k]? = some b ∧ ∃ j < b.size, p = b.position + j := by
  obtain ⟨k, n, hk, j, hj, rfl⟩ := exists_block_index hp
  rw [List.getElem?_map] at hk
  obtain ⟨b, hb, rfl⟩ := Option.map_eq_some_iff.mp hk
  refine ⟨k, b, hb, j, hj, ?_⟩
  rw [ha.position_column hb, List.map_take]

end Indices

variable {a : BlockMatrix ℝ} {row : BlockRow ℝ} {x y : Vec ℝ} {i j r : Nat}

/-! ## From the left -/

theorem WellFormed.get_leftMultiply {k : Nat} {b : Block} (ha : a.WellFormed)
    (hb : a.columns[k]? = some b) (hj : j < b.size) :
    (a.leftMultiply y).get (b.position + j) = a.moment y k j := by
  rw [ha.position_column hb, get_leftMultiply_parts hb hj, moment]
  exact congrArg List.sum (List.map_congr_left fun row hrow => ha.elim_leftPart hrow hb hj)

/-- The transpose times a vector. -/
theorem WellFormed.toFun_leftMultiply (ha : a.WellFormed) (y : Vec ℝ) :
    (a.leftMultiply y).toFun a.numCols = a.toMatrixᵀ *ᵥ y.toFun a.numRows := by
  funext q
  obtain ⟨k, b, hb, j, hj, hq⟩ := ha.exists_column q.isLt
  rw [Vec.toFun_apply, hq, ha.get_leftMultiply hb hj, ← ha.moment_eq hb hj, ← hq]
  exact Finset.sum_range _

/-! ## From the right -/

theorem sum_map_getD {β : Type} (l : List β) (d : β) (f : β → ℝ) :
    (l.map f).sum = ∑ k ∈ range l.length, f (l.getD k d) := by
  induction l with
  | nil => rfl
  | cons b l ih =>
      rw [List.map_cons, List.sum_cons, List.length_cons, Finset.sum_range_succ', add_comm, ih]
      rfl

/-- A sum over the columns is a sum over the column blocks. -/
theorem WellFormed.sum_columns (ha : a.WellFormed) (f : Nat → ℝ) :
    ∑ q ∈ range a.numCols, f q = ∑ k ∈ range a.columns.length,
      ∑ j ∈ range (a.column k).size, f ((a.column k).position + j) := by
  rw [numCols, sum_range_total, ← ha.columns, sum_map_getD _ default]
  rfl

/-- A sum over the cells of a row is a sum over the column blocks, to which a
block without a cell contributes nothing. -/
theorem sum_cells {cells : List (Cell ℝ)} {n : Nat} (hnodup : (cells.map Cell.column).Nodup)
    (hlt : ∀ c ∈ cells, c.column < n) (f : Cell ℝ → ℝ) :
    ∑ k ∈ range n, (cells.find? fun c => c.column == k).elim 0 f = (cells.map f).sum := by
  induction cells with
  | nil => exact Finset.sum_const_zero
  | cons c cells ih =>
      obtain ⟨hc, hnodup⟩ := List.nodup_cons.mp hnodup
      have hrest := ih hnodup fun c' hc' => hlt c' (List.mem_cons_of_mem c hc')
      have hfirst : ∀ k, ((c :: cells).find? fun c => c.column == k).elim 0 f =
          (if k = c.column then f c else 0) +
            (cells.find? fun c => c.column == k).elim 0 f := by
        intro k
        rw [List.find?_cons]
        by_cases hk : k = c.column
        · subst hk
          have hnone : (cells.find? fun c' => c'.column == c.column) = none := by
            refine List.find?_eq_none.mpr fun c' hc' heq => hc ?_
            exact List.mem_map.mpr ⟨c', hc', eq_of_beq heq⟩
          rw [beq_self_eq_true, hnone, if_pos rfl]
          exact (add_zero _).symm
        · rw [beq_eq_false_iff_ne.mpr (Ne.symm hk), if_neg hk, zero_add]
      rw [List.map_cons, List.sum_cons, ← hrest, Finset.sum_congr rfl fun k _ => hfirst k,
        Finset.sum_add_distrib, Finset.sum_ite_eq',
        if_pos (Finset.mem_range.mpr (hlt c List.mem_cons_self))]

/-- The product in a row block. -/
noncomputable def rightPart (a : BlockMatrix ℝ) (x : Vec ℝ) (row : BlockRow ℝ) : Vec ℝ :=
  row.cells.foldl
    (fun acc c => acc + c.values.mulVec (x.slice (a.column c.column).position
      (a.column c.column).size))
    (Vec.zeros row.block.size)

theorem WellFormed.rightPart_spec (ha : a.WellFormed) (hrow : row ∈ a.rows) :
    (a.rightPart x row).size = row.block.size ∧ ∀ i < row.block.size,
      (a.rightPart x row).get i = ∑ k ∈ range a.columns.length,
        ∑ j ∈ range (a.column k).size, row.entry k i j * x.get ((a.column k).position + j) := by
  obtain ⟨hsize, hget⟩ := Vec.get_foldl (n := row.block.size) (l := row.cells)
    (f := fun acc c => acc + c.values.mulVec (x.slice (a.column c.column).position
      (a.column c.column).size))
    (fun c i => (c.values.mulVec (x.slice (a.column c.column).position
      (a.column c.column).size)).get i)
    (fun c _ acc hacc => ⟨(Vec.size_add _ _).trans hacc, fun i hi => Vec.get_add (hacc ▸ hi)⟩)
    (Vec.size_zeros row.block.size)
  refine ⟨hsize, fun i hi => (hget i hi).trans ?_⟩
  have hlt : ∀ c ∈ row.cells, c.column < a.columns.length := by
    intro c hc
    obtain ⟨b, hb, -⟩ := ha.shapes row hrow c hc
    exact (List.getElem?_eq_some_iff.mp hb).1
  rw [Vec.get_zeros, zero_add, ← sum_cells (ha.ascending row hrow).nodup hlt]
  refine Finset.sum_congr rfl fun k _ => ?_
  cases hfind : row.cells.find? fun c => c.column == k with
  | none =>
      have hnone : row.cell? k = none := by rw [BlockRow.cell?, hfind, Option.map_none]
      simp only [BlockRow.entry_of_none hnone, real_zero, zero_mul, Finset.sum_const_zero]
      rfl
  | some c =>
      have hk : c.column = k := by simpa using List.find?_some hfind
      have hcell : row.cell? k = some c.values := by rw [BlockRow.cell?, hfind, Option.map_some]
      obtain ⟨b, hb, hrows, hcols⟩ := ha.shapes row hrow c (List.mem_of_find?_eq_some hfind)
      rw [hk] at hb
      rw [Option.elim_some, hk, Mat.get_mulVec (hrows.symm ▸ hi), hcols, column_eq hb]
      refine Finset.sum_congr rfl fun j hj => ?_
      rw [BlockRow.entry_of_cell? hcell, Vec.get_slice (Finset.mem_range.mp hj)]

theorem WellFormed.size_rightMultiply (ha : a.WellFormed) (x : Vec ℝ) :
    (a.rightMultiply x).size = a.numRows := by
  rw [rightMultiply, Vec.size_concat, List.map_map]
  exact congrArg total (List.map_congr_left fun row hrow => (ha.rightPart_spec hrow).1)

theorem WellFormed.get_rightMultiply (ha : a.WellFormed) (hrow : a.rows[r]? = some row)
    (hi : i < row.block.size) :
    (a.rightMultiply x).get (row.block.position + i) = ∑ k ∈ range a.columns.length,
      ∑ j ∈ range (a.column k).size, row.entry k i j * x.get ((a.column k).position + j) := by
  have hmem := List.mem_of_getElem? hrow
  obtain ⟨hsize, hget⟩ := ha.rightPart_spec (x := x) hmem
  have hpart : (a.rows.map (a.rightPart x))[r]? = some (a.rightPart x row) := by
    rw [List.getElem?_map, hrow, Option.map_some]
  have hplace : total (((a.rows.map (a.rightPart x)).take r).map Vec.size) =
      row.block.position := by
    rw [ha.position_row hrow, ← List.map_take, List.map_map]
    refine congrArg total (List.map_congr_left fun row' hrow' => ?_)
    exact (ha.rightPart_spec (List.mem_of_mem_take hrow')).1
  rw [← hget i hi, ← hplace]
  exact Vec.get_concat hpart (hi.trans_eq hsize.symm)

/-- The product with a vector. -/
theorem WellFormed.toFun_rightMultiply (ha : a.WellFormed) (x : Vec ℝ) :
    (a.rightMultiply x).toFun a.numRows = a.toMatrix *ᵥ x.toFun a.numCols := by
  funext p
  obtain ⟨r, row, hrow, i, hi, hp⟩ := ha.exists_row p.isLt
  have hsum : (a.toMatrix *ᵥ x.toFun a.numCols) p =
      ∑ q ∈ range a.numCols, a.toDense.get p q * x.get q :=
    (Finset.sum_range fun q => a.toDense.get p q * x.get q).symm
  rw [hsum, ha.sum_columns, Vec.toFun_apply, hp, ha.get_rightMultiply hrow hi]
  refine Finset.sum_congr rfl fun k hk => Finset.sum_congr rfl fun j hj => ?_
  rw [ha.get_toDense hrow hi (getElem?_column (Finset.mem_range.mp hk)) (Finset.mem_range.mp hj)]

/-! ## Column norms -/

theorem size_squaredColumnNorms {α : Type} [Scalar α] (a : BlockMatrix α) :
    a.squaredColumnNorms.size = a.numCols := by
  rw [squaredColumnNorms, Vec.size_concat, Vec.map_size_mapIdx (n := Block.size)]
  · rfl
  · intro k b _
    refine List.foldlRecOn (motive := fun v : Vec α => v.size = b.size) a.rows _
      (Vec.size_zeros b.size) fun acc hacc row _ => ?_
    cases row.cell? k with
    | none => exact hacc
    | some values => exact (Vec.size_add _ _).trans hacc

end BlockMatrix

end LeastSquares
