import LeastSquares.Linear.CellWalk
import LeastSquares.Proofs.Products

/-!
# What a walk through the cells comes to

A walk changes a result of full size at the places of one cell after the other.
Seen from one entry of the result, most cells do nothing: an entry of a column
block is changed by the cells of this column, of which every row has one at
most, and an entry of a row block by the cells of this row. So an entry is
computed from the same numbers in the same order as when the result is put
together block by block, and the two are equal in every arithmetic, rounded or
not.

## Main definitions

* `BlockMatrix.byRowBlocks`, `BlockMatrix.byColumnBlocks` — vectors put together
  from row blocks and from column blocks.

## Main results

* `BlockMatrix.walk_rel`, `BlockMatrix.walk_keeps` — a walk seen from one entry,
  and what it keeps.
* `BlockMatrix.WellFormed.column_inj`, `BlockMatrix.WellFormed.row_inj` — blocks
  do not overlap.
* `BlockMatrix.WellFormed.walkRight_eq`, `BlockMatrix.WellFormed.walkLeft_eq`,
  `BlockMatrix.WellFormed.walkNorms_eq`, `BlockMatrix.WellFormed.get_walkDense`
  — walks and blocks agree.
-/

namespace LeastSquares

variable {α β γ : Type}

/-! ## Folds in which few members count -/

theorem foldl_eq_self {f : γ → β → γ} {l : List β} (h : ∀ b ∈ l, ∀ c, f c b = c) (c : γ) :
    l.foldl f c = c := by
  induction l with
  | nil => rfl
  | cons b l ih =>
      rw [List.foldl_cons, h b List.mem_cons_self, ih fun b hb => h b (List.mem_cons_of_mem _ hb)]

/-- Only the member at one place counts. -/
theorem foldl_eq_of_getElem? {f : γ → β → γ} {l : List β} {n : Nat} {b : β} (hb : l[n]? = some b)
    (h : ∀ m b', l[m]? = some b' → m ≠ n → ∀ c, f c b' = c) (c : γ) : l.foldl f c = f c b := by
  induction l generalizing n c with
  | nil => cases hb
  | cons b' l ih =>
      rw [List.foldl_cons]
      cases n with
      | zero =>
          cases hb
          refine foldl_eq_self (fun d hd => ?_) _
          obtain ⟨m, hm⟩ := List.mem_iff_getElem?.mp hd
          exact h (m + 1) d hm (Nat.succ_ne_zero m)
      | succ n =>
          rw [h 0 b' rfl (Nat.succ_ne_zero n).symm]
          exact ih hb (fun m d hd hne => h (m + 1) d hd fun hmn => hne (Nat.succ.inj hmn)) c

/-- Of members with different keys at most one has a given key. -/
theorem filter_key {κ : Type} [BEq κ] [LawfulBEq κ] {key : β → κ} {l : List β}
    (hn : (l.map key).Nodup) (k : κ) :
    (l.filter fun b => key b == k) = (l.find? fun b => key b == k).toList := by
  induction l with
  | nil => rfl
  | cons b l ih =>
      rw [List.map_cons, List.nodup_cons] at hn
      rw [List.filter_cons, List.find?_cons]
      by_cases hk : key b = k
      · subst hk
        have hrest : (l.filter fun b' => key b' == key b) = [] := by
          refine List.filter_eq_nil_iff.mpr fun b' hb' hEq => hn.1 ?_
          exact eq_of_beq hEq ▸ List.mem_map_of_mem hb'
        rw [beq_self_eq_true, if_pos rfl, hrest, Option.toList_some]
      · rw [beq_eq_false_iff_ne.mpr hk]
        exact ih hn.2

/-- Only this member counts in a fold that asks for the key. -/
theorem foldl_key {κ : Type} [DecidableEq κ] {key : β → κ} {l : List β}
    (hn : (l.map key).Nodup) (k : κ) (f : γ → β → γ) (c : γ) :
    l.foldl (fun c b => if key b = k then f c b else c) c =
      (l.find? fun b => key b == k).elim c (f c) := by
  have hfilter : (l.filter fun b => key b == k).foldl f c = _ := List.foldl_filter
  simp only [beq_iff_eq] at hfilter
  rw [← hfilter, filter_key hn]
  cases l.find? fun b => key b == k <;> rfl

/-- Of the cells of a row only the one in a given column counts. -/
theorem BlockRow.foldl_cells {row : BlockRow α} {k : Nat}
    (hn : (row.cells.map Cell.column).Nodup) (f : γ → Mat α → γ) (c : γ) :
    row.cells.foldl (fun c cell => if cell.column = k then f c cell.values else c) c =
      (row.cell? k).elim c (f c) := by
  rw [foldl_key hn k (fun c cell => f c cell.values), cell?, Option.elim_map]
  rfl

section Entries

variable [Scalar α]

namespace Vec

variable {v w : Vec α} {start i : Nat}

@[simp] theorem size_addAt (v : Vec α) (start : Nat) (w : Vec α) :
    (v.addAt start w).size = v.size := size_ofFn _ _

theorem get_addAt (h : i < v.size) : (v.addAt start w).get i =
    if start ≤ i ∧ i < start + w.size then v.get i + w.get (i - start) else v.get i :=
  get_ofFn_of_lt _ h

theorem get_zeros_eq (n i : Nat) : (zeros n : Vec α).get i = 0 := by
  rw [zeros, get_ofFn, ite_self]

/-- Adding vectors, some of which may be missing, adds their entries. -/
theorem get_foldl_elim {l : List β} {n : Nat} (part : β → Option (Vec α)) (hv : v.size = n) :
    (l.foldl (fun acc b => (part b).elim acc (acc + ·)) v).size = n ∧ ∀ i < n,
      (l.foldl (fun acc b => (part b).elim acc (acc + ·)) v).get i =
        l.foldl (fun s b => (part b).elim s fun w => s + w.get i) (v.get i) := by
  refine ⟨?_, fun i hi => ?_⟩
  · refine List.foldlRecOn (motive := fun u : Vec α => u.size = n) l _ hv fun u hu b _ => ?_
    cases part b with
    | none => exact hu
    | some w => exact (size_add u w).trans hu
  · refine (List.foldl_rel (r := fun (u : Vec α) s => u.size = n ∧ u.get i = s) ⟨hv, rfl⟩ ?_).2
    rintro b - u s ⟨hu, rfl⟩
    cases part b with
    | none => exact ⟨hu, rfl⟩
    | some w =>
        have hget : (u + w).get i = u.get i + w.get i := get_ofFn_of_lt _ (hu ▸ hi)
        exact ⟨(size_add u w).trans hu, hget⟩

end Vec

theorem Mat.get_copyAt {a m : Mat α} {row column i j : Nat} (hi : i < a.rows) (hj : j < a.cols) :
    (a.copyAt row column m).get i j =
      if (row ≤ i ∧ i < row + m.rows) ∧ column ≤ j ∧ j < column + m.cols then
        m.get (i - row) (j - column)
      else a.get i j :=
  get_ofFn _ hi hj

end Entries

namespace BlockMatrix

variable {a : BlockMatrix α} {row : BlockRow α} {b : Block} {k i j r : Nat}

/-! ## Blocks do not overlap -/

/-- An index lies in one column block only. -/
theorem WellFormed.column_inj (ha : a.WellFormed) {l : Nat} {b' : Block}
    (hb : a.columns[k]? = some b) (hb' : a.columns[l]? = some b') (hi : i < b.size)
    (hj : j < b'.size) (h : b.position + i = b'.position + j) : k = l := by
  rw [ha.position_column hb, ha.position_column hb', List.map_take, List.map_take] at h
  refine (block_index_inj ?_ ?_ hi hj h).1
  · rw [List.getElem?_map, hb, Option.map_some]
  · rw [List.getElem?_map, hb', Option.map_some]

/-- An index lies in one row block only. -/
theorem WellFormed.row_inj (ha : a.WellFormed) {s : Nat} {row' : BlockRow α}
    (hrow : a.rows[r]? = some row) (hrow' : a.rows[s]? = some row') (hi : i < row.block.size)
    (hj : j < row'.block.size) (h : row.block.position + i = row'.block.position + j) :
    r = s := by
  rw [ha.position_row hrow, ha.position_row hrow', List.map_take, List.map_take] at h
  refine (block_index_inj ?_ ?_ hi hj h).1
  · rw [List.getElem?_map, hrow, Option.map_some]
  · rw [List.getElem?_map, hrow', Option.map_some]

theorem WellFormed.stop_column_le (ha : a.WellFormed) (hb : a.columns[k]? = some b) :
    b.stop ≤ a.numCols := by
  rw [Block.stop, ha.position_column hb, List.map_take, numCols]
  refine total_take_add_le ?_
  rw [List.getElem?_map, hb, Option.map_some]

/-- A cell reaches an index of a column block if it stands in this column. -/
theorem WellFormed.reaches_column_iff (ha : a.WellFormed) (hrow : row ∈ a.rows) {c : Cell α}
    (hc : c ∈ row.cells) (hb : a.columns[k]? = some b) (hj : j < b.size) :
    (a.column c.column).position ≤ b.position + j ∧
      b.position + j < (a.column c.column).position + (a.column c.column).size ↔
        c.column = k := by
  obtain ⟨b', hb', -⟩ := ha.shapes row hrow c hc
  rw [column_eq hb']
  constructor
  · rintro ⟨hle, hlt⟩
    have hsplit : b'.position + (b.position + j - b'.position) = b.position + j := by omega
    exact ha.column_inj hb' hb (by omega) hj hsplit
  · rintro rfl
    cases hb.symm.trans hb'
    omega

/-- A row reaches an index of a row block if it is this row. -/
theorem WellFormed.reaches_row_iff (ha : a.WellFormed) (hrow : a.rows[r]? = some row)
    (hi : i < row.block.size) {s : Nat} {row' : BlockRow α} (hrow' : a.rows[s]? = some row') :
    row'.block.position ≤ row.block.position + i ∧
      row.block.position + i < row'.block.position + row'.block.size ↔ s = r := by
  constructor
  · rintro ⟨hle, hlt⟩
    have hsplit : row'.block.position + (row.block.position + i - row'.block.position) =
        row.block.position + i := by omega
    exact ha.row_inj hrow' hrow (by omega) hi hsplit
  · rintro rfl
    cases hrow.symm.trans hrow'
    omega

variable [Scalar α]

/-! ## Walks seen from one entry -/

omit [Scalar α] in
/-- A walk stays in relation to a second one, which may look at rows and cells
in any way, if every visit keeps the relation. -/
theorem walk_rel {visit : β → Block → Block → Mat α → β} {step : γ → BlockRow α → Cell α → γ}
    {P : β → γ → Prop} {x : β} {s : γ} (h : P x s)
    (hvisit : ∀ row ∈ a.rows, ∀ c ∈ row.cells, ∀ x s, P x s →
      P (visit x row.block (a.column c.column) c.values) (step s row c)) :
    P (a.walk visit x) (a.rows.foldl (fun s row => row.cells.foldl (step · row) s) s) :=
  List.foldl_rel h fun row hrow _ _ hrows =>
    List.foldl_rel hrows fun c hc _ _ hcells => hvisit row hrow c hc _ _ hcells

omit [Scalar α] in
/-- What every visit keeps holds after the walk. -/
theorem walk_keeps {visit : β → Block → Block → Mat α → β} {P : β → Prop} {x : β} (h : P x)
    (hvisit : ∀ row column m x, P x → P (visit x row column m)) : P (a.walk visit x) :=
  List.foldlRecOn (motive := P) a.rows _ h fun _ hrows _ _ =>
    List.foldlRecOn (motive := P) _ _ hrows fun _ hcells _ _ => hvisit _ _ _ _ hcells

theorem size_walk_addAt (place : Block → Block → Nat) (part : Block → Block → Mat α → Vec α)
    (v : Vec α) :
    (a.walk (fun x row column m => x.addAt (place row column) (part row column m)) v).size =
      v.size := by
  exact walk_keeps (P := fun x : Vec α => x.size = v.size) rfl
    fun row column m x hx => (Vec.size_addAt x _ _).trans hx

/-! ## Results by columns -/

section Columns

variable {part : Block → Block → Mat α → Vec α}

/-- A vector put together from column blocks. -/
def byColumnBlocks (a : BlockMatrix α) (part : Block → Block → Mat α → Vec α) : Vec α :=
  Vec.concat (a.columns.mapIdx fun k b => a.rows.foldl
    (fun acc row => (row.cell? k).elim acc fun m => acc + part row.block b m) (Vec.zeros b.size))

theorem get_columnBlock (rows : List (BlockRow α)) (part : Block → Block → Mat α → Vec α)
    (k : Nat) (b : Block) :
    let sum := rows.foldl
      (fun acc row => (row.cell? k).elim acc fun m => acc + part row.block b m) (Vec.zeros b.size)
    sum.size = b.size ∧ ∀ j < b.size, sum.get j = rows.foldl
      (fun s row => (row.cell? k).elim s fun m => s + (part row.block b m).get j) 0 := by
  have h := Vec.get_foldl_elim (l := rows) (fun row => (row.cell? k).map (part row.block b))
    (Vec.size_zeros b.size)
  simp only [Option.elim_map, Function.comp_def, Vec.get_zeros_eq] at h
  exact h

theorem size_byColumnBlocks : (a.byColumnBlocks part).size = a.numCols := by
  rw [byColumnBlocks, Vec.size_concat, Vec.map_size_mapIdx (n := Block.size)]
  · rfl
  · exact fun k b _ => (get_columnBlock a.rows part k b).1

theorem WellFormed.get_byColumnBlocks (ha : a.WellFormed) (hb : a.columns[k]? = some b)
    (hj : j < b.size) : (a.byColumnBlocks part).get (b.position + j) = a.rows.foldl
      (fun s row => (row.cell? k).elim s fun m => s + (part row.block b m).get j) 0 := by
  rw [ha.position_column hb, byColumnBlocks, Vec.get_concat_mapIdx (n := Block.size)
    (fun k b _ => (get_columnBlock a.rows part k b).1) hb hj]
  exact (get_columnBlock a.rows part k b).2 j hj

/-- An entry of a column block is changed by one cell of each row at most. -/
theorem WellFormed.get_walk_column (ha : a.WellFormed)
    (hpart : ∀ row ∈ a.rows, ∀ c ∈ row.cells,
      (part row.block (a.column c.column) c.values).size = (a.column c.column).size)
    (hb : a.columns[k]? = some b) (hj : j < b.size) :
    (a.walk (fun x row column m => x.addAt column.position (part row column m))
      (Vec.zeros a.numCols)).get (b.position + j) = a.rows.foldl
        (fun s row => (row.cell? k).elim s fun m => s + (part row.block b m).get j) 0 := by
  have hlt : b.position + j < a.numCols :=
    Nat.lt_of_lt_of_le (Nat.add_lt_add_left hj _) (ha.stop_column_le hb)
  have hwalk : (a.walk (fun x row column m => x.addAt column.position (part row column m))
      (Vec.zeros a.numCols)).get (b.position + j) = a.rows.foldl (fun s row => row.cells.foldl
        (fun s c => if c.column = k then s + (part row.block b c.values).get j else s) s) 0 := by
    refine (walk_rel (P := fun (x : Vec α) s => x.size = a.numCols ∧ x.get (b.position + j) = s)
      ⟨Vec.size_zeros _, Vec.get_zeros_eq _ _⟩ ?_).2
    rintro row hrow c hc x s ⟨hx, rfl⟩
    refine ⟨(Vec.size_addAt _ _ _).trans hx, ?_⟩
    rw [Vec.get_addAt (hx ▸ hlt), hpart row hrow c hc]
    simp only [ha.reaches_column_iff hrow hc hb hj]
    by_cases hk : c.column = k
    · rw [if_pos hk, if_pos hk, hk, column_eq hb, Nat.add_sub_cancel_left]
    · rw [if_neg hk, if_neg hk]
  rw [hwalk]
  exact List.foldl_ext _ _ _ fun s row hrow => BlockRow.foldl_cells (ha.ascending row hrow).nodup
    (fun s m => s + (part row.block b m).get j) s

/-- A walk that adds to column blocks puts the result together from them. -/
theorem WellFormed.walk_columns (ha : a.WellFormed)
    (hpart : ∀ row ∈ a.rows, ∀ c ∈ row.cells,
      (part row.block (a.column c.column) c.values).size = (a.column c.column).size) :
    a.walk (fun x row column m => x.addAt column.position (part row column m))
      (Vec.zeros a.numCols) = a.byColumnBlocks part := by
  have hsize := (size_walk_addAt (a := a) (fun _ column => column.position) part
    (Vec.zeros a.numCols)).trans (Vec.size_zeros _)
  refine Vec.ext_get (hsize.trans size_byColumnBlocks.symm) fun q hq => ?_
  obtain ⟨k, b, hb, j, hj, rfl⟩ := ha.exists_column (hsize ▸ hq)
  rw [ha.get_walk_column hpart hb hj, ha.get_byColumnBlocks hb hj]

theorem WellFormed.walkLeft_eq (ha : a.WellFormed) (y : Vec α) :
    a.walkLeft y = a.leftMultiply y := by
  rw [walkLeft, leftMultiply_eq]
  refine ha.walk_columns fun row hrow c hc => ?_
  obtain ⟨b, hb, -, hcols⟩ := ha.shapes row hrow c hc
  rw [Mat.size_tMulVec, hcols, column_eq hb]

theorem WellFormed.walkNorms_eq (ha : a.WellFormed) : a.walkNorms = a.squaredColumnNorms := by
  rw [walkNorms, squaredColumnNorms_eq_concat]
  exact ha.walk_columns fun _ _ _ _ => Vec.size_ofFn _ _

end Columns

/-! ## Results by rows -/

section Rows

variable {part : Block → Block → Mat α → Vec α}

/-- A vector put together from row blocks. -/
def byRowBlocks (a : BlockMatrix α) (part : Block → Block → Mat α → Vec α) : Vec α :=
  Vec.concat (a.rows.map fun row => row.cells.foldl
    (fun acc c => acc + part row.block (a.column c.column) c.values) (Vec.zeros row.block.size))

theorem get_rowBlock (a : BlockMatrix α) (part : Block → Block → Mat α → Vec α)
    (row : BlockRow α) :
    let sum := row.cells.foldl
      (fun acc c => acc + part row.block (a.column c.column) c.values) (Vec.zeros row.block.size)
    sum.size = row.block.size ∧ ∀ i < row.block.size, sum.get i = row.cells.foldl
      (fun s c => s + (part row.block (a.column c.column) c.values).get i) 0 := by
  have h := Vec.get_foldl_elim (l := row.cells)
    (fun c => some (part row.block (a.column c.column) c.values)) (Vec.size_zeros row.block.size)
  simp only [Option.elim_some, Vec.get_zeros_eq] at h
  exact h

theorem size_byRowBlocks : (a.byRowBlocks part).size = a.numRows := by
  rw [byRowBlocks, Vec.size_concat, List.map_map]
  exact congrArg total (List.map_congr_left fun row _ => (get_rowBlock a part row).1)

theorem WellFormed.get_byRowBlocks (ha : a.WellFormed) (hrow : a.rows[r]? = some row)
    (hi : i < row.block.size) : (a.byRowBlocks part).get (row.block.position + i) =
      row.cells.foldl (fun s c => s + (part row.block (a.column c.column) c.values).get i) 0 := by
  obtain ⟨hsize, hget⟩ := get_rowBlock a part row
  have hpart := congrArg (Option.map fun row => row.cells.foldl
    (fun acc c => acc + part row.block (a.column c.column) c.values)
    (Vec.zeros row.block.size)) hrow
  rw [← List.getElem?_map, Option.map_some] at hpart
  have hplace : total (((a.rows.map fun row => row.cells.foldl
      (fun acc c => acc + part row.block (a.column c.column) c.values)
      (Vec.zeros row.block.size)).take r).map Vec.size) = row.block.position := by
    rw [ha.position_row hrow, ← List.map_take, List.map_map]
    exact congrArg total (List.map_congr_left fun row' _ => (get_rowBlock a part row').1)
  rw [← hget i hi, ← hplace]
  exact Vec.get_concat hpart (hi.trans_eq hsize.symm)

/-- An entry of a row block is changed by the cells of this row. -/
theorem WellFormed.get_walk_row (ha : a.WellFormed)
    (hpart : ∀ row ∈ a.rows, ∀ c ∈ row.cells,
      (part row.block (a.column c.column) c.values).size = row.block.size)
    (hrow : a.rows[r]? = some row) (hi : i < row.block.size) :
    (a.walk (fun x row column m => x.addAt row.position (part row column m))
      (Vec.zeros a.numRows)).get (row.block.position + i) = row.cells.foldl
        (fun s c => s + (part row.block (a.column c.column) c.values).get i) 0 := by
  have hlt : row.block.position + i < a.numRows :=
    Nat.lt_of_lt_of_le (Nat.add_lt_add_left hi _) (ha.stop_row_le (List.mem_of_getElem? hrow))
  have hwalk : (a.walk (fun x row column m => x.addAt row.position (part row column m))
      (Vec.zeros a.numRows)).get (row.block.position + i) =
        a.rows.foldl (fun s row' => row'.cells.foldl
          (fun s c =>
            if row'.block.position ≤ row.block.position + i ∧
                row.block.position + i < row'.block.position + row'.block.size then
              s + (part row'.block (a.column c.column) c.values).get
                (row.block.position + i - row'.block.position)
            else s) s) 0 := by
    refine (walk_rel (P := fun (x : Vec α) s =>
      x.size = a.numRows ∧ x.get (row.block.position + i) = s)
      ⟨Vec.size_zeros _, Vec.get_zeros_eq _ _⟩ ?_).2
    rintro row' hrow' c hc x s ⟨hx, rfl⟩
    refine ⟨(Vec.size_addAt _ _ _).trans hx, ?_⟩
    rw [Vec.get_addAt (hx ▸ hlt), hpart row' hrow' c hc]
  rw [hwalk]
  refine (foldl_eq_of_getElem? hrow (fun s row' hrow' hne c => ?_) _).trans ?_
  · exact foldl_eq_self (fun _ _ _ => if_neg fun h =>
      hne ((ha.reaches_row_iff hrow hi hrow').mp h)) c
  · refine List.foldl_ext _ _ _ fun s c _ => ?_
    rw [if_pos ((ha.reaches_row_iff hrow hi hrow).mpr rfl), Nat.add_sub_cancel_left]

/-- A walk that adds to row blocks puts the result together from them. -/
theorem WellFormed.walk_rows (ha : a.WellFormed)
    (hpart : ∀ row ∈ a.rows, ∀ c ∈ row.cells,
      (part row.block (a.column c.column) c.values).size = row.block.size) :
    a.walk (fun x row column m => x.addAt row.position (part row column m))
      (Vec.zeros a.numRows) = a.byRowBlocks part := by
  have hsize := (size_walk_addAt (a := a) (fun row _ => row.position) part
    (Vec.zeros a.numRows)).trans (Vec.size_zeros _)
  refine Vec.ext_get (hsize.trans size_byRowBlocks.symm) fun q hq => ?_
  obtain ⟨r, row, hrow, i, hi, rfl⟩ := ha.exists_row (hsize ▸ hq)
  rw [ha.get_walk_row hpart hrow hi, ha.get_byRowBlocks hrow hi]

theorem WellFormed.walkRight_eq (ha : a.WellFormed) (x : Vec α) :
    a.walkRight x = a.rightMultiply x := by
  refine ha.walk_rows fun row hrow c hc => ?_
  obtain ⟨-, -, hrows, -⟩ := ha.shapes row hrow c hc
  rw [Mat.size_mulVec, hrows]

end Rows

/-! ## The dense form -/

theorem shape_walkDense (a : BlockMatrix α) :
    a.walkDense.rows = a.numRows ∧ a.walkDense.cols = a.numCols := by
  exact walk_keeps (P := fun d : Mat α => d.rows = a.numRows ∧ d.cols = a.numCols) ⟨rfl, rfl⟩
    fun row column m d hd => hd

theorem WellFormed.get_walkDense (ha : a.WellFormed) (hrow : a.rows[r]? = some row)
    (hi : i < row.block.size) (hb : a.columns[k]? = some b) (hj : j < b.size) :
    a.walkDense.get (row.block.position + i) (b.position + j) = row.entry k i j := by
  have hlti : row.block.position + i < a.numRows :=
    Nat.lt_of_lt_of_le (Nat.add_lt_add_left hi _) (ha.stop_row_le (List.mem_of_getElem? hrow))
  have hltj : b.position + j < a.numCols :=
    Nat.lt_of_lt_of_le (Nat.add_lt_add_left hj _) (ha.stop_column_le hb)
  have hwalk : a.walkDense.get (row.block.position + i) (b.position + j) =
        a.rows.foldl (fun s row' => row'.cells.foldl
          (fun s c =>
            if (row'.block.position ≤ row.block.position + i ∧
                row.block.position + i < row'.block.position + row'.block.size) ∧
                c.column = k then
              c.values.get (row.block.position + i - row'.block.position) j
            else s) s) 0 := by
    refine (walk_rel (P := fun (d : Mat α) s => (d.rows = a.numRows ∧ d.cols = a.numCols) ∧
      d.get (row.block.position + i) (b.position + j) = s)
      ⟨⟨rfl, rfl⟩, Mat.get_ofFn _ hlti hltj⟩ ?_).2
    rintro row' hrow' c hc d s ⟨hd, rfl⟩
    refine ⟨hd, ?_⟩
    obtain ⟨b', hb', hrows, hcols⟩ := ha.shapes row' hrow' c hc
    rw [Mat.get_copyAt (hd.1 ▸ hlti) (hd.2 ▸ hltj), hrows, hcols, ← column_eq hb']
    simp only [ha.reaches_column_iff hrow' hc hb hj]
    split
    · next h => rw [h.2, column_eq hb, Nat.add_sub_cancel_left]
    · rfl
  rw [hwalk]
  refine (foldl_eq_of_getElem? hrow (fun s row' hrow' hne c => ?_) _).trans ?_
  · exact foldl_eq_self (fun _ _ _ => if_neg fun h =>
      hne ((ha.reaches_row_iff hrow hi hrow').mp h.1)) c
  · simp only [ha.reaches_row_iff hrow hi hrow, true_and, Nat.add_sub_cancel_left]
    rw [BlockRow.foldl_cells (ha.ascending row (List.mem_of_getElem? hrow)).nodup
      fun _ m => m.get i j, BlockRow.entry]
    cases row.cell? k <;> rfl

end BlockMatrix

end LeastSquares
