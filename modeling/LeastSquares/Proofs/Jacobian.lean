import LeastSquares.Proofs.BlockMatrix
import LeastSquares.Proofs.Coherent
import LeastSquares.Proofs.Cost

/-!
# Rows of a Jacobian

The blocks of an evaluator lie one after the other in the step vector, and no
term reads a block twice. So every Jacobian of a cost function has a cell of
its own in the row of its term, the cells that an evaluation fills in are
those that were laid out, and the Jacobian that comes out is well-formed.

## Main definitions

* `Evaluator.WellFormed` — blocks, terms and template fit together.
* `Evaluator.FitsRow` — cells that fit into the row of a term.

## Main results

* `Evaluator.WellFormed.exists_cells` — derivatives can be projected.
* `Evaluator.WellFormed.fitsRow` — the cells of a term fit into its row.
* `Evaluator.WellFormed.wellFormed_fill`, `Evaluator.WellFormed.get_toDense_fill` —
  cells that fit make a well-formed matrix, and its entries are theirs.
-/

namespace LeastSquares

variable {α σ : Type}

/-! ## Filling cells -/

namespace BlockRow

variable {row : BlockRow α} {cells : List (Cell α)} {k : Nat} {m : Mat α}

theorem cell?_setCell (row : BlockRow α) (k : Nat) (m : Mat α) (l : Nat) :
    (row.setCell k m).cell? l = if l = k then (row.cell? k).map fun _ => m else row.cell? l := by
  have hsame : (fun c : Cell α => (if c.column == k then ⟨k, m⟩ else c : Cell α).column == l) =
      fun c => c.column == l := by
    funext c
    split
    · rename_i heq
      rw [eq_of_beq heq]
    · rfl
  have hfind : (row.setCell k m).cell? l = ((row.cells.find? fun c => c.column == l).map
      fun c => if c.column == k then (⟨k, m⟩ : Cell α) else c).map Cell.values := by
    rw [cell?, setCell, List.find?_map]
    exact congrArg (fun p => ((row.cells.find? p).map _).map Cell.values) hsame
  rw [hfind]
  split
  · rename_i heq
    subst heq
    rw [cell?]
    cases hc : row.cells.find? fun c => c.column == l with
    | none => rfl
    | some c => simp only [Option.map_some, List.find?_some hc, if_true]
  · rename_i hne
    rw [cell?]
    cases hc : row.cells.find? fun c => c.column == l with
    | none => rfl
    | some c =>
        have hbeq := List.find?_some hc
        have hcl : c.column = l := eq_of_beq hbeq
        have hck : (c.column == k) = false := by rw [hcl]; exact beq_false_of_ne hne
        simp only [Option.map_some, hck, Bool.false_eq_true, if_false]

/-- A row with other values in some of its cells. -/
def setCells (row : BlockRow α) (cells : List (Cell α)) : BlockRow α :=
  cells.foldl (fun row c => row.setCell c.column c.values) row

@[simp] theorem setCells_cons (row : BlockRow α) (c : Cell α) (cells : List (Cell α)) :
    row.setCells (c :: cells) = (row.setCell c.column c.values).setCells cells := rfl

theorem block_setCells (row : BlockRow α) (cells : List (Cell α)) :
    (row.setCells cells).block = row.block := by
  induction cells generalizing row with
  | nil => rfl
  | cons c cells ih => rw [setCells_cons, ih]; rfl

theorem columns_setCells (row : BlockRow α) (cells : List (Cell α)) :
    (row.setCells cells).cells.map Cell.column = row.cells.map Cell.column := by
  induction cells generalizing row with
  | nil => rfl
  | cons c cells ih => rw [setCells_cons, ih, BlockMatrix.cells_setCell]

theorem cell?_setCells_of_not_mem (h : k ∉ cells.map Cell.column) :
    (row.setCells cells).cell? k = row.cell? k := by
  induction cells generalizing row with
  | nil => rfl
  | cons c cells ih =>
      rw [List.map_cons, List.mem_cons, not_or] at h
      rw [setCells_cons, ih h.2, cell?_setCell, if_neg h.1]

/-- A cell that a row has gets its new values. -/
theorem cell?_setCells (hn : (cells.map Cell.column).Nodup) (hmem : ⟨k, m⟩ ∈ cells)
    (hrow : k ∈ row.cells.map Cell.column) : (row.setCells cells).cell? k = some m := by
  induction cells generalizing row with
  | nil => cases hmem
  | cons c cells ih =>
      rw [List.map_cons, List.nodup_cons] at hn
      rw [setCells_cons]
      rcases List.mem_cons.mp hmem with rfl | hmem
      · rw [cell?_setCells_of_not_mem hn.1, cell?_setCell, if_pos rfl]
        cases hc : row.cell? k with
        | none => exact absurd hrow (cell?_eq_none_iff.mp hc)
        | some m' => rfl
      · exact ih hn.2 hmem (by rwa [BlockMatrix.cells_setCell])

/-- New cells of the right shape leave a row with cells of the right shape. -/
theorem forall_setCells {P : Cell α → Prop} (hrow : ∀ c ∈ row.cells, P c)
    (hcells : ∀ c ∈ cells, P c) : ∀ c ∈ (row.setCells cells).cells, P c := by
  induction cells generalizing row with
  | nil => exact hrow
  | cons c cells ih =>
      refine ih (fun c' hc' => ?_) fun c' hc' => hcells c' (List.mem_cons_of_mem c hc')
      obtain ⟨d, hd, rfl⟩ := List.mem_map.mp hc'
      split
      · exact hcells c (by simp)
      · exact hrow d hd

end BlockRow

variable [Scalar α]

/-- The derivative of the values of a block by its tangent space. -/
def FreeBlock.tangentMap (b : FreeBlock α) (values : Vec α) : Except Fault (Mat α) :=
  match b.manifold with
  | some m => m.plusJacobian values
  | none => .ok (Mat.identity b.size)

namespace Evaluator

/-! ## Evaluators that fit together -/

/-- The blocks, the terms and the template of an evaluator fit together. -/
structure WellFormed (e : Evaluator α σ) : Prop where
  /-- Blocks lie one after the other in the step vector. -/
  place : ∀ k b, e.blocks[k]? = some b →
    b.deltaOffset = total ((e.blocks.take k).map FreeBlock.localSize)
  /-- Blocks have the sizes of their manifolds. -/
  manifold : ∀ b ∈ e.blocks, ∀ m, b.manifold = some m →
    m.ambient = b.size ∧ m.tangent = b.localSize
  euclidean : ∀ b ∈ e.blocks, b.manifold = none → b.localSize = b.size
  /-- A term reads a block once, and with the size that it declares. -/
  distinct : ∀ t ∈ e.terms, t.columns.Nodup
  sources : ∀ t ∈ e.terms, List.Forall₂
    (fun s n => ∀ k, s = .free k → ∃ b, e.blocks[k]? = some b ∧ b.size = n)
    t.sources t.cost.sizes
  template : e.template = templateOf (e.blocks.map FreeBlock.localSize) e.terms

variable {e : Evaluator α σ} {x : Vec α} {t : ResidualTerm α σ} {k : Nat} {b : FreeBlock α}

/-- The derivative of a block's values has a row for every coordinate and a
column for every degree of freedom. -/
theorem WellFormed.tangentMap (he : e.WellFormed) (hb : b ∈ e.blocks) (x : Vec α) :
    ∃ m, b.tangentMap (b.valuesIn x) = .ok m ∧ m.rows = b.size ∧ m.cols = b.localSize := by
  unfold FreeBlock.tangentMap
  cases hm : b.manifold with
  | none =>
      exact ⟨Mat.identity b.size, rfl, rfl, (he.euclidean b hb hm).symm⟩
  | some m =>
      obtain ⟨hambient, htangent⟩ := he.manifold b hb m hm
      have hsize : (b.valuesIn x).size = m.ambient := by
        rw [hambient, FreeBlock.valuesIn, Vec.size_slice]
      rw [← hambient, ← htangent]
      exact m.plusJacobian_ok _ hsize

/-- A projected derivative has a column for every degree of freedom. -/
theorem WellFormed.shape_project (he : e.WellFormed) (hb : b ∈ e.blocks) {jacobian m : Mat α}
    (hcols : jacobian.cols = b.size) (hm : b.project (b.valuesIn x) jacobian = .ok m) :
    m.rows = jacobian.rows ∧ m.cols = b.localSize := by
  obtain ⟨p, hp, -, hlocal⟩ := he.tangentMap hb x
  unfold FreeBlock.tangentMap at hp
  unfold FreeBlock.project at hm
  cases hmanifold : b.manifold with
  | none =>
      rw [hmanifold] at hm
      cases hm
      exact ⟨rfl, hcols.trans (he.euclidean b hb hmanifold).symm⟩
  | some manifold =>
      rw [hmanifold] at hp hm
      dsimp only at hp hm
      rw [hp] at hm
      cases hm
      exact ⟨rfl, hlocal⟩

theorem place_freeBlocks {p : Problem α σ} {stateOffset deltaOffset : Nat} {ids : List BlockId}
    {blocks : List (FreeBlock α)} (h : freeBlocks p stateOffset deltaOffset ids = .ok blocks)
    (hk : blocks[k]? = some b) :
    b.deltaOffset = deltaOffset + total ((blocks.take k).map FreeBlock.localSize) ∧
      ∃ pb, p.block? b.id = some pb ∧ b.size = pb.size ∧ b.localSize = pb.localSize ∧
        b.manifold = pb.manifold := by
  induction ids generalizing stateOffset deltaOffset blocks k with
  | nil =>
      cases h
      cases hk
  | cons id ids ih =>
      obtain ⟨pb, hpb, rest, hrest, rfl⟩ := freeBlocks_cons.mp h
      cases k with
      | zero =>
          cases hk
          exact ⟨rfl, pb, hpb, rfl, rfl, rfl⟩
      | succ k =>
          obtain ⟨hplace, hblock⟩ := ih hrest hk
          refine ⟨?_, hblock⟩
          rw [hplace, List.take_succ_cons, List.map_cons, total_cons, Nat.add_assoc]

omit [Scalar α] in
/-- Distinct handles have distinct places. -/
theorem nodup_filterMap_lastPlace? {ids blocks : List BlockId} (h : ids.Nodup) :
    (ids.filterMap fun id => id.lastPlace? blocks).Nodup := by
  refine List.Nodup.filterMap (fun id id' k hid hid' => ?_) h
  have hget := BlockId.getElem?_of_lastPlace? (Option.mem_def.mp hid)
  rw [BlockId.getElem?_of_lastPlace? (Option.mem_def.mp hid')] at hget
  exact (Option.some.inj hget).symm

/-- Evaluators of coherent problems fit together. -/
theorem MadeOf.wellFormed {p : Problem α σ} {g : Program} (h : e.MadeOf p g) (hp : p.Coherent) :
    e.WellFormed where
  place k b hb := by rw [(place_freeBlocks h.blocks hb).1, Nat.zero_add]
  manifold b hb m hm := by
    obtain ⟨k, hk⟩ := List.mem_iff_getElem?.mp hb
    obtain ⟨-, pb, hpb, hsize, hlocal, hmanifold⟩ := place_freeBlocks h.blocks hk
    rw [hmanifold] at hm
    refine ⟨(hp.fits _ pb hpb m hm).trans hsize.symm, ?_⟩
    rw [hlocal, ParameterBlock.localSize, hm]
  euclidean b hb hm := by
    obtain ⟨k, hk⟩ := List.mem_iff_getElem?.mp hb
    obtain ⟨-, pb, -, hsize, hlocal, hmanifold⟩ := place_freeBlocks h.blocks hk
    rw [hlocal, hsize, ParameterBlock.localSize, ← hmanifold, hm]
  distinct t ht := by
    obtain ⟨i, -, hterm⟩ := exists_left_of_forall₂ h.forall₂_terms t ht
    obtain ⟨r, hr, hcolumns⟩ := columns_of_term hterm
    rw [hcolumns]
    exact nodup_filterMap_lastPlace? (hp.nodup_blocks i r hr)
  sources t ht := by
    obtain ⟨i, -, hterm⟩ := exists_left_of_forall₂ h.forall₂_terms t ht
    obtain ⟨r, hr, sources, hsources, rfl⟩ := term_eq_ok.mp hterm
    refine forall₂_of_common (mapM_eq_ok_iff.mp hsources) (hp.sizes i r hr) ?_
    rintro id s n hs ⟨pb, hpb, rfl⟩ k rfl
    have hplace : id.lastPlace? g.blocks = some k := (column?_of_source hs).symm
    have hget := BlockId.getElem?_of_lastPlace? hplace
    rw [← map_id_freeBlocks h.blocks, List.getElem?_map, Option.map_eq_some_iff] at hget
    obtain ⟨b, hb, rfl⟩ := hget
    obtain ⟨-, pb', hpb', hsize, -, -⟩ := place_freeBlocks h.blocks hb
    rw [hpb] at hpb'
    cases hpb'
    exact ⟨b, hb, hsize⟩
  template := h.template

/-- What a term reads as a free block is one. -/
theorem WellFormed.exists_block (he : e.WellFormed) (ht : t ∈ e.terms) (hk : k ∈ t.columns) :
    ∃ b, e.blocks[k]? = some b := by
  rw [ResidualTerm.columns_eq] at hk
  obtain ⟨s, hs, hcolumn⟩ := List.mem_filterMap.mp hk
  obtain ⟨n, -, hn⟩ := exists_right_of_forall₂ (he.sources t ht) s hs
  obtain ⟨b, hb, -⟩ := hn k (BlockSource.eq_free hcolumn)
  exact ⟨b, hb⟩

/-- A term reads a block with the size that its cost function declares. -/
theorem WellFormed.size_of_source (he : e.WellFormed) (ht : t ∈ e.terms) {i : Nat}
    (hs : t.sources[i]? = some (.free k)) (hb : e.blocks[k]? = some b) :
    t.cost.sizes[i]? = some b.size := by
  obtain ⟨n, hn, hsource⟩ := exists_getElem?_of_forall₂ (he.sources t ht) hs
  obtain ⟨b', hb', rfl⟩ := hsource k rfl
  rw [hb] at hb'
  cases hb'
  exact hn

/-- The layout of an evaluator is a well-formed matrix. -/
theorem WellFormed.wellFormed_template (he : e.WellFormed) : e.template.WellFormed := by
  rw [he.template, templateOf]
  refine BlockMatrix.wellFormed_ofStructure fun row hrow k hk => ?_
  obtain ⟨t, ht, rfl⟩ := List.mem_map.mp hrow
  obtain ⟨b, hb⟩ := he.exists_block ht hk
  rw [List.length_map]
  exact (List.getElem?_eq_some_iff.mp hb).1

theorem WellFormed.getElem?_columns_template (he : e.WellFormed) (hb : e.blocks[k]? = some b) :
    e.template.columns[k]? = some ⟨b.localSize, b.deltaOffset⟩ := by
  rw [he.template]
  show (Block.layout (e.blocks.map FreeBlock.localSize))[k]? = _
  rw [getElem?_layout, List.getElem?_map, hb, he.place k b hb, List.map_take]
  rfl

theorem WellFormed.templateRow (he : e.WellFormed) {i : Nat} (ht : e.terms[i]? = some t) :
    ∃ cells, e.template.rows[i]? = some ⟨⟨t.cost.numResiduals,
        total ((e.terms.take i).map fun t => t.cost.numResiduals)⟩, cells⟩ ∧
      cells.map Cell.column = Ascending.ofList t.columns := by
  have hrow : (e.terms.map fun t => (t.cost.numResiduals, t.columns))[i]? =
      some (t.cost.numResiduals, t.columns) := by
    rw [List.getElem?_map, ht, Option.map_some]
  rw [he.template, templateOf, BlockMatrix.getElem?_rows_ofStructure hrow, ← List.map_take,
    List.map_map]
  refine ⟨_, rfl, ?_⟩
  rw [List.map_map]
  exact List.map_id _

theorem WellFormed.length_rows_template (he : e.WellFormed) :
    e.template.rows.length = e.terms.length := by
  have h := congrArg List.length (BlockMatrix.map_block_ofStructure (α := α)
    (e.blocks.map FreeBlock.localSize) (e.terms.map fun t => (t.cost.numResiduals, t.columns)))
  rw [List.length_map, length_layout, List.length_map, List.length_map] at h
  rw [he.template]
  exact h

theorem columns_fill (he : e.WellFormed) (tes : List (TermEvaluation α)) :
    (fill e.template tes).columns = Block.layout (e.blocks.map FreeBlock.localSize) := by
  rw [fill, he.template]
  rfl

/-- The cells that begin with a free block: its own, projected, and those of the
other blocks. -/
theorem cellsOf_free_eq_ok {l : List (BlockSource α × Mat α × Vec α)} {jacobian : Mat α}
    {values : Vec α} {cells : List (Cell α)} (hb : e.blocks[k]? = some b) :
    e.cellsOf ((.free k, jacobian, values) :: l) = .ok cells ↔
      ∃ m, b.project values jacobian = .ok m ∧
        ∃ rest, e.cellsOf l = .ok rest ∧ ⟨k, m⟩ :: rest = cells := by
  rw [cellsOf, hb]
  dsimp only
  cases b.project values jacobian with
  | error f => simp
  | ok m => simp only [except_map_eq_ok, Except.ok.injEq, exists_eq_left']

theorem cellsOf_spec {l : List (BlockSource α × Mat α × Vec α)} {cells : List (Cell α)}
    (h : e.cellsOf l = .ok cells)
    (hl : ∀ k, some k ∈ l.map (fun s => s.1.column?) → ∃ b, e.blocks[k]? = some b) :
    cells.map Cell.column = l.filterMap (fun s => s.1.column?) ∧
      ∀ k m v b, (.free k, m, v) ∈ l → e.blocks[k]? = some b →
        ∃ m', b.project v m = .ok m' ∧ ⟨k, m'⟩ ∈ cells := by
  induction l generalizing cells with
  | nil =>
      cases h
      exact ⟨rfl, nofun⟩
  | cons s l ih =>
      have hl' : ∀ k, some k ∈ l.map (fun s => s.1.column?) → ∃ b, e.blocks[k]? = some b :=
        fun k hk => hl k (List.mem_cons_of_mem _ hk)
      obtain ⟨s, m, v⟩ := s
      cases s with
      | constant values =>
          rw [cellsOf] at h
          obtain ⟨hcolumns, hcells⟩ := ih h hl'
          refine ⟨hcolumns, fun k m' v' b hmem => hcells k m' v' b ?_⟩
          rcases List.mem_cons.mp hmem with heq | hmem
          · cases heq
          · exact hmem
      | free k =>
          obtain ⟨b, hb⟩ := hl k (by simp [BlockSource.column?])
          obtain ⟨m', hm', rest, hrest, rfl⟩ := (cellsOf_free_eq_ok hb).mp h
          obtain ⟨hcolumns, hcells⟩ := ih hrest hl'
          refine ⟨?_, fun l' j v' b' hmem hb' => ?_⟩
          · rw [List.map_cons, hcolumns]
            rfl
          · rcases List.mem_cons.mp hmem with heq | hmem
            · cases heq
              rw [hb] at hb'
              cases hb'
              exact ⟨m', hm', by simp⟩
            · obtain ⟨m'', hproject, hm''⟩ := hcells l' j v' b' hmem hb'
              exact ⟨m'', hproject, List.mem_cons_of_mem _ hm''⟩

/-- Derivatives can be projected where blocks have their values. -/
theorem WellFormed.exists_project (he : e.WellFormed) (hb : b ∈ e.blocks) (x : Vec α)
    (jacobian : Mat α) : ∃ m, b.project (b.valuesIn x) jacobian = .ok m := by
  unfold FreeBlock.project
  cases hm : b.manifold with
  | none => exact ⟨jacobian, rfl⟩
  | some m =>
      obtain ⟨hambient, -⟩ := he.manifold b hb m hm
      have hsize : (b.valuesIn x).size = m.ambient := (Vec.size_slice _ _ _).trans hambient.symm
      obtain ⟨j, hj, -⟩ := m.plusJacobian_ok _ hsize
      exact ⟨jacobian.mul j, except_map_eq_ok.mpr ⟨j, hj, rfl⟩⟩

theorem WellFormed.exists_cellsOf (he : e.WellFormed) (x : Vec α)
    {l : List (BlockSource α × Mat α × Vec α)} (h : ∀ c ∈ l, c.2.2 = e.valuesOf x c.1) :
    ∃ cells, e.cellsOf l = .ok cells := by
  induction l with
  | nil => exact ⟨[], rfl⟩
  | cons c l ih =>
      obtain ⟨cells, hcells⟩ := ih fun c hc => h c (List.mem_cons_of_mem _ hc)
      have hc := h c (by simp)
      obtain ⟨s, jacobian, values⟩ := c
      cases s with
      | constant _ => exact ⟨cells, by rw [cellsOf, hcells]⟩
      | free k =>
          cases hb : e.blocks[k]? with
          | none => exact ⟨cells, by rw [cellsOf, hb, hcells]⟩
          | some b =>
              rw [show values = b.valuesIn x by rw [show values = _ from hc, valuesOf, hb]]
              obtain ⟨m, hm⟩ := he.exists_project (List.mem_of_getElem? hb) x jacobian
              exact ⟨_, (cellsOf_free_eq_ok hb).mpr ⟨m, hm, cells, hcells, rfl⟩⟩

/-- Derivatives can be projected at every state. -/
theorem WellFormed.exists_cells (he : e.WellFormed) (x : Vec α) (t : ResidualTerm α σ)
    (js : List (Mat α)) :
    ∃ cells, e.cellsOf (t.sources.zip (js.zip (e.pointOf x t))) = .ok cells := by
  refine he.exists_cellsOf x fun c hc => ?_
  obtain ⟨i, hi⟩ := List.mem_iff_getElem?.mp hc
  obtain ⟨hsource, hrest⟩ := List.getElem?_zip_eq_some.mp hi
  obtain ⟨-, hpoint⟩ := List.getElem?_zip_eq_some.mp hrest
  rw [pointOf, List.getElem?_map, hsource, Option.map_some] at hpoint
  exact (Option.some.inj hpoint).symm

/-- The cells of a term are the blocks that it reads, each with the projected
derivative. -/
theorem WellFormed.cellsOf_zip (he : e.WellFormed) (ht : t ∈ e.terms) {js : List (Mat α)}
    {cells : List (Cell α)} (hlen : t.sources.length ≤ js.length)
    (h : e.cellsOf (t.sources.zip (js.zip (e.pointOf x t))) = .ok cells) :
    cells.map Cell.column = t.columns ∧
      ∀ (i k : Nat) b j, t.sources[i]? = some (.free k) → e.blocks[k]? = some b →
        js[i]? = some j → ∃ m, b.project (b.valuesIn x) j = .ok m ∧ ⟨k, m⟩ ∈ cells := by
  have hlive : ∀ k, some k ∈ (t.sources.zip (js.zip (e.pointOf x t))).map
      (fun s => s.1.column?) → ∃ b, e.blocks[k]? = some b := by
    intro k hk
    obtain ⟨s, hs, hcolumn⟩ := List.mem_map.mp hk
    refine he.exists_block ht ?_
    rw [ResidualTerm.columns_eq]
    exact List.mem_filterMap.mpr ⟨s.1, (List.of_mem_zip hs).1, hcolumn⟩
  obtain ⟨hcolumns, hcells⟩ := cellsOf_spec h hlive
  refine ⟨?_, fun i k b j hi hb hj => ?_⟩
  · have hfst : (t.sources.zip (js.zip (e.pointOf x t))).map Prod.fst = t.sources := by
      refine List.map_fst_zip ?_
      rw [List.length_zip, pointOf, List.length_map]
      omega
    have hfilter := congrArg (List.filterMap BlockSource.column?) hfst
    rw [List.filterMap_map] at hfilter
    rw [hcolumns, ResidualTerm.columns_eq]
    exact hfilter
  · have hpoint : (e.pointOf x t)[i]? = some (b.valuesIn x) := by
      rw [pointOf, List.getElem?_map, hi, Option.map_some, valuesOf, hb]
    refine hcells k j _ b (List.mem_of_getElem? (i := i) ?_) hb
    exact List.getElem?_zip_eq_some.mpr ⟨hi, List.getElem?_zip_eq_some.mpr ⟨hj, hpoint⟩⟩

/-- A block that a term reads has a cell, with the projected derivative. -/
theorem WellFormed.exists_cell (he : e.WellFormed) (ht : t ∈ e.terms) {js : List (Mat α)} {n : Nat}
    {cells : List (Cell α)}
    (hshapes : List.Forall₂ (fun j size => j.rows = n ∧ j.cols = size) js t.cost.sizes)
    (h : e.cellsOf (t.sources.zip (js.zip (e.pointOf x t))) = .ok cells)
    (hb : e.blocks[k]? = some b) {i : Nat}
    (hi : t.sources.findIdx? (fun s => s.column? == some k) = some i) :
    ∃ j m, js[i]? = some j ∧ j.cols = b.size ∧ b.project (b.valuesIn x) j = .ok m ∧
      ⟨k, m⟩ ∈ cells ∧ m.rows = n ∧ m.cols = b.localSize := by
  have hfree := BlockSource.getElem?_of_findIdx? hi
  obtain ⟨j, hj, hrows, hcols⟩ :=
    exists_getElem?_of_forall₂ hshapes.flip (he.size_of_source ht hfree hb)
  have hlen : t.sources.length ≤ js.length := by
    rw [hshapes.length_eq, (he.sources t ht).length_eq]
  obtain ⟨m, hm, hmem⟩ := (he.cellsOf_zip ht hlen h).2 i k b j hfree hb hj
  have hshape := he.shape_project (List.mem_of_getElem? hb) hcols hm
  exact ⟨j, m, hj, hcols, hm, hmem, hshape.1.trans hrows, hshape.2⟩

/-- Cells that fit into the row of a term: one for every block that it reads, of
the shape of its place. -/
structure FitsRow (e : Evaluator α σ) (t : ResidualTerm α σ) (cells : List (Cell α)) : Prop where
  columns : cells.map Cell.column = t.columns
  shapes : ∀ c ∈ cells, ∃ b, e.blocks[c.column]? = some b ∧
    c.values.rows = t.cost.numResiduals ∧ c.values.cols = b.localSize

/-- The cells of a term fit into its row. -/
theorem WellFormed.fitsRow (he : e.WellFormed) (ht : t ∈ e.terms) {js : List (Mat α)}
    {cells : List (Cell α)} (hshapes : List.Forall₂
      (fun j size => j.rows = t.cost.numResiduals ∧ j.cols = size) js t.cost.sizes)
    (h : e.cellsOf (t.sources.zip (js.zip (e.pointOf x t))) = .ok cells) : e.FitsRow t cells := by
  have hlen : t.sources.length ≤ js.length := by
    rw [hshapes.length_eq, (he.sources t ht).length_eq]
  have hcolumns := (he.cellsOf_zip ht hlen h).1
  refine ⟨hcolumns, fun c hc => ?_⟩
  have hk : c.column ∈ t.columns := hcolumns ▸ List.mem_map_of_mem hc
  obtain ⟨b, hb⟩ := he.exists_block ht hk
  obtain ⟨i, hi⟩ := ResidualTerm.mem_columns_iff.mp hk
  obtain ⟨j, m, -, -, -, hm, hshape⟩ := he.exists_cell ht hshapes h hb hi
  -- a term reads a block once, so that its cell is the only one in the column
  have hsame : c = ⟨c.column, m⟩ :=
    List.inj_on_of_nodup_map (hcolumns.symm ▸ he.distinct t ht) hc hm rfl
  exact ⟨b, hb, hsame ▸ hshape⟩

omit [Scalar α] in
/-- A row of the Jacobian is the row that was laid out, with the cells of its
term. -/
theorem getElem?_rows_fill {template : BlockMatrix α} {tes : List (TermEvaluation α)} {i : Nat}
    {row : BlockRow α} {te : TermEvaluation α} (hrow : template.rows[i]? = some row)
    (hte : tes[i]? = some te) : (fill template tes).rows[i]? = some (row.setCells te.cells) := by
  rw [fill, List.getElem?_zipWith, hrow, hte]
  rfl

omit [Scalar α] in
theorem exists_of_mem_rows_fill {template : BlockMatrix α} {tes : List (TermEvaluation α)}
    {row : BlockRow α} (h : row ∈ (fill template tes).rows) :
    ∃ (i : Nat) (row' : BlockRow α) (te : TermEvaluation α), template.rows[i]? = some row' ∧
      tes[i]? = some te ∧ row = row'.setCells te.cells := by
  obtain ⟨i, hi⟩ := List.mem_iff_getElem?.mp h
  rw [fill, List.getElem?_zipWith_eq_some] at hi
  obtain ⟨row', te, hrow, hte, rfl⟩ := hi
  exact ⟨i, row', te, hrow, hte, rfl⟩

omit [Scalar α] in
theorem map_block_fill {template : BlockMatrix α} {tes : List (TermEvaluation α)}
    (hlen : tes.length = template.rows.length) :
    (fill template tes).rows.map BlockRow.block = template.rows.map BlockRow.block := by
  apply List.ext_getElem?
  intro i
  rw [List.getElem?_map, List.getElem?_map]
  cases hrow : template.rows[i]? with
  | none => rw [fill, List.getElem?_zipWith, hrow]
  | some row =>
      have hi := (List.getElem?_eq_some_iff.mp hrow).1
      obtain ⟨te, hte⟩ : ∃ te, tes[i]? = some te :=
        ⟨_, List.getElem?_eq_getElem (hlen.symm ▸ hi)⟩
      rw [getElem?_rows_fill hrow hte, Option.map_some, BlockRow.block_setCells, Option.map_some]

omit [Scalar α] in
/-- Cells that fit into a layout turn it into a well-formed matrix. -/
theorem wellFormed_fill {template : BlockMatrix α} {tes : List (TermEvaluation α)}
    (htemplate : template.WellFormed) (hlen : tes.length = template.rows.length)
    (hcells : ∀ (i : Nat) row te, template.rows[i]? = some row → tes[i]? = some te →
      ∀ c ∈ te.cells, ∃ b, template.columns[c.column]? = some b ∧
        c.values.rows = row.block.size ∧ c.values.cols = b.size) :
    (fill template tes).WellFormed where
  columns := htemplate.columns
  rows := by
    have hblocks := map_block_fill hlen
    have hsizes : (fill template tes).rows.map (fun row => row.block.size) =
        template.rows.map fun row => row.block.size := by
      have h := congrArg (List.map Block.size) hblocks
      rwa [List.map_map, List.map_map] at h
    rw [hblocks, hsizes]
    exact htemplate.rows
  ascending row hrow := by
    obtain ⟨i, row', te, hrow', -, rfl⟩ := exists_of_mem_rows_fill hrow
    rw [BlockRow.columns_setCells]
    exact htemplate.ascending row' (List.mem_of_getElem? hrow')
  shapes row hrow := by
    obtain ⟨i, row', te, hrow', hte, rfl⟩ := exists_of_mem_rows_fill hrow
    rw [BlockRow.block_setCells]
    exact BlockRow.forall_setCells (htemplate.shapes row' (List.mem_of_getElem? hrow'))
      (hcells i row' te hrow' hte)

section Filled

variable {tes : List (TermEvaluation α)}

/-- Cells that fit into their rows make a well-formed matrix. -/
theorem WellFormed.wellFormed_fill (he : e.WellFormed) (hlen : tes.length = e.terms.length)
    (hfits : ∀ (i : Nat) t te, e.terms[i]? = some t → tes[i]? = some te → e.FitsRow t te.cells) :
    (fill e.template tes).WellFormed := by
  refine Evaluator.wellFormed_fill he.wellFormed_template
    (hlen.trans he.length_rows_template.symm) fun i row te hrow hte c hc => ?_
  have hi := (List.getElem?_eq_some_iff.mp hte).1
  obtain ⟨t, ht⟩ : ∃ t, e.terms[i]? = some t := ⟨_, List.getElem?_eq_getElem (by omega)⟩
  obtain ⟨b, hb, hshape⟩ := (hfits i t te ht hte).shapes c hc
  obtain ⟨cells, hrow', -⟩ := he.templateRow ht
  rw [hrow] at hrow'
  cases hrow'
  exact ⟨_, he.getElem?_columns_template hb, hshape⟩

theorem WellFormed.numRows_fill (he : e.WellFormed) (hlen : tes.length = e.terms.length) :
    (fill e.template tes).numRows = e.numResiduals := by
  have hblocks := congrArg (List.map Block.size)
    (map_block_fill (hlen.trans he.length_rows_template.symm))
  rw [he.template, templateOf, BlockMatrix.map_block_ofStructure, map_size_layout, List.map_map,
    List.map_map, ← templateOf, ← he.template] at hblocks
  exact congrArg total hblocks

theorem WellFormed.numCols_fill (he : e.WellFormed) (tes : List (TermEvaluation α)) :
    (fill e.template tes).numCols = e.numEffectiveParameters := by
  rw [BlockMatrix.numCols, columns_fill he, map_size_layout]
  rfl

/-- The dense form has the entries of the cells of a term in its rows, and zeros
where the term has no cell. -/
theorem WellFormed.get_toDense_fill (he : e.WellFormed) (hlen : tes.length = e.terms.length)
    (hfits : ∀ (i : Nat) t te, e.terms[i]? = some t → tes[i]? = some te → e.FitsRow t te.cells)
    {i : Nat} {te : TermEvaluation α} (ht : e.terms[i]? = some t) (hte : tes[i]? = some te)
    (hb : e.blocks[k]? = some b) {m j : Nat} (hm : m < t.cost.numResiduals)
    (hj : j < b.localSize) :
    let entry := (fill e.template tes).toDense.get
      (total ((e.terms.take i).map fun t => t.cost.numResiduals) + m) (b.deltaOffset + j)
    (∀ d, ⟨k, d⟩ ∈ te.cells → entry = d.get m j) ∧ (k ∉ t.columns → entry = 0) := by
  intro entry
  obtain ⟨cells, hrow, hcells⟩ := he.templateRow ht
  have hcolumns := (hfits i t te ht hte).columns
  have hblock := BlockRow.block_setCells (⟨⟨t.cost.numResiduals,
    total ((e.terms.take i).map fun t => t.cost.numResiduals)⟩, cells⟩ : BlockRow α) te.cells
  have hentry := (he.wellFormed_fill hlen hfits).get_toDense (k := k) (i := m) (j := j)
    (getElem?_rows_fill hrow hte) (by rw [hblock]; exact hm) (he.getElem?_columns_template hb) hj
  rw [hblock] at hentry
  refine ⟨fun d hd => ?_, fun hk => ?_⟩
  · have hk : k ∈ t.columns := hcolumns ▸ List.mem_map_of_mem (f := Cell.column) hd
    refine hentry.trans (BlockRow.entry_of_cell? (BlockRow.cell?_setCells ?_ hd ?_))
    · exact hcolumns ▸ he.distinct t (List.mem_of_getElem? ht)
    · rw [hcells]
      exact Ascending.mem_ofList.mpr hk
  · refine hentry.trans (BlockRow.entry_of_none ?_)
    rw [BlockRow.cell?_setCells_of_not_mem (hcolumns ▸ hk), BlockRow.cell?_eq_none_iff, hcells]
    exact fun hmem => hk (Ascending.mem_ofList.mp hmem)

end Filled

end Evaluator

end LeastSquares
