import LeastSquares.Proofs.Contributions

/-!
# Evaluations as stacks of contributions

An evaluation puts the contributions of its terms one below the other. Residuals are
those of the terms in order; a row of the dense Jacobian has the entries of one term's
cells and zeros elsewhere; and in the gradient every cell is met once, by the residuals
of its own term. Where a term comes to stand, and what the layout of the Jacobian held
before, cannot be told from the result.

So rows may be picked term by term: the rows of some of the terms hold what these terms
contribute, in the order of the terms.

## Main definitions

* `chosenRows` — the rows of some blocks out of a stack.
* `TermEvaluation.denseRow`, `TermEvaluation.addGradient` — what a term puts into a row of the
  Jacobian, and into a part of the gradient.

## Main results

* `map_chosenRows` — what chosen rows hold.
* `Evaluator.WellFormed.toDense_fill`, `Evaluator.WellFormed.leftMultiply_fill` — Jacobian and
  gradient from the contributions alone.
-/

namespace LeastSquares

variable {α σ : Type}

/-! ## Rows of some blocks -/

/-- The rows of the blocks that are flagged, of blocks that lie one after the other. -/
def chosenRows (sizes : List Nat) (flags : List Bool) : List Nat :=
  (((Block.layout sizes).zip flags).filter Prod.snd).flatMap fun c =>
    List.range' c.1.position c.1.size

/-- What the chosen rows hold, read off block by block. -/
theorem map_chosenRows {β γ : Type} {l : List β} {size : β → Nat} {p : β → Bool} {g : Nat → γ}
    {f : β → List γ}
    (h : ∀ (i : Nat) b, l[i]? = some b → p b = true →
      (List.range' (total ((l.take i).map size)) (size b)).map g = f b) :
    (chosenRows (l.map size) (l.map p)).map g = (l.filter p).flatMap f := by
  have hlen : l.length ≤ (Block.layout (l.map size)).length := by
    rw [length_layout, List.length_map]
  have hfilter : (((Block.layout (l.map size)).zip l).filter (p ∘ Prod.snd)).map Prod.snd =
      l.filter p := by
    rw [← List.filter_map, List.map_snd_zip hlen]
  rw [chosenRows, List.zip_map_right, List.filter_map, List.flatMap_map, List.map_flatMap,
    ← hfilter, List.flatMap_map]
  refine List.flatMap_congr fun c hc => ?_
  obtain ⟨hzip, hp⟩ := List.mem_filter.mp hc
  obtain ⟨i, hi⟩ := List.mem_iff_getElem?.mp hzip
  obtain ⟨hblock, hb⟩ := List.getElem?_zip_eq_some.mp hi
  rw [getElem?_layout, List.getElem?_map, hb, ← List.map_take] at hblock
  exact (congrArg (fun b : Block => (List.range' b.position b.size).map g)
    (Option.some.inj hblock).symm).trans (h i c.2 hb hp)

/-! ## What a term puts into rows and parts -/

/-- A row of a dense matrix, from the cells in its column blocks and the sizes of these. -/
def denseRow [Scalar α] (cell? : Nat → Option (Mat α)) (sizes : List Nat) (i : Nat) : Vec α :=
  Vec.concat <| sizes.mapIdx fun k n =>
    match cell? k with
    | some values => Vec.ofFn n fun j => values.get i j
    | none => Vec.zeros n

/-- What depends on the sizes of blocks alone. -/
theorem mapIdx_size {β : Type} (blocks : List Block) (f : Nat → Nat → β) :
    blocks.mapIdx (fun k b => f k b.size) = (blocks.map Block.size).mapIdx f := by
  apply List.ext_getElem?
  intro k
  simp [Function.comp_def]

theorem BlockMatrix.toDense_eq [Scalar α] (a : BlockMatrix α) : a.toDense =
    ⟨a.numRows, a.numCols, (a.rows.flatMap fun row => (List.range row.block.size).map fun i =>
      (denseRow row.cell? (a.columns.map Block.size) i).entries).toArray⟩ := by
  simp only [denseRow, ← mapIdx_size]
  rfl

namespace TermEvaluation

variable {te : TermEvaluation α} {k : Nat} {m : Mat α}

/-- The cell in a column block. -/
def cell? (te : TermEvaluation α) (k : Nat) : Option (Mat α) :=
  (te.cells.find? fun c => c.column == k).map Cell.values

/-- The cells as those of a row, wherever it stands. -/
theorem cell?_eq (te : TermEvaluation α) (block : Block) :
    te.cell? = (⟨block, te.cells⟩ : BlockRow α).cell? := rfl

theorem mem_of_cell? (h : te.cell? k = some m) : ⟨k, m⟩ ∈ te.cells := by
  rw [te.cell?_eq default] at h
  exact BlockRow.mem_of_cell? h

theorem cell?_eq_none_iff : te.cell? k = none ↔ k ∉ te.cells.map Cell.column := by
  rw [te.cell?_eq default]
  exact BlockRow.cell?_eq_none_iff

variable [Scalar α]

/-- The part of the gradient in a column block, with the term added. -/
def addGradient (k : Nat) (acc : Vec α) (te : TermEvaluation α) : Vec α :=
  match te.cell? k with
  | some values => acc + values.tMulVec te.residuals
  | none => acc

theorem size_foldl_addGradient (tes : List (TermEvaluation α)) (k : Nat) (acc : Vec α) :
    (tes.foldl (addGradient k) acc).size = acc.size := by
  induction tes generalizing acc with
  | nil => rfl
  | cons te tes ih =>
      rw [List.foldl_cons, ih, addGradient]
      split <;> simp

end TermEvaluation

namespace Evaluator

variable [Scalar α] {e : Evaluator α σ} {x : Vec α} {outs : List (CostOutput α)}
  {tes : List (TermEvaluation α)} (he : e.WellFormed) (h : e.YieldsAll x true outs tes)

include he h

/-- A row block of the Jacobian stands where the residuals of its term stand, and has the cells
of the term. -/
theorem WellFormed.rows_fill : List.Forall₂
    (fun te row => row.block.size = te.residuals.size ∧
      (Vec.concat (tes.map TermEvaluation.residuals)).slice row.block.position row.block.size =
        te.residuals ∧ row.cell? = te.cell?) tes (fill e.template tes).rows := by
  have hlen : tes.length = (fill e.template tes).rows.length := by
    rw [fill, List.length_zipWith, he.length_rows_template, h.length_right, Nat.min_self]
  refine List.forall₂_iff_zip.mpr ⟨hlen, fun {te row} hmem => ?_⟩
  obtain ⟨i, hi⟩ := List.mem_iff_getElem?.mp hmem
  obtain ⟨hte : tes[i]? = some te, hrow : (fill e.template tes).rows[i]? = some row⟩ :=
    List.getElem?_zip_eq_some.mp hi
  have hlt : i < e.terms.length := h.length_right ▸ (List.getElem?_eq_some_iff.mp hte).1
  have ht := List.getElem?_eq_getElem hlt
  obtain ⟨o, -, hy⟩ := h.yields ht hte
  obtain ⟨cells, hlaid, hcells⟩ := he.templateRow ht
  rw [getElem?_rows_fill hlaid hte] at hrow
  cases hrow
  rw [BlockRow.block_setCells]
  refine ⟨hy.size_residuals.symm, h.slice_residuals ht hte, funext fun k => ?_⟩
  have hfits := h.fitsRow he i _ te ht hte
  cases hk : te.cell? k with
  | some m =>
      have hm := TermEvaluation.mem_of_cell? hk
      refine BlockRow.cell?_setCells (hfits.columns ▸ he.distinct _ (List.mem_of_getElem? ht)) hm ?_
      rw [hcells, Ascending.mem_ofList, ← hfits.columns]
      exact List.mem_map_of_mem hm
  | none =>
      rw [TermEvaluation.cell?_eq_none_iff] at hk
      rwa [BlockRow.cell?_setCells_of_not_mem hk, BlockRow.cell?_eq_none_iff, hcells,
        Ascending.mem_ofList, ← hfits.columns]

/-- The dense Jacobian has the rows of the terms, one term after the other. -/
theorem WellFormed.toDense_fill : (fill e.template tes).toDense =
    ⟨total (tes.map fun te => te.residuals.size), total e.localSizes,
      (tes.flatMap fun te => (List.range te.residuals.size).map fun i =>
        (denseRow te.cell? e.localSizes i).entries).toArray⟩ := by
  have hrows := he.rows_fill h
  have hnumRows : (fill e.template tes).numRows = total (tes.map fun te => te.residuals.size) :=
    congrArg total (map_eq_map_of_forall₂ hrows fun te row hrow => hrow.1.symm).symm
  have hdata : tes.map (fun te => (List.range te.residuals.size).map fun i =>
        (denseRow te.cell? e.localSizes i).entries) =
      (fill e.template tes).rows.map (fun row => (List.range row.block.size).map fun i =>
        (denseRow row.cell? e.localSizes i).entries) :=
    map_eq_map_of_forall₂ hrows fun te row hrow => by rw [hrow.1, hrow.2.2]
  rw [BlockMatrix.toDense_eq, hnumRows, he.numCols_fill, columns_fill he, map_size_layout,
    List.flatMap_def, List.flatMap_def, hdata]
  rfl

/-- The gradient has a part for every column block, to which the terms are added in order. -/
theorem WellFormed.leftMultiply_fill :
    (fill e.template tes).leftMultiply (Vec.concat (tes.map TermEvaluation.residuals)) =
      Vec.concat (e.localSizes.mapIdx fun k n =>
        tes.foldl (TermEvaluation.addGradient k) (Vec.zeros n)) := by
  have hpart : ∀ k acc, (fill e.template tes).rows.foldl (fun acc row =>
      match row.cell? k with
      | some values => acc + values.tMulVec
          ((Vec.concat (tes.map TermEvaluation.residuals)).slice row.block.position row.block.size)
      | none => acc) acc = tes.foldl (TermEvaluation.addGradient k) acc := by
    intro k acc
    refine (List.rel_foldl (P := Eq) ?_ rfl (he.rows_fill h)).symm
    rintro acc _ rfl te row ⟨-, hslice, hcell⟩
    dsimp only
    rw [TermEvaluation.addGradient, hcell, hslice]
  have hcolumns := map_size_layout e.localSizes
  rw [localSizes, ← columns_fill he tes] at hcolumns
  rw [localSizes, ← hcolumns, ← mapIdx_size]
  simp only [← hpart]
  rfl

/-- The part of the gradient that belongs to a block. -/
theorem WellFormed.slice_leftMultiply_fill {b : FreeBlock α} {k : Nat}
    (hb : e.blocks[k]? = some b) :
    ((fill e.template tes).leftMultiply (Vec.concat (tes.map TermEvaluation.residuals))).slice
        b.deltaOffset b.localSize =
      tes.foldl (TermEvaluation.addGradient k) (Vec.zeros b.localSize) := by
  have hsize : ∀ l n, (tes.foldl (TermEvaluation.addGradient l) (Vec.zeros n)).size = n := by
    intro l n
    rw [TermEvaluation.size_foldl_addGradient, Vec.size_zeros]
  have hpart : (e.localSizes.mapIdx fun k n =>
      tes.foldl (TermEvaluation.addGradient k) (Vec.zeros n))[k]? =
        some (tes.foldl (TermEvaluation.addGradient k) (Vec.zeros b.localSize)) := by
    simp [localSizes, hb]
  have hslice := Vec.slice_concat hpart
  rw [hsize, List.map_take, Vec.map_size_mapIdx (n := id) fun l n _ => hsize l n, List.map_id,
    localSizes, ← List.map_take, ← he.place k b hb] at hslice
  rw [he.leftMultiply_fill h]
  exact hslice

end Evaluator

end LeastSquares
