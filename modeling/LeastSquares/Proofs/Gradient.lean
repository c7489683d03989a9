import LeastSquares.Proofs.Contributions
import LeastSquares.Proofs.Corrector

/-!
# Gradients

What an evaluator calls the gradient is the transposed Jacobian times the
residuals, both corrected for the losses and the Jacobian taken along the
manifolds. The corrections cancel: by each block it is the sum, over the
residual blocks that read it, of the slope of the loss times the transposed
derivative times the residuals, all as the cost functions gave them.

## Main definitions

* `ResidualTerm.gradientBy` — the gradient of one term by a block.

## Main results

* `Evaluator.WellFormed.get_gradient` — the gradient that an evaluation finds.
-/

namespace LeastSquares

open Finset (range)

variable {σ : Type}

/-! ## Derivatives along the tangent space -/

namespace FreeBlock

variable {b : FreeBlock ℝ} {values : Vec ℝ} {jacobian m p : Mat ℝ}

/-- Projecting a derivative projects the gradient. -/
theorem tMulVec_project (hp : b.tangentMap values = .ok p) (hrows : p.rows = b.size)
    (hcols : jacobian.cols = b.size) (hm : b.project values jacobian = .ok m) (r : Vec ℝ) :
    m.tMulVec r = p.tMulVec (jacobian.tMulVec r) := by
  unfold tangentMap at hp
  unfold project at hm
  cases hmanifold : b.manifold with
  | none =>
      rw [hmanifold] at hp hm
      cases hp
      cases hm
      exact (Mat.tMulVec_identity ((Mat.size_tMulVec _ _).trans hcols)).symm
  | some manifold =>
      rw [hmanifold] at hp hm
      dsimp only at hp hm
      rw [hp] at hm
      cases hm
      exact Mat.tMulVec_mul (hrows.trans hcols.symm)

end FreeBlock

/-! ## Terms -/

/-- The gradient of a term by a free block, none if the term does not read
it: the slope of the loss times the transposed derivative times the
residuals, as the cost function gave them. -/
noncomputable def ResidualTerm.gradientBy (t : ResidualTerm ℝ σ) (o : CostOutput ℝ) (k : Nat)
    (p : Mat ℝ) : Option (Vec ℝ) :=
  (t.sources.findIdx? fun s => s.column? == some k).map fun i =>
    (p.tMulVec (((o.jacobians.getD []).getD i default).tMulVec o.residuals)).scale
      (slopeOf t.loss o.residuals)

namespace Evaluator

variable {e : Evaluator ℝ σ} {x : Vec ℝ} {t : ResidualTerm ℝ σ} {o : CostOutput ℝ}
  {te : TermEvaluation ℝ} {k : Nat} {b : FreeBlock ℝ} {p : Mat ℝ}

/-- A block that a term reads has a Jacobian, with a row for every residual and
a column for every value of the block. -/
theorem Yields.jacobian (h : e.Yields x true t o te) (he : e.WellFormed) (ht : t ∈ e.terms)
    (hb : e.blocks[k]? = some b) {i : Nat}
    (hi : t.sources.findIdx? (fun s => s.column? == some k) = some i) :
    ∃ js j, o.jacobians = some js ∧ js[i]? = some j ∧ j.HasShape o.residuals.size b.size := by
  obtain ⟨js, hjs, hshapes⟩ := h.accepts.jacobians rfl
  obtain ⟨j, hj, ⟨hrows, hcols⟩, -⟩ := exists_getElem?_of_forall₂ hshapes.flip
    (he.size_of_source ht (BlockSource.getElem?_of_findIdx? hi) hb)
  exact ⟨js, j, hjs, hj, hrows.trans h.accepts.size.symm, hcols⟩

/-- A block that a term reads has a cell, and the transposed cell times the corrected
residuals is the gradient of the term by the block. -/
theorem Yields.exists_cell (h : e.Yields x true t o te) (he : e.WellFormed) (ht : t ∈ e.terms)
    (hb : e.blocks[k]? = some b) (hp : b.tangentMap (b.valuesIn x) = .ok p) (hk : k ∈ t.columns) :
    ∃ m, ⟨k, m⟩ ∈ te.cells ∧ (0 < slopeOf t.loss o.residuals →
      t.gradientBy o k p = some (m.tMulVec te.residuals)) := by
  obtain ⟨i, hi⟩ := ResidualTerm.mem_columns_iff.mp hk
  obtain ⟨js, j, hjs, hj, hshape⟩ := h.jacobian he ht hb hi
  obtain ⟨j', m, hj', hcols, hm, hmem, -⟩ := he.exists_cell ht h.shapes h.cells hb hi
  have hcorrects := (ResidualEvaluation.corrected_spec t.loss o.residuals (o.jacobians.getD [])).2
  rw [hjs, Option.getD_some] at hj' hcorrects
  rw [ResidualEvaluation.corrected_fst] at hcorrects
  obtain ⟨j'', hj'', hcorrect⟩ := exists_getElem?_of_forall₂ hcorrects hj
  rw [hj'] at hj''
  cases hj''
  obtain ⟨p', hp', hrows, -⟩ := he.tangentMap (List.mem_of_getElem? hb) x
  rw [hp] at hp'
  cases hp'
  refine ⟨m, hmem, fun hslope => ?_⟩
  rw [ResidualTerm.gradientBy, hi, Option.map_some, hjs, Option.getD_some,
    List.getD_eq_getElem?_getD, hj, Option.getD_some, FreeBlock.tMulVec_project hp hrows hcols hm,
    h.residuals, if_pos rfl, hcorrect.gradient hshape.1 hslope, Mat.tMulVec_scale]

theorem gradientBy_eq_none (h : k ∉ t.columns) : t.gradientBy o k p = none := by
  rw [ResidualTerm.gradientBy, Option.map_eq_none_iff, ← Option.not_isSome_iff_eq_none,
    Option.isSome_iff_exists]
  exact fun hi => h (ResidualTerm.mem_columns_iff.mpr hi)

/-! ## The whole gradient -/

/-- What the row of a term contributes to the gradient by a block is the
gradient of the term. -/
theorem Yields.leftPart (h : e.Yields x true t o te) (he : e.WellFormed) (ht : t ∈ e.terms)
    {row : BlockRow ℝ} {y : Vec ℝ} (hrow : row.cells.map Cell.column = Ascending.ofList t.columns)
    (hslice : y.slice row.block.position row.block.size = te.residuals)
    (hb : e.blocks[k]? = some b) (hp : b.tangentMap (b.valuesIn x) = .ok p)
    (hslope : k ∈ t.columns → 0 < slopeOf t.loss o.residuals) :
    BlockMatrix.leftPart y k (row.setCells te.cells) = t.gradientBy o k p := by
  have hcolumns := (h.fitsRow he ht).columns
  rw [BlockMatrix.leftPart, BlockRow.block_setCells, hslice]
  by_cases hk : k ∈ t.columns
  · obtain ⟨m, hm, hgradient⟩ := h.exists_cell he ht hb hp hk
    have hn : (te.cells.map Cell.column).Nodup := hcolumns ▸ he.distinct t ht
    rw [hgradient (hslope hk), BlockRow.cell?_setCells hn hm, Option.map_some]
    rw [hrow]
    exact Ascending.mem_ofList.mpr hk
  · have hnone : row.cell? k = none := by
      rw [BlockRow.cell?_eq_none_iff, hrow]
      exact fun hmem => hk (Ascending.mem_ofList.mp hmem)
    rw [gradientBy_eq_none hk, BlockRow.cell?_setCells_of_not_mem (hcolumns ▸ hk), hnone]
    rfl

/-- The rows of the Jacobian contribute the gradients of the terms. -/
theorem WellFormed.leftPart_fill (he : e.WellFormed) {outs : List (CostOutput ℝ)}
    {tes : List (TermEvaluation ℝ)} (hyields : e.YieldsAll x true outs tes)
    (hb : e.blocks[k]? = some b) (hp : b.tangentMap (b.valuesIn x) = .ok p)
    (hslope : ∀ t o, (t, o) ∈ e.terms.zip outs → k ∈ t.columns →
      0 < slopeOf t.loss o.residuals) :
    (fill e.template tes).rows.map
        (BlockMatrix.leftPart (Vec.concat (tes.map TermEvaluation.residuals)) k) =
      (e.terms.zip outs).map fun c => c.1.gradientBy c.2 k p := by
  have hlen := hyields.length
  have hlen' := hyields.length_right
  apply List.ext_getElem?
  intro i
  cases ht : e.terms[i]? with
  | none =>
      have hle := List.getElem?_eq_none_iff.mp ht
      rw [List.getElem?_eq_none, List.getElem?_eq_none]
      · rw [List.length_map, List.length_zip]
        omega
      · rw [List.length_map, fill, List.length_zipWith]
        omega
  | some t =>
      obtain ⟨o, te, ho, hte, hy⟩ := hyields.exists_yields ht
      obtain ⟨cells, hrow, hrowColumns⟩ := he.templateRow ht
      have hslice := hyields.slice_residuals ht hte
      have hzip : (e.terms.zip outs)[i]? = some (t, o) := List.getElem?_zip_eq_some.mpr ⟨ht, ho⟩
      rw [List.getElem?_map, getElem?_rows_fill hrow hte, List.getElem?_map, hzip,
        Option.map_some, Option.map_some]
      exact congrArg some (hy.leftPart he (List.mem_of_getElem? ht) hrowColumns hslice hb hp
        (hslope t o (List.mem_of_getElem? hzip)))

theorem sum_costs (cost : ℝ) (tes : List (TermEvaluation ℝ)) :
    tes.foldl (fun cost te => cost + te.cost) cost = cost + (tes.map TermEvaluation.cost).sum := by
  induction tes generalizing cost with
  | nil => exact (add_zero cost).symm
  | cons te tes ih =>
      rw [List.foldl_cons, ih, List.map_cons, List.sum_cons, real_add, add_assoc]

/-- Every cost is finite. -/
theorem assemble_real (tes : List (TermEvaluation ℝ)) :
    let residuals := Vec.concat (tes.map TermEvaluation.residuals)
    e.assemble true tes = some ⟨(tes.map TermEvaluation.cost).sum, residuals,
      some ((fill e.template tes).leftMultiply residuals), some (fill e.template tes)⟩ := by
  rw [assemble, if_pos (real_isFinite _), if_pos rfl, sum_costs, real_zero, zero_add]

/-- The cost is the sum of the costs of the terms, and the gradient by a block
the sum of their gradients. -/
theorem WellFormed.get_gradient (he : e.WellFormed) {ev : Evaluation ℝ} {s s' : Tally σ}
    (h : e.evaluate x true s = .ok (some ev) s') :
    ∃ outs grad, e.outputs x true s = .ok (outs.map some) s' ∧ outs.length = e.terms.length ∧
      ev.cost = ((e.terms.zip outs).map fun c =>
        ResidualEvaluation.costOf c.1.loss c.2.residuals).sum ∧
      (∀ t o, (t, o) ∈ e.terms.zip outs → ∀ k b i, e.blocks[k]? = some b →
        t.sources.findIdx? (fun s => s.column? == some k) = some i →
        ((o.jacobians.getD []).getD i default).HasShape o.residuals.size b.size) ∧
      ev.gradient = some grad ∧ grad.size = e.numEffectiveParameters ∧
      ∀ k b p, e.blocks[k]? = some b → b.tangentMap (b.valuesIn x) = .ok p →
        (∀ t o, (t, o) ∈ e.terms.zip outs → k ∈ t.columns → 0 < slopeOf t.loss o.residuals) →
        ∀ j < b.localSize, grad.get (b.deltaOffset + j) =
          ((e.terms.zip outs).map fun c => (c.1.gradientBy c.2 k p).elim 0 (Vec.get · j)).sum := by
  obtain ⟨hsize, outs, tes, houtputs, hassemble, hyields⟩ := exists_outputs h
  rw [assemble_real] at hassemble
  cases hassemble
  have hcolumns := columns_fill he tes
  refine ⟨outs, _, houtputs, hyields.length, ?_, ?_, rfl, ?_, fun k b p hb hp hslope j hj => ?_⟩
  · rw [← hyields.map_cost]
  · intro t o hmem k b i hb hi
    obtain ⟨n, hn⟩ := List.mem_iff_getElem?.mp hmem
    obtain ⟨ht, ho⟩ := List.getElem?_zip_eq_some.mp hn
    obtain ⟨o', te, ho', -, hy⟩ := hyields.exists_yields ht
    rw [ho] at ho'
    cases ho'
    obtain ⟨js, j, hjs, hj, hshape⟩ := hy.jacobian he (List.mem_of_getElem? ht) hb hi
    rwa [hjs, Option.getD_some, List.getD_eq_getElem?_getD, hj, Option.getD_some]
  · rw [BlockMatrix.size_leftMultiply, BlockMatrix.numCols, hcolumns, map_size_layout]
    rfl
  · have hcolumn : (fill e.template tes).columns[k]? = some ⟨b.localSize, b.deltaOffset⟩ :=
      he.getElem?_columns_template hb
    have hplace : b.deltaOffset =
        total (((fill e.template tes).columns.take k).map Block.size) := by
      rw [List.map_take, hcolumns, map_size_layout, he.place k b hb, List.map_take]
    have hparts := congrArg (List.map fun part : Option (Vec ℝ) => part.elim 0 (Vec.get · j))
      (he.leftPart_fill hyields hb hp hslope)
    rw [List.map_map, List.map_map] at hparts
    rw [hplace, BlockMatrix.get_leftMultiply_parts hcolumn hj]
    exact congrArg List.sum hparts

end Evaluator

end LeastSquares
