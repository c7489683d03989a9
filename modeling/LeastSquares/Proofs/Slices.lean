import LeastSquares.Proofs.Coherent
import LeastSquares.Proofs.GradientCheck
import LeastSquares.Proofs.Stacked

/-!
# One block of an evaluation

An evaluator in which only one block moves evaluates a part of the whole problem. Of an
evaluation of everything, at the state in which the block has its new values, it finds
the rows of the terms that read the block, in their order, and of these rows the columns
of the block; its gradient is the part of the gradient that belongs to the block. The
cost that it leaves out is that of the other terms, which do not see the block.

The restricted evaluator asks the cost functions a second time, so that what they answer
has to depend on the question alone. And it adds up fewer costs. With rounding these may
overflow although the whole sum does not, if costs that were left out are negative; in
exact arithmetic every sum of costs is finite.

## Main definitions

* `Problem.Answers` — answers depend on the question alone.
* `Evaluator.Contributes` — what a term contributes, whatever was called before.
* `Evaluator.Slice` — an evaluation that is part of another.
* `Scalar.Exact` — sums that do not round.

## Main results

* `Evaluator.forall₂_contributes_restrictTo` — the contributions of a restricted evaluator.
* `Evaluator.evaluate_restrictTo_slice` — what a restricted evaluator finds.
-/

namespace LeastSquares

variable {α σ : Type} [Scalar α]

/-! ## Answers that come again -/

/-- A call with its check that has returned once returns the same from everywhere. -/
theorem CostFunction.Answers.again {f : CostFunction α σ}
    {answer : List (Vec α) → Bool → Option (CostOutput α)} (hf : f.Answers answer)
    {check : Option (GradientCheck α)} {point : List (Vec α)} {wantJacobians : Bool}
    {r : Option (CostOutput α)} {s s' : Tally σ}
    (h : f.evaluateChecked check point wantJacobians s = .ok r s') (t : Tally σ) :
    ∃ t', f.evaluateChecked check point wantJacobians t = .ok r t' := by
  have hreturns : ∃ r' t', f.evaluateChecked check point wantJacobians t = .ok r' t' := by
    cases check with
    | none => exact ⟨_, _, rfl⟩
    | some c => exact hf.evaluateChecked_iff.mpr (hf.evaluateChecked_iff.mp ⟨r, s', h⟩)
  obtain ⟨r', t', hr'⟩ := hreturns
  refine ⟨t', ?_⟩
  rw [hr', returns_evaluateChecked r' t' hr', returns_evaluateChecked r s' h, hf, hf]

/-- What the cost functions of the problem answer depends on the question alone. -/
def Problem.Answers (p : Problem α σ) : Prop :=
  ∀ i r, p.residual? i = some r → ∃ answer, r.cost.Answers answer

namespace Evaluator

variable {e : Evaluator α σ} {x v : Vec α} {t : ResidualTerm α σ} {te : TermEvaluation α}
  {tes : List (TermEvaluation α)} {b : FreeBlock α} {k : Nat}

/-- What a term contributes at a state together with a Jacobian, whatever was called before. -/
def Contributes (e : Evaluator α σ) (x : Vec α) (t : ResidualTerm α σ) (te : TermEvaluation α) :
    Prop :=
  ∃ o, (∀ s, ∃ s', t.cost.evaluateChecked e.check (e.pointOf x t) true s = .ok (some o) s') ∧
    e.Yields x true t o te

/-- An evaluation with a Jacobian adds up contributions that would come again. -/
theorem exists_contributions (hanswers : ∀ t ∈ e.terms, ∃ answer, t.cost.Answers answer)
    {ev : Evaluation α} {s s' : Tally σ} (h : e.evaluate x true s = .ok (some ev) s') :
    ∃ tes, List.Forall₂ (e.Contributes x) e.terms tes ∧ e.assemble true tes = some ev := by
  obtain ⟨-, outs, tes, houtputs, hassemble, hyields⟩ := exists_outputs h
  have hsteps : Returns (e.outputs x true) s fun answers _ => List.Forall₂
      (fun t answer => ∀ u, ∃ u', t.cost.evaluateChecked e.check (e.pointOf x t) true u =
        .ok answer u') e.terms answers ∧ True := by
    apply Returns.mapM (I := fun _ => True) _ trivial
    intro t ht u _ answer u' hanswer
    obtain ⟨f, hf⟩ := hanswers t ht
    exact ⟨hf.again hanswer, trivial⟩
  have hagain := (hsteps _ _ houtputs).1
  rw [List.forall₂_map_right_iff] at hagain
  exact ⟨tes, forall₂_of_forall₂_zip hagain hyields.forall₂, hassemble⟩

/-- Contributions of all terms rest on answers. -/
theorem exists_yieldsAll (h : List.Forall₂ (e.Contributes x) e.terms tes) :
    ∃ outs, e.YieldsAll x true outs tes := by
  obtain ⟨outs, hlen, hall⟩ := exists_forall₂_zip (R := e.Yields x true)
    (h.imp fun _ _ hc => hc.imp fun _ ho => ho.2)
  exact ⟨outs, hlen, hall⟩

theorem Contributes.fitsRow (h : e.Contributes x t te) (he : e.WellFormed) (ht : t ∈ e.terms) :
    e.FitsRow t te.cells := by
  obtain ⟨o, -, hy⟩ := h
  exact hy.fitsRow he ht

/-- An evaluation comes to what the contributions of all terms add up to. -/
theorem WellFormed.exists_evaluate (he : e.WellFormed) (hx : x.size = e.numParameters)
    (h : List.Forall₂ (e.Contributes x) e.terms tes) (s : Tally σ) :
    ∃ s', e.evaluate x true s = .ok (e.assemble true tes) s' := by
  have hterms : List.Forall₂ (fun t te => ∀ s, ∃ s', e.evaluateTerm x true t s = .ok te s')
      e.terms (tes.map some) := by
    rw [List.forall₂_map_right_iff]
    apply h.imp
    intro t te ⟨o, hcall, hy⟩ s
    obtain ⟨s', hs'⟩ := hcall s
    use s'
    rw [he.evaluateTerm_eq, eStateM_bind_apply, hs']
    simp only [Option.bind_some, contribution?_eq_some_iff.mpr hy]
    rfl
  obtain ⟨s', hs'⟩ := exists_mapM_of_forall₂ hterms s
  use s'
  rw [evaluate, if_neg (not_not.mpr hx), eStateM_bind_apply, hs']
  simp only [mapM_id_eq_some_iff.mpr rfl]
  rfl

/-! ## Contributions of a restricted evaluator -/

/-- A term in the evaluator in which only the block of one column moves. -/
def restrictTerm (e : Evaluator α σ) (k : Nat) (x : Vec α) (t : ResidualTerm α σ) :
    ResidualTerm α σ :=
  { t with sources := t.sources.map (e.restrictSource k x) }

end Evaluator

namespace TermEvaluation

omit [Scalar α]

/-- Whether the term has a cell in a column block. -/
def reads (te : TermEvaluation α) (k : Nat) : Bool := (te.cell? k).isSome

/-- The contribution with its cell in one column block as the only one. -/
def only (te : TermEvaluation α) (k : Nat) : TermEvaluation α :=
  { te with cells := (te.cells.filter fun c => c.column == k).map fun c => ⟨0, c.values⟩ }

theorem cell?_only (te : TermEvaluation α) (k : Nat) : (te.only k).cell? 0 = te.cell? k := by
  rw [cell?, only, cell?, ← List.head?_filter, ← List.head?_filter]
  cases te.cells.filter fun c => c.column == k with
  | nil => rfl
  | cons c cells => rfl

end TermEvaluation

namespace Evaluator

variable {e : Evaluator α σ} {x v : Vec α} {t : ResidualTerm α σ} {te : TermEvaluation α}
  {tes : List (TermEvaluation α)} {b : FreeBlock α} {k : Nat}

/-- The contributions of the terms that read a block, as those of a restricted evaluator. -/
def parts (k : Nat) (tes : List (TermEvaluation α)) : List (TermEvaluation α) :=
  (tes.filter fun te => te.reads k).map fun te => te.only k

/-- Only terms that read a block add to its part of the gradient. -/
theorem foldl_addGradient_parts (acc : Vec α) :
    (parts k tes).foldl (TermEvaluation.addGradient 0) acc =
      tes.foldl (TermEvaluation.addGradient k) acc := by
  induction tes generalizing acc with
  | nil => rfl
  | cons te tes ih =>
      by_cases hreads : te.reads k = true
      · have hsame : TermEvaluation.addGradient 0 acc (te.only k) =
            TermEvaluation.addGradient k acc te := by
          rw [TermEvaluation.addGradient, TermEvaluation.addGradient, te.cell?_only k]
          rfl
        have hparts : parts k (te :: tes) = te.only k :: parts k tes := by simp [parts, hreads]
        rw [hparts, List.foldl_cons, List.foldl_cons, hsame, ih]
      · have hskip : TermEvaluation.addGradient k acc te = acc := by
          rw [TermEvaluation.addGradient, Option.not_isSome_iff_eq_none.mp hreads]
        have hparts : parts k (te :: tes) = parts k tes := by simp [parts, hreads]
        rw [hparts, List.foldl_cons, hskip, ih]

theorem localSizes_restrictTo (hb : e.blocks[k]? = some b) :
    (e.restrictTo k x).localSizes = [b.localSize] := by
  simp [localSizes, blocks_restrictTo hb]

/-- What a term reads of any other block is held. -/
theorem exists_held {j : Nat} (hj : j ≠ k) :
    ∃ held, e.restrictSource k x (.free j) = .constant held := by
  rw [restrictSource, if_neg hj]
  split <;> simp

/-- Of the cells of a term the one of the moving block is left. -/
theorem cellsOf_restrictTo (hb : e.blocks[k]? = some b)
    {l : List (BlockSource α × Mat α × Vec α)} {cells : List (Cell α)}
    (h : e.cellsOf l = .ok cells) :
    (e.restrictTo k x).cellsOf (l.map (Prod.map (e.restrictSource k x) id)) =
      .ok ((cells.filter fun c => c.column == k).map fun c => ⟨0, c.values⟩) := by
  have hblock : (e.restrictTo k x).blocks[0]? =
      some { b with stateOffset := 0, deltaOffset := 0 } := by rw [blocks_restrictTo hb]; rfl
  induction l generalizing cells with
  | nil =>
      cases h
      rfl
  | cons c l ih =>
      obtain ⟨s, jacobian, values⟩ := c
      rw [List.map_cons, Prod.map_apply]
      cases s with
      | constant c =>
          rw [cellsOf] at h
          rw [restrictSource, cellsOf]
          exact ih h
      | free j =>
          by_cases hj : j = k
          · subst hj
            obtain ⟨m, hm, rest, hrest, rfl⟩ := (cellsOf_free_eq_ok hb).mp h
            rw [restrictSource, if_pos rfl, id_eq, List.filter_cons_of_pos (by simp)]
            exact (cellsOf_free_eq_ok hblock).mpr ⟨m, hm, _, ih hrest, rfl⟩
          · obtain ⟨held, hheld⟩ := e.exists_held (x := x) hj
            rw [hheld, id_eq, cellsOf]
            cases hc : e.blocks[j]? with
            | none =>
                rw [cellsOf, hc] at h
                exact ih h
            | some c =>
                obtain ⟨m, -, rest, hrest, rfl⟩ := (cellsOf_free_eq_ok hc).mp h
                rw [ih hrest, List.filter_cons_of_neg (by simpa using hj)]

/-- A term contributes the same as in the whole evaluator, apart from the cells of blocks that
are held. -/
theorem Contributes.restrictTo (he : e.Placed) (hb : e.blocks[k]? = some b)
    (hx : x.size = e.numParameters) (hv : v.size = b.size)
    (h : e.Contributes (x.splice b.stateOffset v) t te) :
    (e.restrictTo k x).Contributes v (e.restrictTerm k x t) (te.only k) := by
  obtain ⟨o, hcall, hy⟩ := h
  have hpoint : (e.restrictTo k x).pointOf v (e.restrictTerm k x t) =
      e.pointOf (x.splice b.stateOffset v) t := pointOf_restrictTo he hb hx hv
  refine ⟨o, ?_, hy.accepts, hy.cost, hy.residuals, ?_⟩
  · intro s
    rw [hpoint]
    exact hcall s
  · rw [hpoint, restrictTerm, List.zip_map_left]
    exact cellsOf_restrictTo hb hy.cells

/-- A term has a cell in the column blocks that it reads. -/
theorem FitsRow.contains_eq_reads (h : e.FitsRow t te.cells) (k : Nat) :
    t.columns.contains k = te.reads k := by
  rw [Bool.eq_iff_iff, TermEvaluation.reads, Option.isSome_iff_ne_none, ne_eq,
    TermEvaluation.cell?_eq_none_iff, not_not, h.columns, List.contains_iff_mem]

theorem forall₂_reads (he : e.WellFormed) (hall : List.Forall₂ (e.Contributes x) e.terms tes)
    (k : Nat) : List.Forall₂ (fun t te => t.columns.contains k = te.reads k ∧ e.Contributes x t te)
      e.terms tes := by
  have hmem := (List.forall₂_and_left e.terms tes).mpr ⟨fun t ht => ht, hall⟩
  apply hmem.imp
  intro t te ⟨ht, hc⟩
  exact ⟨(hc.fitsRow he ht).contains_eq_reads k, hc⟩

/-- What the terms of a restricted evaluator contribute. -/
theorem forall₂_contributes_restrictTo (he : e.WellFormed) (hplaced : e.Placed)
    (hb : e.blocks[k]? = some b) (hx : x.size = e.numParameters) (hv : v.size = b.size)
    (h : List.Forall₂ (e.Contributes (x.splice b.stateOffset v)) e.terms tes) :
    List.Forall₂ ((e.restrictTo k x).Contributes v) (e.restrictTo k x).terms (parts k tes) := by
  have hfilter := List.rel_filter (p := fun t => t.columns.contains k) (q := fun te => te.reads k)
    (fun t te hc => Bool.eq_iff_iff.mp hc.1) (forall₂_reads he h k)
  show List.Forall₂ _ ((e.terms.filter fun t => t.columns.contains k).map (e.restrictTerm k x)) _
  rw [parts, List.forall₂_map_left_iff, List.forall₂_map_right_iff]
  exact hfilter.imp fun t te hc => hc.2.restrictTo hplaced hb hx hv

end Evaluator

/-! ## Parts of vectors and matrices -/

namespace Vec

omit [Scalar α] in
theorem entries_ofFn (n : Nat) (f : Nat → α) :
    (ofFn n f).entries = ((List.range n).map f).toArray := by
  apply Array.ext
  · simp [ofFn]
  · intro i hi hj
    simp [ofFn]

omit [Scalar α] in
theorem concat_singleton (v : Vec α) : concat [v] = v := by
  cases v
  simp [concat, ofList, toList]

/-- The entries at some indices. -/
def pick (v : Vec α) (indices : List Nat) : Vec α := .ofList (indices.map v.get)

/-- Entries in a row, one by one. -/
theorem map_get_range' (v : Vec α) (start n : Nat) :
    (List.range' start n).map v.get = (v.slice start n).toList := by
  rw [toList, slice, entries_ofFn, List.range'_eq_map_range, List.map_map]
  rfl

end Vec

/-- Some of the rows, of these the columns of one block. -/
def Mat.pick (a : Mat α) (rows : List Nat) (start n : Nat) : Mat α :=
  .ofRows n (rows.map fun i => (List.range n).map fun j => a.get i (start + j))

theorem denseRow_singleton (cell? : Nat → Option (Mat α)) {m : Mat α} (h : cell? 0 = some m)
    (n i : Nat) :
    (denseRow cell? [n] i).entries = ((List.range n).map fun j => m.get i j).toArray := by
  rw [denseRow, List.mapIdx_cons, List.mapIdx_nil, Vec.concat_singleton, h]
  exact Vec.entries_ofFn n _

/-! ## What a restricted evaluator finds -/

namespace Evaluator

variable {e : Evaluator α σ} {x v y : Vec α} {tes : List (TermEvaluation α)} {b : FreeBlock α}
  {k : Nat}

/-- The rows of the terms that read the block of a column. -/
def rowsOf (e : Evaluator α σ) (k : Nat) : List Nat :=
  chosenRows (e.terms.map fun t => t.cost.numResiduals)
    (e.terms.map fun t => t.columns.contains k)

/-- An evaluation of one block is part of an evaluation of everything: it has the rows of the
terms that read the block, and of these the columns of the block. -/
structure Slice (e : Evaluator α σ) (k : Nat) (b : FreeBlock α) (whole part : Evaluation α) :
    Prop where
  residuals : part.residuals = whole.residuals.pick (e.rowsOf k)
  jacobian : ∃ J K, whole.jacobian = some J ∧ part.jacobian = some K ∧
    K.toDense = J.toDense.pick (e.rowsOf k) b.deltaOffset b.localSize
  gradient : ∃ G, whole.gradient = some G ∧
    part.gradient = some (G.slice b.deltaOffset b.localSize)

/-- What contributions add up to, whether or not the cost is finite. -/
def assembled (e : Evaluator α σ) (tes : List (TermEvaluation α)) : Evaluation α :=
  ⟨tes.foldl (fun cost te => cost + te.cost) 0, Vec.concat (tes.map TermEvaluation.residuals),
    some ((fill e.template tes).leftMultiply (Vec.concat (tes.map TermEvaluation.residuals))),
    some (fill e.template tes)⟩

theorem assemble_true (e : Evaluator α σ) (tes : List (TermEvaluation α)) : e.assemble true tes =
    if Scalar.isFinite (e.assembled tes).cost then some (e.assembled tes) else none := rfl

theorem eq_assembled {ev : Evaluation α} (h : e.assemble true tes = some ev) :
    ev = e.assembled tes :=
  (assemble_eq_some_iff.mp h).2

section Parts

variable (he : e.WellFormed) (hall : List.Forall₂ (e.Contributes y) e.terms tes)

include he hall

theorem rowsOf_eq (k : Nat) : e.rowsOf k =
    chosenRows (tes.map fun te => te.residuals.size) (tes.map fun te => te.reads k) := by
  obtain ⟨outs, hyields⟩ := exists_yieldsAll hall
  have hreads : (e.terms.map fun t => t.columns.contains k) = tes.map fun te => te.reads k :=
    map_eq_map_of_forall₂ (forall₂_reads he hall k) fun _ _ hc => hc.1
  rw [rowsOf, hreads, hyields.map_size_residuals]

/-- The residuals of the terms that read the block. -/
theorem pick_residuals (k : Nat) :
    (Vec.concat (tes.map TermEvaluation.residuals)).pick (e.rowsOf k) =
      Vec.concat ((parts k tes).map TermEvaluation.residuals) := by
  have hrows : (e.rowsOf k).map (Vec.concat (tes.map TermEvaluation.residuals)).get =
      (tes.filter fun te => te.reads k).flatMap fun te => te.residuals.toList := by
    rw [rowsOf_eq he hall]
    apply map_chosenRows
    intro i te hte _
    have hget : (tes.map TermEvaluation.residuals)[i]? = some te.residuals := by simp [hte]
    have hslice := Vec.slice_concat hget
    rw [← List.map_take, List.map_map] at hslice
    rw [Vec.map_get_range']
    exact congrArg Vec.toList hslice
  rw [Vec.pick, hrows, Vec.concat, parts, List.map_map, List.flatMap_map]
  rfl

theorem length_rowsOf (k : Nat) :
    (e.rowsOf k).length = total ((parts k tes).map fun te => te.residuals.size) := by
  have hsize := congrArg Vec.size (pick_residuals he hall k)
  rwa [Vec.pick, Vec.size_ofList, List.length_map, Vec.size_concat, List.map_map] at hsize

/-- In the rows of a term and the columns of a block that it reads stands the cell. -/
theorem rows_of_cell (hb : e.blocks[k]? = some b) {i : Nat} {te : TermEvaluation α}
    (hte : tes[i]? = some te) (hreads : te.reads k = true) :
    ((List.range' (total ((tes.take i).map fun te => te.residuals.size)) te.residuals.size).map
      fun r => ((List.range b.localSize).map fun j =>
        (fill e.template tes).toDense.get r (b.deltaOffset + j)).toArray) =
      (List.range te.residuals.size).map fun r =>
        (denseRow (te.only k).cell? [b.localSize] r).entries := by
  obtain ⟨outs, hyields⟩ := exists_yieldsAll hall
  obtain ⟨m, hm⟩ := Option.isSome_iff_exists.mp hreads
  have hlt : i < e.terms.length := hyields.length_right ▸ (List.getElem?_eq_some_iff.mp hte).1
  have ht := List.getElem?_eq_getElem hlt
  obtain ⟨o, -, hy⟩ := hyields.yields ht hte
  have hentry : ∀ r < te.residuals.size, ∀ j < b.localSize, (fill e.template tes).toDense.get
      (total ((tes.take i).map fun te => te.residuals.size) + r) (b.deltaOffset + j) =
        m.get r j := by
    intro r hr j hj
    rw [hy.size_residuals] at hr
    have hcell := (he.get_toDense_fill hyields.length_right (hyields.fitsRow he) ht hte hb hr hj).1
      m (TermEvaluation.mem_of_cell? hm)
    rwa [List.map_take, ← hyields.map_size_residuals, ← List.map_take] at hcell
  rw [List.range'_eq_map_range, List.map_map]
  apply List.map_congr_left
  intro r hr
  rw [denseRow_singleton _ ((te.cell?_only k).trans hm)]
  apply congrArg List.toArray
  apply List.map_congr_left
  intro j hj
  exact hentry r (List.mem_range.mp hr) j (List.mem_range.mp hj)

/-- The dense Jacobian of the restricted evaluator. -/
theorem pick_jacobian (hb : e.blocks[k]? = some b)
    (hparts : List.Forall₂ ((e.restrictTo k x).Contributes v) (e.restrictTo k x).terms
      (parts k tes)) :
    (fill (e.restrictTo k x).template (parts k tes)).toDense =
      (fill e.template tes).toDense.pick (e.rowsOf k) b.deltaOffset b.localSize := by
  obtain ⟨outs, hyields⟩ := exists_yieldsAll hparts
  have hrows : ((e.rowsOf k).map fun r => ((List.range b.localSize).map fun j =>
      (fill e.template tes).toDense.get r (b.deltaOffset + j)).toArray) =
        (tes.filter fun te => te.reads k).flatMap fun te =>
          (List.range te.residuals.size).map fun r =>
            (denseRow (te.only k).cell? [b.localSize] r).entries := by
    rw [rowsOf_eq he hall]
    apply map_chosenRows
    intro i te hte hreads
    exact rows_of_cell he hall hb hte hreads
  rw [(he.restrictTo hb).toDense_fill hyields, localSizes_restrictTo hb, ← length_rowsOf he hall,
    Mat.pick, Mat.ofRows, List.length_map, List.map_map]
  congr 2
  exact (hrows.trans (by rw [parts, List.flatMap_map]; rfl)).symm

/-- The gradient of the restricted evaluator. -/
theorem slice_gradient (hb : e.blocks[k]? = some b)
    (hparts : List.Forall₂ ((e.restrictTo k x).Contributes v) (e.restrictTo k x).terms
      (parts k tes)) :
    (fill (e.restrictTo k x).template (parts k tes)).leftMultiply
        (Vec.concat ((parts k tes).map TermEvaluation.residuals)) =
      ((fill e.template tes).leftMultiply
        (Vec.concat (tes.map TermEvaluation.residuals))).slice b.deltaOffset b.localSize := by
  obtain ⟨outs, hyields⟩ := exists_yieldsAll hall
  obtain ⟨outs', hyields'⟩ := exists_yieldsAll hparts
  rw [(he.restrictTo hb).leftMultiply_fill hyields', localSizes_restrictTo hb, List.mapIdx_cons,
    List.mapIdx_nil, Vec.concat_singleton, foldl_addGradient_parts,
    he.slice_leftMultiply_fill hyields hb]

/-- What the restricted evaluator adds up is part of what the whole one does. -/
theorem slice_assembled (hb : e.blocks[k]? = some b)
    (hparts : List.Forall₂ ((e.restrictTo k x).Contributes v) (e.restrictTo k x).terms
      (parts k tes)) :
    e.Slice k b (e.assembled tes) ((e.restrictTo k x).assembled (parts k tes)) where
  residuals := (pick_residuals he hall k).symm
  jacobian := ⟨_, _, rfl, rfl, pick_jacobian he hall hb hparts⟩
  gradient := ⟨_, rfl, congrArg some (slice_gradient he hall hb hparts)⟩

end Parts

/-! ## Costs -/

/-- The cost of a term at a state, of an evaluation with a Jacobian. -/
def linearizedCost? (e : Evaluator α σ) (u : σ) (x : Vec α) (t : ResidualTerm α σ) : Option α :=
  ((t.cost.evaluate (e.pointOf x t) true u).1.bind
    (ResidualEvaluation.ofOutput? t.cost t.loss true)).map ResidualEvaluation.cost

/-- The cost of the terms that do not read the block of a column. -/
def costApart? (e : Evaluator α σ) (u : σ) (k : Nat) (x : Vec α) : Option α :=
  addCosts 0 ((e.terms.filter fun t => !t.columns.contains k).map (e.linearizedCost? u x))

theorem Contributes.linearizedCost? {t : ResidualTerm α σ} {te : TermEvaluation α}
    (h : e.Contributes x t te) (u : σ) : e.linearizedCost? u x t = some te.cost := by
  obtain ⟨o, hcall, hy⟩ := h
  obtain ⟨s', hs'⟩ := hcall ⟨u, 0⟩
  have ho := CostFunction.returns_evaluateChecked _ _ hs'
  rw [Evaluator.linearizedCost?, ← ho, Option.bind_some,
    ResidualEvaluation.ofOutput?_of_accepts hy.accepts, Option.map_some, hy.cost]

/-- The terms that do not read a block have the same cost, whatever its values are. -/
theorem costApart?_eq (he : e.WellFormed) (hplaced : e.Placed) (hb : e.blocks[k]? = some b)
    (hv : v.size = b.size)
    (hall : List.Forall₂ (e.Contributes (x.splice b.stateOffset v)) e.terms tes) (u : σ) :
    e.costApart? u k x =
      some ((tes.filter fun te => !te.reads k).foldl (fun cost te => cost + te.cost) 0) := by
  have hfilter := List.rel_filter (p := fun t => !t.columns.contains k)
    (q := fun te => !te.reads k) (fun t te hc => by simp only [hc.1]) (forall₂_reads he hall k)
  have happart := (List.forall₂_and_left _ _).mpr ⟨fun t ht => (List.mem_filter.mp ht).2, hfilter⟩
  rw [costApart?, foldl_cost_eq]
  refine congrArg (addCosts 0) (map_eq_map_of_forall₂ happart fun t te hc => ?_)
  obtain ⟨hreads, -, hcontributes⟩ := hc
  rw [← hcontributes.linearizedCost? u, linearizedCost?, linearizedCost?,
    pointOf_congr fun l hl c hc => hplaced.valuesIn_splice_of_ne hb hc ?_ hv]
  rintro rfl
  simp [hl] at hreads

end Evaluator

/-- Sums that do not round: every value is finite, and what was added can be regrouped and
taken away again. -/
structure Scalar.Exact (α : Type) [Scalar α] : Prop where
  add_assoc : ∀ a b c : α, a + b + c = a + (b + c)
  add_comm : ∀ a b : α, a + b = b + a
  zero_add : ∀ a : α, 0 + a = a
  add_sub_cancel_left : ∀ a b : α, a + b - a = b
  finite : ∀ a : α, Scalar.isFinite a = true

theorem Scalar.exact_real : Scalar.Exact ℝ where
  add_assoc := add_assoc
  add_comm := add_comm
  zero_add a := by rw [real_zero, real_add]; exact zero_add a
  add_sub_cancel_left := add_sub_cancel_left
  finite _ := rfl

/-- Without rounding a sum of costs is made of two parts. -/
theorem Scalar.Exact.foldl_cost (h : Scalar.Exact α) (p : TermEvaluation α → Bool)
    (tes : List (TermEvaluation α)) (a c : α) :
    tes.foldl (fun cost te => cost + te.cost) (a + c) =
      (tes.filter p).foldl (fun cost te => cost + te.cost) a +
        (tes.filter fun te => !p te).foldl (fun cost te => cost + te.cost) c := by
  induction tes generalizing a c with
  | nil => rfl
  | cons te tes ih =>
      rw [List.foldl_cons]
      by_cases hp : p te = true
      · have hsum : a + c + te.cost = a + te.cost + c := by
          rw [h.add_assoc, h.add_comm c, ← h.add_assoc]
        rw [List.filter_cons_of_pos hp, List.filter_cons_of_neg (by simp [hp]), List.foldl_cons,
          hsum, ih]
      · rw [List.filter_cons_of_neg hp, List.filter_cons_of_pos (by simp [hp]), List.foldl_cons,
          h.add_assoc, ih]

/-- The parts of the terms that read a block leave out the cost of the others. -/
theorem Scalar.Exact.cost_sub_parts (h : Scalar.Exact α) (tes : List (TermEvaluation α))
    (k : Nat) :
    tes.foldl (fun cost te => cost + te.cost) 0 -
        (Evaluator.parts k tes).foldl (fun cost te => cost + te.cost) 0 =
      (tes.filter fun te => !te.reads k).foldl (fun cost te => cost + te.cost) 0 := by
  have hsum := h.foldl_cost (fun te => te.reads k) tes 0 0
  rw [h.zero_add] at hsum
  have hparts : (Evaluator.parts k tes).foldl (fun cost te => cost + te.cost) 0 =
      (tes.filter fun te => te.reads k).foldl (fun cost te => cost + te.cost) 0 := by
    rw [Evaluator.parts, List.foldl_map]
    rfl
  rw [hsum, hparts, h.add_sub_cancel_left]

/-! ## The restricted evaluator -/

namespace Evaluator

variable {p : Problem α σ} {g : Program} {kind : LinearSolverKind} {eliminated : Nat}
  {check : Option (GradientCheck α)} {e : Evaluator α σ} {x v : Vec α} {b : FreeBlock α} {k : Nat}

/-- Where the whole evaluator finds something with new values in one block, the evaluator in
which only this block moves finds the part of it that belongs to the block, as long as the part
has a finite cost. In exact arithmetic it has, and the cost that is missing is that of the terms
that do not read the block, at the state as it was. -/
theorem evaluate_restrictTo_slice (hp : p.Reachable) (hanswers : p.Answers)
    (hcreate : create p g kind eliminated check = .ok e) (hb : e.blocks[k]? = some b)
    (hv : v.size = b.size) {whole : Evaluation α} {s s' : Tally σ}
    (h : e.evaluate (x.splice b.stateOffset v) true s = .ok (some whole) s') :
    ∃ r part, e.restrictTo? k x = .ok r ∧
      (∀ t, ∃ t', r.evaluate v true t =
        .ok (if Scalar.isFinite part.cost then some part else none) t') ∧
      e.Slice k b whole part ∧
      (Scalar.Exact α → Scalar.isFinite part.cost = true ∧
        ∀ u, e.costApart? u k x = some (whole.cost - part.cost)) := by
  have hmade := (create_eq_ok hcreate).1
  have he := hmade.wellFormed hp.coherent
  have hx : x.size = e.numParameters := (Vec.size_splice _ _ _).symm.trans (exists_outputs h).1
  obtain ⟨tes, hall, hassemble⟩ := exists_contributions
    (hmade.forall_cost (P := fun f => ∃ answer, f.Answers answer) hanswers) h
  have hparts := forall₂_contributes_restrictTo he hmade.placed hb hx hv hall
  obtain rfl := eq_assembled hassemble
  refine ⟨e.restrictTo k x, (e.restrictTo k x).assembled (parts k tes), ?_, ?_,
    slice_assembled he hall hb hparts, ?_⟩
  · rw [restrictTo?, if_pos]
    rw [List.all_eq_true]
    intro l _
    exact hmade.placed.reaches hx l
  · intro t
    rw [← assemble_true]
    exact (he.restrictTo hb).exists_evaluate (hv.trans (numParameters_restrictTo hb).symm) hparts t
  · intro hexact
    refine ⟨hexact.finite _, ?_⟩
    intro u
    rw [costApart?_eq he hmade.placed hb hv hall u, assembled, assembled, hexact.cost_sub_parts]

end Evaluator

namespace Gallery

/-- A block that is tied to another one, which is drawn towards a point. -/
def tethered (α : Type) [Scalar α] : Problem α Unit where
  slots := #[⟨0, some { values := .ofList [1] }⟩, ⟨0, some { values := .ofList [2.0] }⟩]
  residuals := #[some ⟨[⟨1, 0⟩], anchor (.ofList [5.0]), none⟩,
    some ⟨[⟨0, 0⟩, ⟨1, 0⟩], difference (.ofList [0]), none⟩]
  numBlocks := 2
  numResidualBlocks := 2

theorem reachable_tethered : (tethered α).Reachable := by
  have h : Problem.Reachable (α := α) (σ := Unit) .empty := .empty
  have h := h.addBlock (.inr (show 0 < UInt32.size by decide)) (.ofList [1])
  have h := h.addBlock (.inr (show 1 < UInt32.size by decide)) (.ofList [2.0])
  have h := h.addResidual
    (show Problem.addResidual _ (anchor (.ofList [5.0])) none [⟨1, 0⟩] = .ok (_, _) from rfl)
  exact h.addResidual (show Problem.addResidual _ (difference (.ofList [0])) none
    [⟨0, 0⟩, ⟨1, 0⟩] = .ok (_, _) from rfl)

end Gallery

/-- The block that is tied, with the other one held. -/
theorem Evaluator.evaluate_restrictTo_slice_tethered : ∃ (e : Evaluator ℝ Unit) (b : FreeBlock ℝ)
    (whole : Evaluation ℝ) (s' : Tally Unit),
    create (Gallery.tethered ℝ) (.ofProblem (Gallery.tethered ℝ)) .denseQR 0 none = .ok e ∧
    e.blocks[0]? = some b ∧
    e.evaluate ((Vec.ofList [4, 7]).splice b.stateOffset (.ofList [6])) true ⟨(), 0⟩ =
      .ok (some whole) s' ∧
    ∃ r part, e.restrictTo? 0 (Vec.ofList [4, 7]) = .ok r ∧
      (∀ t, ∃ t', r.evaluate (.ofList [6]) true t = .ok (some part) t') ∧
      e.Slice 0 b whole part ∧
      e.costApart? () 0 (Vec.ofList [4, 7]) = some (whole.cost - part.cost) := by
  obtain ⟨e, b, whole, s', hcreate, hb, hsize, hwhole⟩ : ∃ (e : Evaluator ℝ Unit)
      (b : FreeBlock ℝ) (whole : Evaluation ℝ) (s' : Tally Unit),
      create (Gallery.tethered ℝ) (.ofProblem (Gallery.tethered ℝ)) .denseQR 0 none = .ok e ∧
      e.blocks[0]? = some b ∧ b.size = 1 ∧
      e.evaluate ((Vec.ofList [4, 7]).splice b.stateOffset (.ofList [6])) true ⟨(), 0⟩ =
        .ok (some whole) s' := by
    with_unfolding_all exact ⟨_, _, _, _, rfl, rfl, rfl, rfl⟩
  have hanswers : (Gallery.tethered ℝ).Answers := fun _ r _ =>
    ⟨fun point jacobians => (r.cost.evaluate point jacobians ()).1, fun _ _ _ => rfl⟩
  obtain ⟨r, part, hr, hpart, hslice, hcost⟩ := evaluate_restrictTo_slice (v := .ofList [6])
    Gallery.reachable_tethered hanswers hcreate hb hsize.symm hwhole
  obtain ⟨hfinite, hcost⟩ := hcost Scalar.exact_real
  refine ⟨e, b, whole, s', hcreate, hb, hwhole, r, part, hr, fun t => ?_, hslice, hcost ()⟩
  obtain ⟨t', ht'⟩ := hpart t
  rw [if_pos hfinite] at ht'
  exact ⟨t', ht'⟩

end LeastSquares
