import LeastSquares.Proofs.Contributions
import LeastSquares.Proofs.Posed
import LeastSquares.Proofs.Real

/-!
# Where an evaluation puts the answers

Whatever cost functions answer, an evaluation without a gradient check comes to an
end. It finds something if every answer counts and the cost is finite. Then the
residuals of a residual block stand behind those of the blocks before it, and the
Jacobian has, in these rows and in the columns of a parameter block, the corrected
derivative along the manifold if the residual block reads the parameter block, and
zeros otherwise.

Residuals come corrected for the losses together with a Jacobian, and as the cost
functions gave them without.

## Main definitions

* `Program.rowOffset`, `Program.columnOffset` — where a block begins.
* `ResidualBlock.correctedBy`, `ParameterBlock.project` — the derivative in a cell.
* `BlockMatrix.Lays`, `Evaluation.Lays` — the answers, each in its place.

## Main results

* `Evaluator.evaluate_layout` — evaluations without a gradient check.
-/

namespace LeastSquares

variable {α σ : Type} [Scalar α]

/-! ## The layout -/

/-- A derivative by the coordinates of a block as one along its manifold, at the
values of the block. -/
def ParameterBlock.project (b : ParameterBlock α) (jacobian : Mat α) : Except Fault (Mat α) :=
  match b.manifold with
  | some m => (m.plusJacobian b.values).map jacobian.mul
  | none => .ok jacobian

theorem FreeBlock.StandsFor.project {b : FreeBlock α} {x : Vec α} {c : ParameterBlock α}
    (h : b.StandsFor x c) (jacobian : Mat α) :
    c.project jacobian = b.project (b.valuesIn x) jacobian := by
  cases hmanifold : b.manifold <;>
    simp only [ParameterBlock.project, FreeBlock.project, h.manifold, h.values, hmanifold]

/-- The Jacobian by a parameter block that the residual block reads, corrected for
the loss. -/
def ResidualBlock.correctedBy (r : ResidualBlock α σ) (o : CostOutput α) (id : BlockId) : Mat α :=
  (ResidualEvaluation.corrected r.loss o.residuals (o.jacobians.getD [])).2.getD
    (r.blocks.idxOf id) default

namespace Program

/-- The first row of a residual block. -/
def rowOffset (rs : List (ResidualBlock α σ)) (i : Nat) : Nat :=
  total ((rs.take i).map fun r => r.cost.numResiduals)

/-- The first column of a parameter block. -/
def columnOffset (cs : List (ParameterBlock α)) (k : Nat) : Nat :=
  total ((cs.take k).map ParameterBlock.localSize)

/-- The cost that answers add up to. -/
def totalCost (rs : List (ResidualBlock α σ)) (outs : List (CostOutput α)) : α :=
  (rs.zip outs).foldl
    (fun cost c => cost + ResidualEvaluation.costOf c.1.loss c.2.residuals) 0

end Program

open Program (rowOffset columnOffset totalCost)

/-- The matrix has the corrected derivative by each parameter block in the rows of each
residual block that reads it, and zeros elsewhere. -/
structure BlockMatrix.Lays (jac : BlockMatrix α) (ids : List BlockId)
    (cs : List (ParameterBlock α)) (rs : List (ResidualBlock α σ)) (outs : List (CostOutput α)) :
    Prop where
  wellFormed : jac.WellFormed
  rows : jac.toDense.rows = total (rs.map fun r => r.cost.numResiduals)
  cols : jac.toDense.cols = total (cs.map ParameterBlock.localSize)
  derivative : ∀ (i k : Nat) r o id c, rs[i]? = some r → outs[i]? = some o → ids[k]? = some id →
    cs[k]? = some c → id ∈ r.blocks →
      ∃ d, c.project (r.correctedBy o id) = .ok d ∧ d.rows = r.cost.numResiduals ∧
        d.cols = c.localSize ∧ ∀ m < r.cost.numResiduals, ∀ j < c.localSize,
          jac.toDense.get (rowOffset rs i + m) (columnOffset cs k + j) = d.get m j
  zero : ∀ (i k : Nat) r id c, rs[i]? = some r → ids[k]? = some id → cs[k]? = some c →
    id ∉ r.blocks → ∀ m < r.cost.numResiduals, ∀ j < c.localSize,
      jac.toDense.get (rowOffset rs i + m) (columnOffset cs k + j) = 0

/-- The evaluation has the answers in their places. Residuals are corrected for the
losses if there is a Jacobian. -/
structure Evaluation.Lays (ev : Evaluation α) (wantJacobian : Bool) (ids : List BlockId)
    (cs : List (ParameterBlock α)) (rs : List (ResidualBlock α σ)) (outs : List (CostOutput α)) :
    Prop where
  cost : ev.cost = totalCost rs outs
  size : ev.residuals.size = total (rs.map fun r => r.cost.numResiduals)
  residuals : ∀ (i : Nat) r o, rs[i]? = some r → outs[i]? = some o →
    ev.residuals.slice (rowOffset rs i) r.cost.numResiduals =
      if wantJacobian then ResidualEvaluation.correct r.loss o.residuals else o.residuals
  raw : wantJacobian = false → ev.jacobian = none
  jacobian : wantJacobian = true → ∃ jac, ev.jacobian = some jac ∧ jac.Lays ids cs rs outs

namespace Evaluator

variable {p q : Problem α σ} {g : Program} {e : Evaluator α σ} {x : Vec α} {wantJacobian : Bool}
  {cs : List (ParameterBlock α)} {rs : List (ResidualBlock α σ)} {outs : List (CostOutput α)}
  {tes : List (TermEvaluation α)}

section Layout

variable (hstands : List.Forall₂ (e.StandsFor g q x) e.terms rs)

include hstands

theorem rowOffset_eq (i : Nat) :
    rowOffset rs i = total ((e.terms.take i).map fun t => t.cost.numResiduals) :=
  congrArg total (map_eq_map_of_forall₂ (List.forall₂_take i hstands)
    fun _ _ h => congrArg CostFunction.numResiduals h.cost).symm

theorem numResiduals_eq : total (rs.map fun r => r.cost.numResiduals) = e.numResiduals :=
  congrArg total (map_eq_map_of_forall₂ hstands
    fun _ _ h => congrArg CostFunction.numResiduals h.cost).symm

/-- Contributions add up to the cost of the answers. -/
theorem foldl_cost_eq_totalCost
    (hyields : e.YieldsAll x wantJacobian outs tes) :
    tes.foldl (fun cost te => cost + te.cost) 0 = totalCost rs outs := by
  have hcosts : tes.map TermEvaluation.cost =
      (rs.zip outs).map fun c => ResidualEvaluation.costOf c.1.loss c.2.residuals := by
    rw [hyields.map_cost]
    refine map_eq_map_of_forall₂ (forall₂_zip_right hstands outs) fun c d h => ?_
    rw [h.1.loss, h.2]
  rw [totalCost, ← List.foldl_map (f := fun c : ResidualBlock α σ × CostOutput α =>
    ResidualEvaluation.costOf c.1.loss c.2.residuals) (g := (· + ·)), ← hcosts, List.foldl_map]

theorem slice_residuals_eq (hyields : e.YieldsAll x wantJacobian outs tes) {i : Nat}
    {r : ResidualBlock α σ} {o : CostOutput α} (hr : rs[i]? = some r) (ho : outs[i]? = some o) :
    (Vec.concat (tes.map TermEvaluation.residuals)).slice (rowOffset rs i) r.cost.numResiduals =
      if wantJacobian then ResidualEvaluation.correct r.loss o.residuals else o.residuals := by
  obtain ⟨t, ht, hstand⟩ := exists_getElem?_of_forall₂ hstands.flip hr
  obtain ⟨o', te, ho', hte, hy⟩ := hyields.exists_yields ht
  rw [ho] at ho'
  cases ho'
  rw [rowOffset_eq hstands, ← hstand.cost, hyields.slice_residuals ht hte, hy.residuals,
    hstand.loss]

/-- The cells of all terms make a matrix with the derivatives in their places. -/
theorem WellFormed.lays_fill (he : e.WellFormed) (hn : g.blocks.Nodup)
    (hblocks : List.Forall₂ (fun b c => FreeBlock.StandsFor b x c) e.blocks cs)
    (hyields : e.YieldsAll x true outs tes) : (fill e.template tes).Lays g.blocks cs rs outs := by
  have hlen := hyields.length_right
  have hfits := hyields.fitsRow he
  have hplace : ∀ {k : Nat} {b : FreeBlock α}, e.blocks[k]? = some b →
      columnOffset cs k = b.deltaOffset := by
    intro k b hb
    rw [he.place k b hb]
    exact congrArg total (map_eq_map_of_forall₂ (List.forall₂_take k hblocks)
      fun _ _ h => h.localSize.symm).symm
  refine ⟨he.wellFormed_fill hlen hfits, ?_, ?_, ?_, ?_⟩
  · exact (he.numRows_fill hlen).trans (numResiduals_eq hstands).symm
  · exact (he.numCols_fill tes).trans (congrArg total (map_eq_map_of_forall₂ hblocks
      fun _ _ h => h.localSize.symm))
  · intro i k r o id c hr ho hid hc hread
    obtain ⟨t, ht, hstand⟩ := exists_getElem?_of_forall₂ hstands.flip hr
    obtain ⟨b, hb, hsame⟩ := exists_getElem?_of_forall₂ hblocks.flip hc
    obtain ⟨o', te, ho', hte, hy⟩ := hyields.exists_yields ht
    rw [ho] at ho'
    cases ho'
    have hfind := hstand.findIdx? hn hid
    rw [if_pos hread] at hfind
    obtain ⟨j, d, hj, -, hd, hmem, hrows, hcols⟩ :=
      he.exists_cell (List.mem_of_getElem? ht) hy.shapes hy.cells hb hfind
    have hcorrected : r.correctedBy o id = j := by
      rw [ResidualBlock.correctedBy, ← hstand.loss, List.getD_eq_getElem?_getD, hj,
        Option.getD_some]
    refine ⟨d, ?_, hrows.trans (congrArg _ hstand.cost), hcols.trans hsame.localSize.symm,
      fun m hm j' hj' => ?_⟩
    · rw [hcorrected, hsame.project]
      exact hd
    · rw [rowOffset_eq hstands, hplace hb]
      rw [← hstand.cost] at hm
      rw [hsame.localSize] at hj'
      exact (he.get_toDense_fill hlen hfits ht hte hb hm hj').1 d hmem
  · intro i k r id c hr hid hc hread m hm j hj
    obtain ⟨t, ht, hstand⟩ := exists_getElem?_of_forall₂ hstands.flip hr
    obtain ⟨b, hb, hsame⟩ := exists_getElem?_of_forall₂ hblocks.flip hc
    obtain ⟨-, te, -, hte, -⟩ := hyields.exists_yields ht
    rw [rowOffset_eq hstands, hplace hb]
    rw [← hstand.cost] at hm
    rw [hsame.localSize] at hj
    exact (he.get_toDense_fill hlen hfits ht hte hb hm hj).2
      (mt (hstand.mem_columns_iff hn hid).mp hread)

/-- The evaluation that contributions add up to has the answers in their places. -/
theorem WellFormed.lays (he : e.WellFormed) (hn : g.blocks.Nodup)
    (hblocks : List.Forall₂ (fun b c => FreeBlock.StandsFor b x c) e.blocks cs)
    (hyields : e.YieldsAll x wantJacobian outs tes)
    {ev : Evaluation α} (hassemble : e.assemble wantJacobian tes = some ev) :
    ev.Lays wantJacobian g.blocks cs rs outs := by
  obtain ⟨-, rfl⟩ := assemble_eq_some_iff.mp hassemble
  refine ⟨foldl_cost_eq_totalCost hstands hyields, ?_,
    fun i r o hr ho => slice_residuals_eq hstands hyields hr ho, ?_, ?_⟩
  · rw [Vec.size_concat, List.map_map, numResiduals_eq hstands]
    exact congrArg total hyields.map_size_residuals
  · rintro rfl
    rfl
  · rintro rfl
    exact ⟨_, rfl, he.lays_fill hstands hn hblocks hyields⟩

end Layout

/-- Something is found if and only if all answers count and their cost is finite. -/
theorem WellFormed.found_iff (he : e.WellFormed)
    (hstands : List.Forall₂ (e.StandsFor g q x) e.terms rs) {answers : List (Option (CostOutput α))}
    (hlen : answers.length = e.terms.length) :
    (∃ ev, (e.contributions? x wantJacobian answers).bind (e.assemble wantJacobian) = some ev) ↔
      ∃ outs, answers = outs.map some ∧
        (∀ c ∈ rs.zip outs, c.1.cost.Accepts wantJacobian c.2) ∧
        Scalar.isFinite (totalCost rs outs) = true := by
  constructor
  · rintro ⟨ev, hev⟩
    obtain ⟨tes, htes, hassemble⟩ := Option.bind_eq_some_iff.mp hev
    obtain ⟨outs, rfl, hyields⟩ := (contributions?_eq_some_iff hlen).mp htes
    refine ⟨outs, rfl, fun c hc => ?_, ?_⟩
    · obtain ⟨d, hd, hstand, ho⟩ := exists_left_of_forall₂ (forall₂_zip_right hstands outs) c hc
      obtain ⟨te, -, hy⟩ := exists_right_of_forall₂ hyields.forall₂ d hd
      rw [← ho, ← hstand.cost]
      exact hy.accepts
    · rw [← foldl_cost_eq_totalCost hstands hyields]
      exact (assemble_eq_some_iff.mp hassemble).1
  · rintro ⟨outs, rfl, haccepts, hfinite⟩
    obtain ⟨tes, hyields⟩ := exists_forall₂ (l := e.terms.zip outs)
        (R := fun c te => e.Yields x wantJacobian c.1 c.2 te) fun c hc => by
      obtain ⟨d, hd, hstand, ho⟩ := exists_right_of_forall₂ (forall₂_zip_right hstands outs) c hc
      refine he.exists_yields x ?_
      rw [hstand.cost, ho]
      exact haccepts d hd
    have hall : e.YieldsAll x wantJacobian outs tes :=
      ⟨(List.length_map some).symm.trans hlen, hyields⟩
    rw [(contributions?_eq_some_iff hlen).mpr ⟨outs, rfl, hall⟩, Option.bind_some]
    rw [← foldl_cost_eq_totalCost hstands hall] at hfinite
    exact ⟨_, assemble_eq_some_iff.mpr ⟨hfinite, rfl⟩⟩

/-- Without a gradient check all cost functions answer. -/
theorem exists_answers (hcheck : e.check = none) (x : Vec α) (wantJacobian : Bool) (t : Tally σ) :
    ∃ answers t', e.outputs x wantJacobian t = .ok answers t' ∧
      answers.length = e.terms.length := by
  have hsucceeds : Succeeds (e.outputs x wantJacobian) t fun answers _ =>
      List.Forall₂ (fun _ _ => True) e.terms answers ∧ True := by
    refine Succeeds.mapM (I := fun _ => True) (fun term _ t' _ => ?_) trivial
    rw [hcheck, CostFunction.evaluateChecked_none]
    exact CostFunction.succeeds_call ⟨trivial, trivial⟩
  obtain ⟨answers, t', hanswers, hall, -⟩ := hsucceeds
  exact ⟨answers, t', hanswers, hall.length_eq.symm⟩

/-- An evaluation without a gradient check cannot break. It finds nothing at a state of
the wrong size. Otherwise it calls the cost function of every residual block of the
program, and finds something if and only if all of them give an answer that counts and
the cost is finite; and then it has the answers in their places. -/
theorem evaluate_layout (hp : p.Reachable) (hn : g.blocks.Nodup) {kind : LinearSolverKind}
    {eliminated : Nat} (he : create p g kind eliminated none = .ok e) (x : Vec α)
    (wantJacobian : Bool) (t : Tally σ) :
    (x.size ≠ e.numParameters → e.evaluate x wantJacobian t = .ok none t) ∧
    (x.size = e.numParameters → ∃ q cs rs points answers t' r,
      g.Poses p x q cs rs points ∧
      (rs.zip points).mapM (fun c => c.1.cost.call c.2 wantJacobian) t = .ok answers t' ∧
      answers.length = rs.length ∧
      e.evaluate x wantJacobian t = .ok r t' ∧
      ((∃ ev, r = some ev) ↔ ∃ outs, answers = outs.map some ∧
        (∀ c ∈ rs.zip outs, c.1.cost.Accepts wantJacobian c.2) ∧
        Scalar.isFinite (totalCost rs outs) = true) ∧
      ∀ ev, r = some ev → ev.residuals.size = e.numResiduals ∧
        ∃ outs, answers = outs.map some ∧ ev.Lays wantJacobian g.blocks cs rs outs) := by
  refine ⟨fun hsize => by rw [evaluate, if_pos hsize]; rfl, fun hsize => ?_⟩
  obtain ⟨hmade, -, hcheck⟩ := create_eq_ok he
  have hw := hmade.wellFormed hp.coherent
  obtain ⟨q, cs, rs, hposes, -, -, hblocks, hstands⟩ := hmade.exists_poses hn hsize
  obtain ⟨answers, t', hanswers, hlen⟩ := e.exists_answers hcheck x wantJacobian t
  refine ⟨q, cs, rs, _, answers, t',
    (e.contributions? x wantJacobian answers).bind (e.assemble wantJacobian), hposes, ?_,
    hlen.trans hstands.length_eq, ?_, ?_, ?_⟩
  · rw [← hanswers, mapM_points hstands fun f point => f.call point wantJacobian, outputs, hcheck]
    simp only [CostFunction.evaluateChecked_none]
  · rw [hw.evaluate_eq hsize, eStateM_bind_apply, hanswers]
    rfl
  · exact hw.found_iff hstands hlen
  · intro ev hev
    obtain ⟨tes, htes, hassemble⟩ := Option.bind_eq_some_iff.mp hev
    obtain ⟨outs, rfl, hyields⟩ := (contributions?_eq_some_iff hlen).mp htes
    have hlays := hw.lays hstands hn hblocks hyields hassemble
    exact ⟨hlays.size.trans (numResiduals_eq hstands), outs, rfl, hlays⟩

/-- The anchored blocks, at a state where all answers count. -/
theorem evaluate_layout_anchored : ∃ (e : Evaluator ℝ Unit) (ev : Evaluation ℝ) (t' : Tally Unit),
    create (Gallery.anchored ℝ) (.ofProblem (Gallery.anchored ℝ)) .denseQR 0 none = .ok e ∧
    e.evaluate (Vec.ofList [4, 7]) true ⟨(), 0⟩ = .ok (some ev) t' ∧
    ev.residuals.size = e.numResiduals ∧ ∃ q cs rs points outs,
      (Program.ofProblem (Gallery.anchored ℝ)).Poses (Gallery.anchored ℝ) (Vec.ofList [4, 7]) q cs
        rs points ∧
      ev.Lays true (Gallery.anchored ℝ).blockIds cs rs outs := by
  obtain ⟨e, ev, t', hcreate, hev⟩ : ∃ (e : Evaluator ℝ Unit) (ev : Evaluation ℝ) (t' : Tally Unit),
      create (Gallery.anchored ℝ) (.ofProblem (Gallery.anchored ℝ)) .denseQR 0 none = .ok e ∧
      e.evaluate (Vec.ofList [4, 7]) true ⟨(), 0⟩ = .ok (some ev) t' := by
    with_unfolding_all exact ⟨_, _, _, rfl, rfl⟩
  obtain ⟨q, cs, rs, points, answers, t'', r, hposes, -, -, hr, -, hlays⟩ :=
    (evaluate_layout Gallery.reachable_anchored (Problem.nodup_blockIds (by decide)) hcreate
      (Vec.ofList [4, 7]) true ⟨(), 0⟩).2 (exists_outputs hev).1
  rw [hev] at hr
  cases hr
  obtain ⟨hsize, outs, -, hlays⟩ := hlays ev rfl
  exact ⟨e, ev, t', hcreate, hev, hsize, q, cs, rs, points, outs, hposes, hlays⟩

end Evaluator

/-! ## Residuals that are not corrected -/

theorem Evaluator.exists_evaluation_of_test {e : Evaluator α σ} {x : Vec α} {wantJacobian : Bool}
    {s : Tally σ} (test : Evaluation α → Bool) (h : (match e.evaluate x wantJacobian s with
      | .ok r _ => r.any test
      | .error _ _ => false) = true) :
    ∃ ev t, e.evaluate x wantJacobian s = .ok (some ev) t ∧ test ev = true := by
  split at h
  · rename_i r t hr
    obtain ⟨ev, rfl, hev⟩ := (Option.any_eq_true test r).mp h
    exact ⟨ev, t, hr, hev⟩
  · cases h

namespace Gallery

/-- A block that is drawn towards a distant point, with a loss that gives way. -/
def distant (α : Type) [Scalar α] : Problem α Unit where
  slots := #[⟨0, some { values := .ofList [0] }⟩]
  residuals := #[some ⟨[⟨0, 0⟩], anchor (.ofList [4.0]), some (.huber 1)⟩]
  numBlocks := 1
  numResidualBlocks := 1

theorem reachable_distant : (distant α).Reachable := by
  have h : Problem.Reachable (α := α) (σ := Unit) .empty := .empty
  have h := h.addBlock (.inr (show 0 < UInt32.size by decide)) (.ofList [0])
  exact h.addResidual (i := ⟨0⟩) (show Problem.addResidual _ (anchor (.ofList [4.0]))
    (some (.huber 1)) [⟨0, 0⟩] = .ok (_, _) from rfl)

theorem pure_distant : (distant α).Pure := by
  intro i r hr
  match i with
  | ⟨0⟩ =>
      cases hr
      exact CostFunction.pure_stateless _ _ _
  | ⟨n + 1⟩ => cases hr

/-- Asked for with a Jacobian or without, the residuals are different ones. -/
theorem exists_evaluations_distant : ∃ e : Evaluator Float Unit,
    Evaluator.create (distant Float) (.ofProblem (distant Float)) .denseQR 0 none = .ok e ∧
    (∃ full t', e.evaluate (.ofList [0]) true ⟨(), 0⟩ = .ok (some full) t' ∧
      (full.residuals.get 0 != -4.0) = true) ∧
    ∃ plain t', e.evaluate (.ofList [0]) false ⟨(), 0⟩ = .ok (some plain) t' ∧
      (plain.residuals.get 0 == -4.0) = true := by
  refine ⟨_, rfl, ?_, ?_⟩
  · refine Evaluator.exists_evaluation_of_test (fun ev => ev.residuals.get 0 != -4.0) ?_
    decide +kernel
  · refine Evaluator.exists_evaluation_of_test (fun ev => ev.residuals.get 0 == -4.0) ?_
    decide +kernel

end Gallery

/-- Without a Jacobian the residuals of a residual block with a loss stand in the
evaluation as the cost function gave them, not corrected for the loss. -/
theorem Evaluator.not_residuals_corrected : ∃ (e : Evaluator Float Unit) (ev : Evaluation Float)
    (r : ResidualBlock Float Unit) (o : CostOutput Float) (t' : Tally Unit),
    (Gallery.distant Float).Reachable ∧
    create (Gallery.distant Float) (.ofProblem (Gallery.distant Float)) .denseQR 0 none = .ok e ∧
    e.evaluate (.ofList [0]) false ⟨(), 0⟩ = .ok (some ev) t' ∧
    (Gallery.distant Float).residual? ⟨0⟩ = some r ∧
    (r.cost.evaluate [.ofList [0]] false ()).1 = some o ∧
    ev.residuals.slice 0 1 ≠ ResidualEvaluation.correct r.loss o.residuals := by
  obtain ⟨e, hcreate, -, ev, t', hev, htest⟩ := Gallery.exists_evaluations_distant
  refine ⟨e, ev, _, _, t', Gallery.reachable_distant, hcreate, hev, rfl, rfl, fun heq => ?_⟩
  have hslice : (ev.residuals.slice 0 1).get 0 = ev.residuals.get 0 :=
    Vec.get_slice Nat.one_pos
  rw [← hslice, heq] at htest
  exact absurd htest (by decide +kernel)

end LeastSquares
