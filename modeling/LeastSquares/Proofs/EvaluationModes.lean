import LeastSquares.Proofs.EvaluationLayout

/-!
# Evaluations with Jacobian and without

Of one state an evaluation with Jacobian and one without tell the same cost, if cost
functions are pure. They do not tell the same residuals: with a Jacobian every residual
block comes corrected for its loss, and without one it comes as it is. So the two agree
where the correction changes nothing, in particular on residual blocks without a loss.

## Main definitions

* `Evaluator.part` — the residuals of one term.

## Main results

* `Evaluator.evaluate_modes` — how the two evaluations compare.
-/

namespace LeastSquares

namespace Evaluator

open ResidualEvaluation (correct)

variable {α σ : Type} [Scalar α] {e : Evaluator α σ} {x : Vec α} {wantJacobian : Bool}

/-- The residuals of the term that stands at an index. -/
def part (e : Evaluator α σ) (residuals : Vec α) (i : Nat) (t : ResidualTerm α σ) : Vec α :=
  residuals.slice (total ((e.terms.take i).map fun t => t.cost.numResiduals)) t.cost.numResiduals

/-- Pure cost functions answer with the same residuals whatever is asked for. -/
theorem Pure.forall₂_outputs (he : e.Pure) (u : σ) {outs : List (CostOutput α)} {s s' : Tally σ}
    (h : e.outputs x wantJacobian s = .ok (outs.map some) s') :
    List.Forall₂ (fun t o => (t.cost.evaluate (e.pointOf x t) false u).1.map CostOutput.residuals =
      some o.residuals) e.terms outs := by
  have hall : Returns (e.outputs x wantJacobian) s fun answers _ => List.Forall₂
      (fun t answer => (t.cost.evaluate (e.pointOf x t) false u).1.map CostOutput.residuals =
        answer.map CostOutput.residuals) e.terms answers ∧ True :=
    Returns.mapM (I := fun _ => True) (fun t ht _ _ =>
      CostFunction.returns_evaluateChecked.mono fun answer _ hanswer =>
        ⟨hanswer ▸ he t ht _ _ _ _ _, trivial⟩) trivial
  have hanswers := (hall _ _ h).1
  rwa [List.forall₂_map_right_iff] at hanswers

/-- What an evaluation finds in its parts: the residuals of the terms, corrected with a
Jacobian, for residuals that do not depend on what is asked for. -/
theorem Pure.part_residuals (he : e.Pure) (u : σ) {ev : Evaluation α} {s s' : Tally σ}
    (h : e.evaluate x wantJacobian s = .ok (some ev) s') : ∃ parts : List (Vec α),
      ev.residuals = Vec.concat parts ∧ ev.residuals.size = e.numResiduals ∧
      parts.length = e.terms.length ∧
      ∀ (i : Nat) t, e.terms[i]? = some t → ∃ raw,
        (t.cost.evaluate (e.pointOf x t) false u).1.map CostOutput.residuals = some raw ∧
        parts[i]? = some (if wantJacobian then correct t.loss raw else raw) ∧
        e.part ev.residuals i t = if wantJacobian then correct t.loss raw else raw := by
  obtain ⟨-, outs, tes, houtputs, hassemble, hyields⟩ := exists_outputs h
  obtain ⟨-, rfl⟩ := assemble_eq_some_iff.mp hassemble
  refine ⟨tes.map TermEvaluation.residuals, rfl, ?_,
    (List.length_map _).trans hyields.length_right, fun i t ht => ?_⟩
  · rw [Vec.size_concat, List.map_map]
    exact congrArg total hyields.map_size_residuals
  obtain ⟨o, te, ho, hte, hy⟩ := hyields.exists_yields ht
  obtain ⟨o', ho', hraw⟩ := exists_getElem?_of_forall₂ (he.forall₂_outputs u houtputs) ht
  rw [ho] at ho'
  cases ho'
  refine ⟨o.residuals, hraw, ?_, (hyields.slice_residuals ht hte).trans hy.residuals⟩
  rw [List.getElem?_map, hte, Option.map_some, hy.residuals]

/-- Among pure cost functions an evaluation with Jacobian and one without find the same
cost and as many residuals. The residuals of a term are those without Jacobian,
corrected for its loss. So the two are the same where the correction changes nothing. -/
theorem evaluate_modes (he : e.Pure) {full plain : Evaluation α} {s s' t t' : Tally σ}
    (hfull : e.evaluate x true s = .ok (some full) s')
    (hplain : e.evaluate x false t = .ok (some plain) t') :
    full.cost = plain.cost ∧
    full.residuals.size = e.numResiduals ∧ plain.residuals.size = e.numResiduals ∧
    (∀ (i : Nat) term, e.terms[i]? = some term →
      e.part full.residuals i term = correct term.loss (e.part plain.residuals i term)) ∧
    (full.residuals = plain.residuals ↔ ∀ (i : Nat) term, e.terms[i]? = some term →
      correct term.loss (e.part plain.residuals i term) = e.part plain.residuals i term) := by
  obtain ⟨parts, hparts, hsize, hlen, hall⟩ := he.part_residuals s.user hfull
  obtain ⟨parts', hparts', hsize', hlen', hall'⟩ := he.part_residuals s.user hplain
  have hpart : ∀ (i : Nat) term, e.terms[i]? = some term →
      e.part full.residuals i term = correct term.loss (e.part plain.residuals i term) ∧
      parts[i]? = some (correct term.loss (e.part plain.residuals i term)) ∧
      parts'[i]? = some (e.part plain.residuals i term) := by
    intro i term hterm
    obtain ⟨raw, hraw, hget, hfullPart⟩ := hall i term hterm
    obtain ⟨raw', hraw', hget', hplainPart⟩ := hall' i term hterm
    rw [hraw] at hraw'
    cases hraw'
    rw [hplainPart]
    exact ⟨hfullPart, hget, hget'⟩
  refine ⟨?_, hsize, hsize', fun i term hterm => (hpart i term hterm).1,
    fun heq i term hterm => ?_, fun hsame => ?_⟩
  · have hcost := (e.returns_evaluate he s.user _ _ hfull).1 full.cost rfl
    have hcost' := (e.returns_evaluate he s.user _ _ hplain).1 plain.cost rfl
    exact Option.some.inj (hcost.symm.trans hcost')
  · rw [← (hpart i term hterm).1, heq]
  · rw [hparts, hparts']
    refine congrArg Vec.concat (List.ext_getElem? fun i => ?_)
    cases hterm : e.terms[i]? with
    | none =>
        have hle := List.getElem?_eq_none_iff.mp hterm
        rw [List.getElem?_eq_none (hlen ▸ hle), List.getElem?_eq_none (hlen' ▸ hle)]
    | some term =>
        obtain ⟨-, hget, hget'⟩ := hpart i term hterm
        rw [hget, hget', hsame i term hterm]

/-- A block with a loss that gives way, at a state where it does. -/
theorem evaluate_modes_distant : ∃ (e : Evaluator ℝ Unit) (term : ResidualTerm ℝ Unit)
    (full plain : Evaluation ℝ) (s t : Tally Unit),
    create (Gallery.distant ℝ) (.ofProblem (Gallery.distant ℝ)) .denseQR 0 none = .ok e ∧
    e.terms = [term] ∧ term.loss.isSome = true ∧
    e.evaluate (.ofList [0]) true ⟨(), 0⟩ = .ok (some full) s ∧
    e.evaluate (.ofList [0]) false ⟨(), 0⟩ = .ok (some plain) t ∧
    full.cost = plain.cost ∧ full.residuals.size = e.numResiduals ∧
    e.part full.residuals 0 term = correct term.loss (e.part plain.residuals 0 term) := by
  obtain ⟨e, term, full, plain, s, t, hcreate, hterms, hloss, hfull, hplain⟩ :
      ∃ (e : Evaluator ℝ Unit) (term : ResidualTerm ℝ Unit) (full plain : Evaluation ℝ)
        (s t : Tally Unit),
        create (Gallery.distant ℝ) (.ofProblem (Gallery.distant ℝ)) .denseQR 0 none = .ok e ∧
        e.terms = [term] ∧ term.loss.isSome = true ∧
        e.evaluate (.ofList [0]) true ⟨(), 0⟩ = .ok (some full) s ∧
        e.evaluate (.ofList [0]) false ⟨(), 0⟩ = .ok (some plain) t := by
    with_unfolding_all exact ⟨_, _, _, _, _, _, rfl, rfl, rfl, rfl, rfl⟩
  have hpure : e.Pure := (create_eq_ok hcreate).1.pure Gallery.pure_distant
  obtain ⟨hcost, hsize, -, hparts, -⟩ := evaluate_modes hpure hfull hplain
  exact ⟨e, term, full, plain, s, t, hcreate, hterms, hloss, hfull, hplain, hcost, hsize,
    hparts 0 term (by rw [hterms]; rfl)⟩

/-- The residuals of one state depend on whether a Jacobian is asked for. -/
theorem not_modes_agree : ∃ (e : Evaluator Float Unit) (full plain : Evaluation Float)
    (s t : Tally Unit),
    create (Gallery.distant Float) (.ofProblem (Gallery.distant Float)) .denseQR 0 none = .ok e ∧
    e.Pure ∧
    e.evaluate (.ofList [0]) true ⟨(), 0⟩ = .ok (some full) s ∧
    e.evaluate (.ofList [0]) false ⟨(), 0⟩ = .ok (some plain) t ∧
    full.residuals ≠ plain.residuals := by
  obtain ⟨e, hcreate, ⟨full, s, hfull, htest⟩, plain, t, hplain, htest'⟩ :=
    Gallery.exists_evaluations_distant
  refine ⟨e, full, plain, s, t, hcreate, (create_eq_ok hcreate).1.pure Gallery.pure_distant, hfull,
    hplain, fun heq => ?_⟩
  rw [heq, bne, htest'] at htest
  cases htest

end Evaluator

end LeastSquares
