import LeastSquares.Proofs.Real
import LeastSquares.Proofs.Reduction
import LeastSquares.Solve.Assembly

/-!
# Reduction keeps the objective

The evaluator of a reduced program never looks at the problem again. Still
its cost at a state, on top of the fixed cost, is the cost that the problem
has once it holds this state: terms that were set aside read nothing that
can move, and every other term is evaluated at the same point, wherever its
blocks stand in the reduced program. Adding the terms up in another order
does not change the sum, since arithmetic is exact.

## Main definitions

* `Problem.CostIs` — what evaluating the cost of a problem comes to.

## Main results

* `ReducedProgram.cost?_eq` — the cost in a problem that holds a state.
* `evaluate_reduced_eq_evaluateCost` — the two ways to evaluate agree.
-/

namespace LeastSquares

variable {σ : Type}

/-- Whoever evaluates the cost of the problem finds this cost, or fails in
words if there is none. -/
def Problem.CostIs {α : Type} [Scalar α] (p : Problem α σ) (cost : Option α) : Prop :=
  ∀ t, ∃ r t', p.evaluateCost.run t = .ok r t' ∧ r.toOption = cost

/-- Pure problems that agree in values have the same cost. -/
theorem Problem.Pure.costIs {α : Type} [Scalar α] {p : Problem α σ} (hp : p.Pure)
    {cost : Option α} (h : ∀ u, p.cost? u = cost) : p.CostIs cost := by
  intro t
  obtain ⟨r, t', hr, hcost⟩ := hp.succeeds_evaluateCost (t := t) t.user
  exact ⟨r, t', hr, hcost.trans (h t.user)⟩

theorem real_filter_isFinite (cost : Option ℝ) : cost.filter Scalar.isFinite = cost := by
  cases cost <;> rfl

namespace Evaluator

/-- The terms of an evaluator have the costs that their residual blocks have
in a problem that holds the state. -/
theorem MadeOf.termCosts {α : Type} [Scalar α] {e : Evaluator α σ} {p q : Problem α σ}
    {g : Program} (h : e.MadeOf p g) (hs : p.SameShape q) {x : Vec α} (hq : g.Holds q x)
    (hout : ∀ id, id ∉ g.blocks → q.values id = p.values id) (u : σ) :
    g.residuals.map (q.residualCost? u) = e.terms.map (e.termCost? u x) := by
  refine map_eq_map_of_forall₂ h.forall₂_terms fun i t ht => ?_
  obtain ⟨r, hr, hcost, hloss, hpoint⟩ := h.mapM_values hs hq hout ht
  rw [Problem.residualCost?_eq u hr hpoint, termCost?, hcost, hloss]

end Evaluator

namespace ReducedProgram

variable {p q p' : Problem ℝ σ} {r : ReducedProgram ℝ} {removal : Removal ℝ}
  {e : Evaluator ℝ σ} {y : Vec ℝ}

/-- Residual blocks that were set aside read nothing that the reduced program
moves. -/
theorem fixedCosts (hremoval : removal.Of p (Program.ofProblem p)) (hr : r.Of p q removal)
    (hs : q.SameShape p') (hout : ∀ id, id ∉ r.program.blocks → p'.values id = q.values id)
    {fixed : List ResidualId}
    (hfixed : ∀ i ∈ fixed, p.Readable i ∧ ∀ id, ¬ p.ReadsFree i id) (u : σ) :
    fixed.map (p'.residualCost? u) = fixed.map (p.residualCost? u) := by
  refine List.map_congr_left fun i hi => ?_
  obtain ⟨hread, hfree⟩ := hfixed i hi
  refine Problem.residualCost?_congr u ?_ fun block hblock id hid => ?_
  · rw [hs.residual?, hr.content.residual?]
  · rw [hout id fun hmem => ?_, hr.content.values_eq]
    obtain ⟨-, j, -, block', -, -, b, hb, hconst⟩ :=
      (hremoval.mem_blocks id).mp (hr.blocks.mem_iff.mp hmem)
    exact hfree id ⟨block, hblock, hid, b, hb, hconst⟩

/-- The cost of a problem that holds a state is the fixed cost and the cost
that the evaluator has at this state. -/
theorem cost?_eq (hp : p.Pure) (hremoval : removal.Of p (Program.ofProblem p))
    (hr : r.Of p q removal) (he : e.MadeOf q r.program) (hs : q.SameShape p')
    (hy : r.program.Holds p' y)
    (hout : ∀ id, id ∉ r.program.blocks → p'.values id = q.values id) (u : σ) :
    p'.cost? u = (e.cost? u y).map fun c => r.fixedCost + c := by
  obtain ⟨fixed, hsplit, hfixed, hcost⟩ := hremoval.residuals
  have hids : p'.residualIds = (Program.ofProblem p).residuals := by
    rw [hs.residualIds, hr.content.residualIds]
    rfl
  have hperm : (p'.residualIds.map (p'.residualCost? u)).Perm
      (fixed.map (p'.residualCost? u) ++ r.program.residuals.map (p'.residualCost? u)) := by
    rw [hids, ← List.map_append]
    exact (hsplit.trans (hr.residuals.symm.append_left fixed)).map _
  have hsize : y.size = e.numParameters := by
    have h1 := hy.size
    rw [Program.numParameters_eq hs, he.numParameters] at h1
    exact (Except.ok.inj h1).symm
  rw [Problem.cost?, addCosts_perm hperm, addCosts_append,
    fixedCosts hremoval hr hs hout hfixed u, hcost hp u, Option.bind_some, ← hr.fixedCost,
    he.termCosts hs hy hout u, addCosts_eq_map, Evaluator.cost?, if_pos hsize,
    real_filter_isFinite, real_zero]

end ReducedProgram

/-- Evaluating the reduced program at a state is evaluating the whole problem
after the state was scattered, up to the fixed cost. Nothing can break, unless
gradients are checked and a cost function gives some without request. -/
theorem evaluate_reduced_eq_evaluateCost {p q : Problem ℝ σ} (hp : p.Pure)
    {o : EliminationOrder} (ho : o.Reachable) {kind : LinearSolverKind}
    {preconditioner : PreconditionerKind} {t t' : Tally σ} {r : ReducedProgram ℝ}
    (hcreate : ReducedProgram.create p (Program.ofProblem p) o kind preconditioner t =
      .ok (.ok r, q) t')
    {check : Option (GradientCheck ℝ)} {e : Evaluator ℝ σ}
    (he : SolveOptions.createEvaluator q r check = .ok e) {y : Vec ℝ}
    (hy : r.program.numParameters q = .ok y.size) :
    ∃ p', r.program.scatter y q = .ok p' ∧
      (∀ t result t', e.evaluate y false t = .ok result t' →
        p'.CostIs (result.map fun ev => r.fixedCost + ev.cost)) ∧
      ((check = none ∨ ∀ i r, p.residual? i = some r → r.cost.OnRequest) →
        ∀ t, ∃ result t', e.evaluate y false t = .ok result t') := by
  obtain ⟨removal, hremoval, hr⟩ :=
    (ReducedProgram.returns_create ho.wellFormed _ _ hcreate).2 r rfl
  obtain ⟨hmade, -, hcheck⟩ := Evaluator.create_eq_ok he
  obtain ⟨p', hscatter, hs, hholds, hout⟩ := Program.scatter_spec hr.nodup hy
  have hp' : p'.Pure := (hp.alike hr.content).alike hs
  have hpure : e.Pure := hmade.pure (hp.alike hr.content)
  have hvalues : ∀ id, id ∉ r.program.blocks → p'.values id = q.values id := fun id hid => by
    rw [Problem.values, Problem.values, Problem.block, Problem.block, hout id hid]
  refine ⟨p', hscatter, fun t result t' hev => hp'.costIs fun u => ?_, fun hquiet t => ?_⟩
  · have htells := Evaluator.returns_evaluate hpure u result t' hev
    rw [ReducedProgram.cost?_eq hp hremoval hr hmade hs hholds hvalues u, ← htells.2 rfl,
      Option.map_map]
    rfl
  · have hquiet' : e.check = none ∨ ∀ t ∈ e.terms, t.cost.OnRequest := by
      refine hquiet.imp hcheck.trans fun h => hmade.forall_cost fun i block hblock => ?_
      exact h i block ((hr.content.residual? i).symm.trans hblock)
    obtain ⟨result, t', hok, -⟩ := e.succeeds_evaluate hpure (x := y) (t := t) t.user hquiet'
    exact ⟨result, t', hok⟩

private theorem exists_reduced_anchored : ∃ q r t' e,
    ReducedProgram.create (Gallery.anchored ℝ) (Program.ofProblem (Gallery.anchored ℝ))
      (.single [⟨0, 0⟩, ⟨1, 0⟩]) .denseQR .jacobi ⟨(), 0⟩ = .ok (.ok r, q) t' ∧
    SolveOptions.createEvaluator q r (some ⟨1, 1⟩) = .ok e ∧
    r.program.numParameters q = .ok (Vec.ofList [(4 : ℝ)]).size :=
  ⟨_, _, _, _, rfl, rfl, rfl⟩

/-- With one of two residual blocks set aside, and gradients to check. -/
theorem evaluate_reduced_anchored : ∃ q r t' e,
    ReducedProgram.create (Gallery.anchored ℝ) (Program.ofProblem (Gallery.anchored ℝ))
      (.single [⟨0, 0⟩, ⟨1, 0⟩]) .denseQR .jacobi ⟨(), 0⟩ = .ok (.ok r, q) t' ∧
    SolveOptions.createEvaluator q r (some ⟨1, 1⟩) = .ok e ∧
    r.program.numParameters q = .ok (Vec.ofList [(4 : ℝ)]).size ∧
    ∃ p', r.program.scatter (Vec.ofList [(4 : ℝ)]) q = .ok p' ∧
      (∀ t result t', e.evaluate (Vec.ofList [(4 : ℝ)]) false t = .ok result t' →
        p'.CostIs (result.map fun ev => r.fixedCost + ev.cost)) ∧
      ∀ t, ∃ result t', e.evaluate (Vec.ofList [(4 : ℝ)]) false t = .ok result t' := by
  obtain ⟨q, r, t', e, hcreate, he, hy⟩ := exists_reduced_anchored
  have horder : (EliminationOrder.single [⟨0, 0⟩, ⟨1, 0⟩]).Reachable :=
    EliminationOrder.reachable_ofList _
  obtain ⟨p', hscatter, hcost, hquiet⟩ :=
    evaluate_reduced_eq_evaluateCost Gallery.pure_anchored horder hcreate he hy
  exact ⟨q, r, t', e, hcreate, he, hy, p', hscatter, hcost,
    hquiet (.inr fun _ _ => Gallery.onRequest_anchored)⟩

end LeastSquares
