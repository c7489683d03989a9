import LeastSquares.Proofs.BlockDescent
import LeastSquares.Proofs.InnerOrder
import LeastSquares.Proofs.RunCompletion

/-!
# What inner iterations are good for

A sweep over groups whose blocks share no terms never raises the cost, lowers
it if it moves a block, and touches nothing but the blocks of its groups. The
groups that a solve makes, from the order of a user or from the blocks left to
it, are of this kind.

## Main definitions

* `Evaluator.Swept` — what a sweep makes of a state.

## Main results

* `CoordinateDescent.sweep_descends` — sweeps, and the groups of a solve.
-/

namespace LeastSquares

/-- What a sweep over the blocks of some columns makes of a state of a known
cost: a state that differs only in these blocks, and at which every evaluation
finds a cost that is not higher, and lower if a block was moved. -/
structure Evaluator.Swept {σ : Type} (e : Evaluator ℝ σ) (columns : List Nat) (x : Vec ℝ)
    (cost : ℝ) (r : Nat × Vec ℝ) : Prop where
  size : r.2.size = x.size
  outside : ∀ i, (∀ k ∈ columns, ∀ b, e.blocks[k]? = some b →
    ¬ (b.stateOffset ≤ i ∧ i < b.stateOffset + b.size)) → r.2.get i = x.get i
  cost : ∀ t, Returns (e.evaluate r.2 false) t fun found _ =>
    ∃ ev, found = some ev ∧ ev.cost ≤ cost ∧ (0 < r.1 → ev.cost < cost)

namespace CoordinateDescent

section Sweeps

variable {σ : Type} [ScalarText ℝ] {e : Evaluator ℝ σ} {c : CoordinateDescent} {x : Vec ℝ}
  {w : World ℝ σ} {t t' : Tally σ} {ev : Evaluation ℝ}

/-- A sweep from a state that can be evaluated. -/
theorem returns_sweep_swept (he : e.Pure) (hplaced : e.Placed) (hc : c.Independent e)
    (hev : e.evaluate x false t = .ok (some ev) t') :
    Returns (c.sweep e x) w fun r _ => e.Swept c.groups.flatten x ev.cost r := by
  have hfinds : e.Finds x ev.cost := ⟨false, t, ev, t', hev, rfl⟩
  intro r w' hr
  have hlowers : ∀ u, e.Lowers u c.groups.flatten (0, x) r := fun u =>
    returns_sweep_lowers he hplaced hc hfinds.size u _ _ hr
  refine ⟨(hlowers t.user).size, (hlowers t.user).outside, fun s found s' hfound => ?_⟩
  obtain ⟨cost, hcost, hle, hlt⟩ := (hlowers s.user).cost ev.cost (hfinds.cost he s.user)
  have htells := (Evaluator.returns_evaluate he s.user found s' hfound).2 rfl
  obtain ⟨ev', rfl, rfl⟩ := Option.map_eq_some_iff.mp (htells.trans hcost)
  exact ⟨ev', rfl, hle, hlt⟩

/-- A sweep of an evaluator that cannot break leads somewhere, and to a state
whose evaluation does not break either. -/
theorem succeeds_sweep_swept (he : e.Pure) (hrobust : e.Robust) (hc : c.Independent e)
    (hev : e.evaluate x false t = .ok (some ev) t') :
    Succeeds (c.sweep e x) w fun r _ => e.Swept c.groups.flatten x ev.cost r ∧
      ∀ s, Succeeds (e.evaluate r.2 false) s fun found _ =>
        ∃ ev', found = some ev' ∧ ev'.cost ≤ ev.cost ∧ (0 < r.1 → ev'.cost < ev.cost) := by
  have hsize : x.size = e.numParameters :=
    Evaluator.Finds.size ⟨false, t, ev, t', hev, rfl⟩
  refine ((succeeds_sweep hrobust real_defaultBounds hsize c).and
    (returns_sweep_swept he hrobust.placed hc hev)).mono fun r w' ⟨_, hswept⟩ => ?_
  exact ⟨hswept, fun s => (hrobust.succeeds_evaluate.and (hswept.cost s)).mono fun _ _ h => h.2⟩

/-- Sweeps descend. From a state that can be evaluated, a sweep over groups
without shared terms leads to one that differs only in the blocks of the
groups, at which evaluations find no higher cost, and a lower one if a block
was moved. It cannot break unless gradients are checked and cost functions do
not keep to their declarations. The groups that a solve makes are of this
kind, be the order a user's or its own. -/
theorem sweep_descends {p : Problem ℝ σ} {g : Program} {kind : LinearSolverKind}
    {eliminated : Nat} {check : Option (GradientCheck ℝ)} (hp : p.Reachable)
    (hcreate : Evaluator.create p g kind eliminated check = .ok e) :
    (∀ (c : CoordinateDescent) (x : Vec ℝ) (t t' : Tally σ) (ev : Evaluation ℝ), e.Pure →
      c.Independent e → e.evaluate x false t = .ok (some ev) t' →
      (∀ w, Returns (c.sweep e x) w fun r _ => e.Swept c.groups.flatten x ev.cost r) ∧
      (check = none ∨ (∀ term ∈ e.terms, term.cost.Shaped) →
        ∀ w, Succeeds (c.sweep e x) w fun r _ => e.Swept c.groups.flatten x ev.cost r ∧
          ∀ s, Succeeds (e.evaluate r.2 false) s fun found _ =>
            ∃ ev', found = some ev' ∧ ev'.cost ≤ ev.cost ∧ (0 < r.1 → ev'.cost < ev.cost))) ∧
    ∀ (o : SolveOptions ℝ) (r : ReducedProgram ℝ) (c : CoordinateDescent)
      (order : EliminationOrder), r.program = g →
      (∀ order, o.innerOrder = some order → order.Reachable) →
      o.innerIterations p r e = .ok (some (c, order)) → c.Independent e := by
  obtain ⟨hmade, -, rfl⟩ := Evaluator.create_eq_ok hcreate
  refine ⟨fun c x t t' ev he hc hev => ⟨fun w => returns_sweep_swept he hmade.placed hc hev,
    fun hcheck w => ?_⟩, fun o r c order hr ho hinner => ?_⟩
  · exact succeeds_sweep_swept he (hmade.robust hp.coherent hcheck) hc hev
  · subst hr
    exact o.independent_of_innerIterations hmade hp.sound ho hinner

end Sweeps

private theorem exists_inner_anchored : ∃ e c order ev t',
    Evaluator.create (Gallery.anchored ℝ) (.ofProblem (Gallery.anchored ℝ)) .denseQR 0 none =
      .ok e ∧
    SolveOptions.innerIterations {} (Gallery.anchored ℝ)
      ⟨.ofProblem (Gallery.anchored ℝ), 0, .denseQR, .jacobi, .empty⟩ e = .ok (some (c, order)) ∧
    e.evaluate (Vec.ofList [(4 : ℝ), 7]) false ⟨(), 0⟩ = .ok (some ev) t' := by
  with_unfolding_all exact ⟨_, _, _, _, _, rfl, rfl, rfl⟩

/-- A sweep over both blocks, in the order that is found for them. -/
theorem sweep_descends_anchored : ∃ e c order ev t',
    Evaluator.create (Gallery.anchored ℝ) (.ofProblem (Gallery.anchored ℝ)) .denseQR 0 none =
      .ok e ∧
    SolveOptions.innerIterations {} (Gallery.anchored ℝ)
      ⟨.ofProblem (Gallery.anchored ℝ), 0, .denseQR, .jacobi, .empty⟩ e = .ok (some (c, order)) ∧
    e.evaluate (Vec.ofList [(4 : ℝ), 7]) false ⟨(), 0⟩ = .ok (some ev) t' ∧
    c.Independent e ∧ Succeeds (c.sweep e (Vec.ofList [(4 : ℝ), 7])) (Gallery.anchoredWorld ℝ)
      fun r _ => e.Swept c.groups.flatten (Vec.ofList [(4 : ℝ), 7]) ev.cost r := by
  obtain ⟨e, c, order, ev, t', hcreate, hinner, hev⟩ := exists_inner_anchored
  have hpure : e.Pure := (Evaluator.create_eq_ok hcreate).1.pure Gallery.pure_anchored
  obtain ⟨hsweep, hmade⟩ := sweep_descends Gallery.reachable_anchored hcreate
  have hc : c.Independent e := hmade {} _ c order rfl (fun _ horder => by cases horder) hinner
  refine ⟨e, c, order, ev, t', hcreate, hinner, hev, hc, ?_⟩
  exact ((hsweep c _ _ _ ev hpure hc hev).2 (.inl rfl) _).mono fun _ _ h => h.1

end CoordinateDescent

end LeastSquares
