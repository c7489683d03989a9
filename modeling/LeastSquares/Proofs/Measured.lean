import LeastSquares.Proofs.Cost
import LeastSquares.Proofs.Exploration

/-!
# Costs that were found

A minimizer knows a cost from an evaluation. The state then had the right
size, and if cost functions are pure, every later evaluation at the same
state finds the same cost, whatever the users' state is by then and whether
Jacobians are asked for or not.

## Main definitions

* `Evaluator.Finds` — an evaluation at a state has found a cost.
* `Minimized` — what a run of a minimizer comes to.

## Main results

* `Evaluator.returns_measured` — what an evaluation finds.
-/

namespace LeastSquares

namespace Evaluator

variable {α σ : Type} [Scalar α] {e : Evaluator α σ} {x : Vec α} {c c' : α}
  {wantJacobian : Bool}

/-- An evaluation at the state has found this cost. -/
def Finds (e : Evaluator α σ) (x : Vec α) (c : α) : Prop :=
  ∃ wantJacobian t ev t', e.evaluate x wantJacobian t = .ok (some ev) t' ∧ ev.cost = c

theorem Finds.size (h : e.Finds x c) : x.size = e.numParameters := by
  obtain ⟨_, t, ev, t', hev, -⟩ := h
  unfold evaluate at hev
  split at hev
  · cases hev
  · rename_i hsize
    exact not_not.mp hsize

theorem Finds.cost (h : e.Finds x c) (he : e.Pure) (u : σ) : e.cost? u x = some c := by
  obtain ⟨_, t, ev, t', hev, rfl⟩ := h
  exact (e.returns_evaluate he u _ _ hev).1 ev.cost rfl

theorem Finds.unique (he : e.Pure) (u : σ) (h : e.Finds x c) (h' : e.Finds x c') : c = c' :=
  Option.some.inj ((h.cost he u).symm.trans (h'.cost he u))

/-- Among pure cost functions every evaluation without Jacobians finds the cost
that one evaluation has found. -/
theorem Finds.returns_evaluate (h : e.Finds x c) (he : e.Pure) {t : Tally σ} :
    Returns (e.evaluate x false) t fun r _ => ∃ ev, r = some ev ∧ ev.cost = c := by
  intro r t' hr
  have hcost := ((e.returns_evaluate he t.user) r t' hr).2 rfl
  rw [h.cost he t.user] at hcost
  exact Option.map_eq_some_iff.mp hcost

theorem returns_evaluate_finds {t : Tally σ} : Returns (e.evaluate x wantJacobian) t fun r _ =>
    ∀ ev, r = some ev → e.Finds x ev.cost := by
  rintro r t' hr ev rfl
  exact ⟨wantJacobian, t, ev, t', hr, rfl⟩

/-- An evaluation with Jacobians comes with gradient and Jacobian. -/
theorem exists_of_assemble {terms : List (TermEvaluation α)} {ev : Evaluation α}
    (h : e.assemble true terms = some ev) :
    ∃ gradient jacobian, ev = ⟨ev.cost, ev.residuals, some gradient, some jacobian⟩ := by
  unfold assemble at h
  dsimp only at h
  split at h
  · cases h
    exact ⟨_, _, rfl⟩
  · cases h

theorem returns_evaluate_full {t : Tally σ} : Returns (e.evaluate x true) t fun r _ =>
    ∀ ev, r = some ev →
      ∃ gradient jacobian, ev = ⟨ev.cost, ev.residuals, some gradient, some jacobian⟩ := by
  unfold evaluate
  split
  · exact returns_pure.mpr nofun
  · rw [returns_bind]
    refine fun results t' _ => returns_pure.mpr fun ev hev => ?_
    obtain ⟨terms, -, hterms⟩ := Option.bind_eq_some_iff.mp hev
    exact exists_of_assemble hterms

/-- What a measured evaluation comes to: it finds the cost if it finds
anything, and it is counted then. -/
structure Measures (e : Evaluator α σ) (counts : EvaluationCounts) (x : Vec α)
    (wantJacobian : Bool) (w : World α σ) (r : Option (Evaluation α) × EvaluationCounts)
    (w' : World α σ) : Prop where
  explores : e.Explores w w'
  found : ∀ ev, r.1 = some ev → e.Finds x ev.cost
  full : wantJacobian = true → ∀ ev, r.1 = some ev →
    ∃ gradient jacobian, ev = ⟨ev.cost, ev.residuals, some gradient, some jacobian⟩
  counted : r.2.jacobian = counts.jacobian + if wantJacobian && r.1.isSome then 1 else 0

theorem returns_measured {counts : EvaluationCounts} {w : World α σ} :
    Returns (e.measured counts x wantJacobian) w (e.Measures counts x wantJacobian w) := by
  unfold measured
  simp only [returns_bind, Run.returns_now, Run.returns_ofCalls, Run.returns_since]
  intro r t hr
  have hexplores : e.Explores w (Run.tick { Run.tick w with tally := t }) :=
    ((Explores.tick w).evaluate (.refl e) hr).look
  have hfound := returns_evaluate_finds r t hr
  have hfull : wantJacobian = true → ∀ ev, r = some ev →
      ∃ gradient jacobian, ev = ⟨ev.cost, ev.residuals, some gradient, some jacobian⟩ := by
    rintro rfl
    exact returns_evaluate_full r t hr
  cases r with
  | none =>
      have hnone : ∀ ev : Evaluation α, none ≠ some ev := fun ev hev => by cases hev
      exact returns_pure.mpr ⟨hexplores, fun ev hev => absurd hev (hnone ev),
        fun _ ev hev => absurd hev (hnone ev), by simp⟩
  | some ev =>
      refine returns_pure.mpr ⟨hexplores, fun ev' hev' => hfound ev' hev',
        fun hwant ev' hev' => hfull hwant ev' hev', ?_⟩
      cases wantJacobian <;> simp [EvaluationCounts.record]

theorem finds_of_map {evaluation : Option (Evaluation α)}
    (h : ∀ ev, evaluation = some ev → e.Finds x ev.cost) :
    ∀ c, evaluation.map Evaluation.cost = some c → e.Finds x c := by
  intro c hc
  obtain ⟨ev, hev, rfl⟩ := Option.map_eq_some_iff.mp hc
  exact h ev hev

end Evaluator

/-- What a run of a minimizer comes to: its records are those that were
reported, each with a state at which its cost was found, and so is the state
that it recommends, if the problem is to take it over. -/
structure Minimized {α σ : Type} [Scalar α] [ScalarText α] (e : Evaluator α σ)
    (pipeline : Pipeline α σ) (result : MinimizerSummary α) (trace : Trace α)
    (w w' : World α σ) : Prop where
  reports : e.Reports pipeline trace w w'
  records : result.history.records = trace.map Prod.fst
  found : ∀ entry ∈ trace, e.Finds entry.2 entry.1.cost
  best : result.termination.writesBack = true → ∃ c, e.Finds result.best c

theorem Minimized.reported {α σ : Type} [Scalar α] [ScalarText α] {e : Evaluator α σ}
    {pipeline : Pipeline α σ} {result : MinimizerSummary α} {trace : Trace α} {w w' : World α σ}
    (h : Minimized e pipeline result trace w w') : Reported pipeline trace w w' :=
  h.reports.reported

end LeastSquares
