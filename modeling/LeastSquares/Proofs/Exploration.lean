import LeastSquares.Evaluator
import LeastSquares.Proofs.Reports

/-!
# Stretches of evaluations

Between two reports a minimizer looks at the clock and evaluates states, and
it does nothing else. The evaluations are those of its evaluator, or of
evaluators that call no other cost functions, such as the restrictions to
single blocks that inner iterations work with. A callback is run for a report
and at no other time.

## Main definitions

* `Evaluator.Shares` — one evaluator calls no other cost functions than another.
* `Evaluator.Explores` — a stretch of looks at the clock and evaluations.
* `Evaluator.Reports` — such a stretch with the reports in it.

## Main results

* `Evaluator.Reports.reported` — what happens between reports is quiet.
* `Evaluator.shares_of_restrictTo?` — a restriction calls no other cost functions.
-/

namespace LeastSquares.Evaluator

variable {α σ : Type} [Scalar α] {e f g : Evaluator α σ} {w w' w'' : World α σ}

/-! ## Cost functions -/

/-- The cost functions of the second evaluator are all among those of the
first one. -/
def Shares (e f : Evaluator α σ) : Prop := ∀ t ∈ f.terms, t.cost ∈ e.terms.map ResidualTerm.cost

theorem Shares.refl (e : Evaluator α σ) : e.Shares e := fun _ ht => List.mem_map_of_mem ht

theorem Shares.trans (h : e.Shares f) (h' : f.Shares g) : e.Shares g := by
  intro t ht
  obtain ⟨t', ht', hcost⟩ := List.mem_map.mp (h' t ht)
  exact hcost ▸ h t' ht'

theorem shares_restrictTo (e : Evaluator α σ) (column : Nat) (x : Vec α) :
    e.Shares (e.restrictTo column x) := by
  intro t ht
  obtain ⟨t', ht', rfl⟩ := List.mem_map.mp ht
  exact List.mem_map.mpr ⟨t', (List.mem_filter.mp ht').1, rfl⟩

theorem restrictTo?_eq_ok {column : Nat} {x : Vec α} (h : e.restrictTo? column x = .ok f) :
    f = e.restrictTo column x := by
  unfold restrictTo? at h
  split at h
  · cases h
    rfl
  · cases h

theorem shares_of_restrictTo? {column : Nat} {x : Vec α} (h : e.restrictTo? column x = .ok f) :
    e.Shares f := restrictTo?_eq_ok h ▸ e.shares_restrictTo column x

/-! ## Looks at the clock and evaluations -/

/-- A stretch in which the clock is looked at and states are evaluated, by
evaluators that call no other cost functions than this one. -/
inductive Explores (e : Evaluator α σ) (w : World α σ) : World α σ → Prop
  | rest : Explores e w w
  | look {w' : World α σ} (h : Explores e w w') : Explores e w (Run.tick w')
  | evaluate {w' : World α σ} (h : Explores e w w') {f : Evaluator α σ} (hf : e.Shares f)
      {x : Vec α} {wantJacobian : Bool} {r : Option (Evaluation α)} {t : Tally σ}
      (hr : f.evaluate x wantJacobian w'.tally = .ok r t) :
      Explores e w { w' with tally := t }

namespace Explores

theorem trans (h : e.Explores w w') (h' : e.Explores w' w'') : e.Explores w w'' := by
  induction h' with
  | rest => exact h
  | look _ ih => exact ih.look
  | evaluate _ hf hr ih => exact ih.evaluate hf hr

theorem tick (w : World α σ) : e.Explores w (Run.tick w) := rest.look

/-- What an evaluator with fewer cost functions explores. -/
theorem share (hf : e.Shares f) (h : f.Explores w w') : e.Explores w w' := by
  induction h with
  | rest => exact rest
  | look _ ih => exact ih.look
  | evaluate _ hg hr ih => exact ih.evaluate (hf.trans hg) hr

theorem quiet (h : e.Explores w w') : w.Quiet w' := by
  induction h with
  | rest => exact .refl w
  | look _ ih => exact ih.trans (World.quiet_tick _)
  | evaluate _ _ _ ih => exact ih.trans rfl

end Explores

/-! ## Reports -/

/-- A stretch in which these reports are shown to the stages, each of them
once and in this order, with nothing but evaluations before, between and
after them. -/
inductive Reports [ScalarText α] (e : Evaluator α σ) (pipeline : Pipeline α σ) :
    Trace α → World α σ → World α σ → Prop
  | done {w w' : World α σ} (h : e.Explores w w') : Reports e pipeline [] w w'
  | report {record : IterationRecord α} {x : Vec α} {trace : Trace α}
      {w w1 w2 w' : World α σ} {d : Decision} (before : e.Explores w w1)
      (shown : pipeline.run record x w1 = .ok d w2) (after : Reports e pipeline trace w2 w') :
      Reports e pipeline ((record, x) :: trace) w w'

namespace Reports

variable [ScalarText α] {pipeline : Pipeline α σ} {trace : Trace α}

theorem explore (hw : e.Explores w w') (h : Reports e pipeline trace w' w'') :
    Reports e pipeline trace w w'' := by
  cases h with
  | done h => exact .done (hw.trans h)
  | report before shown after => exact .report (hw.trans before) shown after

theorem reported (h : Reports e pipeline trace w w') : Reported pipeline trace w w' := by
  induction h with
  | done h => exact .done h.quiet
  | report before shown _ ih => exact .report before.quiet shown ih

/-- Without stages there are evaluations and nothing else. -/
theorem explores_of_empty (h : Reports e ({} : Pipeline α σ) trace w w') : e.Explores w w' := by
  induction h with
  | done h => exact h
  | report before shown _ ih =>
      cases shown
      exact before.trans ih

end Reports

end LeastSquares.Evaluator
