import LeastSquares.Minimizer.CoordinateDescent
import LeastSquares.Proofs.TrustRegion
import LeastSquares.Proofs.Traversal

/-!
# Inner iterations only evaluate

A block is optimized by a run of its own, which has no callbacks, with an
evaluator that calls no other cost functions than the one it restricts. So a
sweep over all blocks is a stretch of evaluations.

## Main definitions

* `CoordinateDescent.blockRun` — the run for a single block.
* `CoordinateDescent.Optimizes` — the values that such a run finds.

## Main results

* `CoordinateDescent.returns_solveBlock` — what a block is given.
* `CoordinateDescent.returns_sweep` — a sweep is a stretch of evaluations.
-/

namespace LeastSquares.CoordinateDescent

variable {α σ : Type} [Scalar α] {e : Evaluator α σ} {x : Vec α} {k : Nat} {w : World α σ}

/-- The run for a single block. -/
def blockRun (e : Evaluator α σ) (x : Vec α) (k : Nat) : TrustRegion α σ :=
  ⟨options, e.restrictTo k x, none, {}⟩

theorem innerExplores_blockRun : (blockRun e x k).InnerExplores := by
  intro sweep hsweep
  cases hsweep

variable [ScalarText α]

/-- Better values for a block are those that its own run recommends after
steps that were accepted. -/
inductive Optimizes (e : Evaluator α σ) (x : Vec α) (k : Nat) : Vec α → Prop
  | run {b : FreeBlock α} {states : List (TrustRegion.State α)}
      {summary : MinimizerSummary α} {w w' : World α σ} (block : e.blocks[k]? = some b)
      (visits : (blockRun e x k).Visits (.levenbergMarquardt (.new solver options)) {}
        (b.valuesIn x) w states summary w')
      (writes : summary.termination.writesBack = true)
      (steps : 0 < summary.history.successfulSteps) : Optimizes e x k summary.best

/-- A block is left alone or optimized, and that only evaluates. -/
theorem returns_solveBlock : Returns (solveBlock e x k) w fun r w' =>
    e.Explores w w' ∧ ∀ v, r = some v → Optimizes e x k v := by
  have hnone : ∀ v, none = some v → Optimizes e x k v := fun v hv => by cases hv
  rw [solveBlock, returns_bind, Run.returns_ofFault]
  intro restricted hrestricted
  obtain rfl := Evaluator.restrictTo?_eq_ok hrestricted
  split
  · exact returns_pure.mpr ⟨.rest, hnone⟩
  · split
    · rw [Run.returns_ofFault]
      intro r hr
      cases hr
    · split
      · exact returns_pure.mpr ⟨.rest, hnone⟩
      · rename_i b hb
        dsimp only
        rw [returns_bind]
        refine (TrustRegion.returns_visits (m := blockRun e x k)).mono ?_
        rintro summary w1 ⟨states, hvisits⟩
        have hrun : (e.restrictTo k x).Explores w w1 :=
          (hvisits.minimized innerExplores_blockRun).1.reports.explores_of_empty
        have hexplores := hrun.share (Evaluator.shares_of_restrictTo? hrestricted)
        split
        · rename_i hgood
          simp only [Bool.and_eq_true, decide_eq_true_eq] at hgood
          refine returns_pure.mpr ⟨hexplores, fun v hv => ?_⟩
          cases hv
          exact .run hb hvisits hgood.1 hgood.2
        · exact returns_pure.mpr ⟨hexplores, hnone⟩

theorem returns_sweepGroups {groups : List (List Nat)} {result : Nat × Vec α} :
    Returns (sweepGroups e groups result) w fun _ w' => e.Explores w w' := by
  induction groups generalizing result w with
  | nil => exact returns_pure.mpr .rest
  | cons group groups ih =>
      obtain ⟨updated, x⟩ := result
      rw [sweepGroups, returns_bind]
      refine (Returns.mapM (I := fun w' => e.Explores w w') (P := fun _ _ => True)
        (fun k _ w1 hw1 => returns_solveBlock.mono fun _ w2 hw2 =>
          ⟨trivial, hw1.trans hw2.1⟩) .rest).mono ?_
      rintro better w1 ⟨-, hw1⟩
      exact ih.mono fun _ w2 hw2 => hw1.trans hw2

/-- A sweep is a stretch of evaluations. -/
theorem returns_sweep {c : CoordinateDescent} :
    Returns (c.sweep e x) w fun _ w' => e.Explores w w' := returns_sweepGroups

/-- Inner iterations over groups of blocks only evaluate. -/
theorem innerExplores (o : MinimizerOptions α) (e : Evaluator α σ)
    (inner : Option CoordinateDescent) (callbacks : Pipeline α σ) :
    TrustRegion.InnerExplores ⟨o, e, inner.map fun c => c.sweep e, callbacks⟩ := by
  intro sweep hsweep x w
  obtain ⟨c, -, rfl⟩ := Option.map_eq_some_iff.mp hsweep
  exact returns_sweep

end LeastSquares.CoordinateDescent
