import LeastSquares.Cost.Evaluation
import LeastSquares.Proofs.Traversal

/-!
# Answers of cost functions

A cost function may answer anything. An answer counts if it has the declared number
of residuals, if these are finite and, if Jacobians are asked for, if there is a
finite one of the right shape for every block. Any other answer is as good as none.
Of an answer that counts the cost is the one of its residuals. Asked for with
Jacobians, residuals and Jacobians come corrected for the loss, and without them the
residuals come as the cost function gave them.

## Main definitions

* `CostFunction.Accepts` — an answer that counts.
* `ResidualEvaluation.correct` — residuals corrected for a loss.

## Main results

* `ResidualEvaluation.ofOutput?_eq_some_iff` — what an answer means.
-/

namespace LeastSquares

variable {α σ : Type} [Scalar α]

/-! ## Answers that count -/

/-- An answer that counts. -/
structure CostFunction.Accepts (f : CostFunction α σ) (wantJacobians : Bool)
    (o : CostOutput α) : Prop where
  size : o.residuals.size = f.numResiduals
  finite : o.residuals.isFinite = true
  jacobians : wantJacobians = true → ∃ js, o.jacobians = some js ∧
    List.Forall₂ (fun j n => (j.rows = f.numResiduals ∧ j.cols = n) ∧ j.isFinite = true) js f.sizes

theorem CostOutput.jacobians?_eq_some_iff {o : CostOutput α} {n : Nat} {sizes : List Nat}
    {js : List (Mat α)} :
    o.jacobians? n sizes = some js ↔ o.jacobians = some js ∧
      List.Forall₂ (fun j size => (j.rows = n ∧ j.cols = size) ∧ j.isFinite = true) js sizes := by
  have hfits : ∀ js : List (Mat α), (js.length = sizes.length ∧
      (js.zip sizes).all (fun c => c.1.hasShape n c.2 && c.1.isFinite) = true) ↔
        List.Forall₂ (fun j size => (j.rows = n ∧ j.cols = size) ∧ j.isFinite = true) js sizes := by
    intro js
    rw [List.forall₂_iff_zip, List.all_eq_true]
    refine and_congr_right fun _ => ⟨fun h j size hmem => ?_, fun h c hmem => ?_⟩
    · have hshape := h (j, size) hmem
      simpa only [Mat.hasShape, Bool.and_eq_true, beq_iff_eq] using hshape
    · obtain ⟨j, size⟩ := c
      simpa only [Mat.hasShape, Bool.and_eq_true, beq_iff_eq] using h hmem
  unfold jacobians?
  cases o.jacobians with
  | none => exact ⟨nofun, nofun⟩
  | some js' =>
      dsimp only
      split
      · rename_i h
        rw [Option.some.injEq]
        exact ⟨fun heq => ⟨heq, heq ▸ (hfits js').mp h⟩, And.left⟩
      · rename_i h
        refine ⟨nofun, ?_⟩
        rintro ⟨heq, hshapes⟩
        obtain rfl := Option.some.inj heq
        exact absurd ((hfits _).mpr hshapes) h

namespace ResidualEvaluation

variable {f : CostFunction α σ} {loss : Option (Loss α)} {wantJacobians : Bool}
  {o : CostOutput α} {js : List (Mat α)}

/-- Residuals corrected for a loss. -/
def correct (loss : Option (Loss α)) (residuals : Vec α) : Vec α := (corrected loss residuals []).1

theorem corrected_fst (loss : Option (Loss α)) (residuals : Vec α) (js : List (Mat α)) :
    (corrected loss residuals js).1 = correct loss residuals := by
  cases loss <;> rfl

theorem size_correct (loss : Option (Loss α)) (residuals : Vec α) :
    (correct loss residuals).size = residuals.size := by
  cases loss with
  | none => rfl
  | some loss => exact Vec.size_scale _ _

/-- A correction does not change the shapes of Jacobians. -/
theorem forall₂_corrected_snd (loss : Option (Loss α)) (residuals : Vec α) (js : List (Mat α)) :
    List.Forall₂ (fun j j' : Mat α => j'.rows = j.rows ∧ j'.cols = j.cols) js
      (corrected loss residuals js).2 := by
  cases loss with
  | none => exact List.forall₂_same.mpr fun _ _ => ⟨rfl, rfl⟩
  | some loss =>
      rw [corrected, List.forall₂_map_right_iff, List.forall₂_same]
      intro j _
      unfold Corrector.correctJacobian
      split <;> exact ⟨rfl, rfl⟩

/-- An answer that counts has the cost of its residuals. With Jacobians all of it
is corrected for the loss, without them nothing is. -/
theorem ofOutput?_of_accepts (h : f.Accepts wantJacobians o) :
    ofOutput? f loss wantJacobians o = some ⟨costOf loss o.residuals,
      if wantJacobians then correct loss o.residuals else o.residuals,
      if wantJacobians then some (corrected loss o.residuals (o.jacobians.getD [])).2
      else none⟩ := by
  have hfit : o.residualsFit f.numResiduals = true := by
    rw [CostOutput.residualsFit, Bool.and_eq_true, beq_iff_eq]
    exact ⟨h.size, h.finite⟩
  unfold ofOutput?
  rw [hfit, if_neg (by simp)]
  cases wantJacobians with
  | false => rfl
  | true =>
      obtain ⟨js, hjs, hshapes⟩ := h.jacobians rfl
      rw [if_pos rfl, CostOutput.jacobians?_eq_some_iff.mpr ⟨hjs, hshapes⟩, hjs]
      simp only [corrected_fst, Option.getD_some, if_true]

/-- Any other answer means nothing. -/
theorem ofOutput?_eq_none (h : ¬f.Accepts wantJacobians o) :
    ofOutput? f loss wantJacobians o = none := by
  unfold ofOutput?
  split
  · rfl
  · rename_i hfit
    simp only [CostOutput.residualsFit, Bool.not_eq_true', Bool.not_eq_false, Bool.and_eq_true,
      beq_iff_eq] at hfit
    split
    · split
      · rfl
      · rename_i js hjs
        exact absurd ⟨hfit.1, hfit.2, fun _ => ⟨js, CostOutput.jacobians?_eq_some_iff.mp hjs⟩⟩ h
    · rename_i hwant
      exact absurd ⟨hfit.1, hfit.2, fun htrue => absurd htrue hwant⟩ h

/-- What an answer means. -/
theorem ofOutput?_eq_some_iff {r : ResidualEvaluation α} :
    ofOutput? f loss wantJacobians o = some r ↔ f.Accepts wantJacobians o ∧
      r = ⟨costOf loss o.residuals,
        if wantJacobians then correct loss o.residuals else o.residuals,
        if wantJacobians then some (corrected loss o.residuals (o.jacobians.getD [])).2
        else none⟩ := by
  by_cases h : f.Accepts wantJacobians o
  · rw [ofOutput?_of_accepts h, Option.some.injEq]
    exact ⟨fun heq => ⟨h, heq.symm⟩, fun heq => heq.2.symm⟩
  · rw [ofOutput?_eq_none h]
    exact ⟨nofun, fun heq => absurd heq.1 h⟩

end ResidualEvaluation

end LeastSquares
