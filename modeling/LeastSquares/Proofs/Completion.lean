import LeastSquares.Proofs.Loop
import LeastSquares.Proofs.Probing
import LeastSquares.Proofs.Restriction

/-!
# Evaluations that cannot break

An evaluation breaks where matrices are multiplied whose sizes do not fit, or
where a gradient check finds answers of another shape than was declared. The
first cannot happen in an evaluator of a coherent problem, and the second not
if cost functions keep to their declarations at points of the declared sizes,
or if gradients are not checked.

## Main definitions

* `CostFunction.Shaped` — answers have the declared shapes.
* `Evaluator.Robust` — evaluations cannot break.
* `Evaluator.LaidOut` — Jacobian and gradient have the right size.

## Main results

* `CostFunction.Shaped.succeeds_evaluateChecked` — gradient checks.
* `Evaluator.Robust.succeeds_measured` — evaluations.
-/

namespace LeastSquares

variable {α σ : Type} [Scalar α]

/-! ## Gradient checks -/

namespace CostFunction

variable {f : CostFunction α σ} {point : List (Vec α)} {t : Tally σ}

/-- At points of the declared sizes all answers have the declared number of
residuals, and Jacobians of the declared shapes. -/
def Shaped (f : CostFunction α σ) : Prop :=
  ∀ point, point.map Vec.size = f.sizes → ∀ jacobians u output,
    (f.evaluate point jacobians u).1 = some output →
      output.residuals.size = f.numResiduals ∧
      ∀ js, output.jacobians = some js → ∀ (i : Nat) j n, js[i]? = some j → f.sizes[i]? = some n →
        j.rows = f.numResiduals ∧ j.cols = n

omit [Scalar α] in
theorem sizes_moved (point : List (Vec α)) (block coordinate : Nat) (a : α) :
    (moved point block coordinate a).map Vec.size = point.map Vec.size := by
  refine List.ext_getElem? fun i => ?_
  rw [moved, List.getElem?_map, List.getElem?_map, List.getElem?_modify]
  cases point[i]? with
  | none => rfl
  | some v =>
      by_cases hi : block = i
      · simp [hi]
      · simp [hi]

section Calls

omit [Scalar α]

theorem Shaped.succeeds_residualsAt (hf : f.Shaped) (hpoint : point.map Vec.size = f.sizes) :
    Succeeds (f.residualsAt point).run t fun r _ => ∀ v, r = some v → v.size = f.numResiduals := by
  show Succeeds (f.call point false >>= fun output => pure (output.map CostOutput.residuals)) t _
  rw [succeeds_bind]
  refine succeeds_call (succeeds_pure.mpr fun v hv => ?_)
  obtain ⟨output, houtput, rfl⟩ := Option.map_eq_some_iff.mp hv
  exact (hf point hpoint false t.user output houtput).1

end Calls

theorem Shaped.succeeds_numericColumn (hf : f.Shaped) (hpoint : point.map Vec.size = f.sizes)
    (step : α) (block coordinate : Nat) :
    Succeeds (f.numericColumn step point block coordinate).run t fun _ _ => True := by
  have hmoved : ∀ a, (moved point block coordinate a).map Vec.size = f.sizes := fun a =>
    (sizes_moved point block coordinate a).trans hpoint
  rw [numericColumn, succeeds_optionT_bind]
  refine (hf.succeeds_residualsAt (hmoved _)).mono ?_
  rintro (_ | forward) t1 hforward
  · trivial
  · dsimp only
    rw [succeeds_optionT_bind]
    refine (hf.succeeds_residualsAt (hmoved _)).mono ?_
    rintro (_ | backward) t2 hbackward
    · trivial
    · dsimp only
      rw [if_pos ⟨hforward _ rfl, hbackward _ rfl⟩]
      exact succeeds_pure.mpr trivial

theorem Shaped.succeeds_numericJacobian (hf : f.Shaped) (hpoint : point.map Vec.size = f.sizes)
    (step : α) (block : Nat) :
    Succeeds (f.numericJacobian step point block).run t fun r _ => ∀ m, r = some m →
      m.rows = f.numResiduals ∧ m.cols = (point.getD block default).size := by
  rw [numericJacobian, succeeds_optionT_bind]
  refine (Succeeds.mapM_optionT (P := fun _ _ => True) fun j _ t1 =>
    (hf.succeeds_numericColumn hpoint step block j).mono fun _ _ _ _ _ => trivial).mono ?_
  rintro (_ | columns) t1 -
  · intro m hm
    cases hm
  · refine succeeds_pure.mpr fun m hm => ?_
    cases hm
    exact ⟨rfl, rfl⟩

theorem Shaped.succeeds_numericJacobians (hf : f.Shaped) (hpoint : point.map Vec.size = f.sizes)
    (step : α) : Succeeds (f.numericJacobians step point) t fun r _ => ∀ ms, r = some ms →
      List.Forall₂ (fun i m => m.rows = f.numResiduals ∧ m.cols = (point.getD i default).size)
        (List.range point.length) ms := by
  rw [numericJacobians_eq]
  exact Succeeds.mapM_optionT fun block _ _ => hf.succeeds_numericJacobian hpoint step block

/-- A comparison breaks only where entries are missing. -/
theorem succeeds_countMismatches {check : GradientCheck α} {l : List (Mat α × Mat α)}
    (h : ∀ c ∈ l, GradientCheck.covers c.1 c.2 = true) :
    Succeeds (check.countMismatches l : Calls σ Unit) t fun _ _ => True := by
  induction l generalizing t with
  | nil => exact succeeds_pure.mpr trivial
  | cons c l ih =>
      obtain ⟨analytic, numeric⟩ := c
      have hrest := fun c hc => h c (List.mem_cons_of_mem (analytic, numeric) hc)
      rw [GradientCheck.countMismatches, if_pos (h (analytic, numeric) (by simp))]
      split
      · rw [succeeds_bind]
        exact ⟨_, _, rfl, ih hrest⟩
      · exact ih hrest

/-- A gradient check of a cost function that keeps to its declarations. -/
theorem Shaped.succeeds_evaluateChecked (hf : f.Shaped) (hpoint : point.map Vec.size = f.sizes)
    {check : Option (GradientCheck α)} {wantJacobians : Bool} :
    Succeeds (f.evaluateChecked check point wantJacobians) t fun _ _ => True := by
  rw [evaluateChecked, succeeds_bind]
  refine succeeds_call ?_
  dsimp only
  split
  · rename_i _ _ check _ js houtput
    rw [succeeds_bind, GradientCheck.compare, succeeds_bind]
    refine (hf.succeeds_numericJacobians hpoint check.relativeStep).mono ?_
    rintro (_ | numeric) t1 hnumeric
    · exact succeeds_pure.mpr (succeeds_pure.mpr trivial)
    · refine (succeeds_countMismatches fun c hc => ?_).mono fun _ _ _ => succeeds_pure.mpr trivial
      obtain ⟨i, hi⟩ := List.mem_iff_getElem?.mp hc
      obtain ⟨hj, hm⟩ := List.getElem?_zip_eq_some.mp hi
      obtain ⟨k, hk, hrows, hcols⟩ := exists_getElem?_of_forall₂ (hnumeric numeric rfl).flip hm
      obtain ⟨hlt, rfl⟩ := List.getElem?_eq_some_iff.mp hk
      rw [List.length_range] at hlt
      rw [List.getElem_range] at hcols
      have hsize : f.sizes[i]? = some (point.getD i default).size := by
        rw [← hpoint, List.getElem?_map, List.getElem?_eq_getElem hlt, Option.map_some,
          List.getD_eq_getElem?_getD, List.getElem?_eq_getElem hlt, Option.getD_some]
      obtain ⟨hrows', hcols'⟩ :=
        (hf point hpoint wantJacobians t.user _ houtput).2 js rfl i _ _ hj hsize
      simp only [GradientCheck.covers, hrows, hcols, hrows', hcols', le_refl, decide_true,
        Bool.and_self, Bool.or_true]
  · exact succeeds_pure.mpr trivial

end CostFunction

/-! ## Evaluations -/

namespace Evaluator

variable {e : Evaluator α σ} {b : FreeBlock α} {k : Nat} {x : Vec α} {wantJacobian : Bool}
  {t : ResidualTerm α σ} {s : Tally σ}

/-- Evaluations cannot break: blocks, points and terms fit together, and
gradients are not checked, or of cost functions only that keep to their
declarations. -/
structure Robust (e : Evaluator α σ) : Prop where
  wellFormed : e.WellFormed
  placed : e.Placed
  sized : e.Sized
  checkable : e.check = none ∨ ∀ t ∈ e.terms, t.cost.Shaped

theorem MadeOf.robust {p : Problem α σ} {g : Program} (h : e.MadeOf p g) (hp : p.Coherent)
    (hcheck : e.check = none ∨ ∀ t ∈ e.terms, t.cost.Shaped) : e.Robust :=
  ⟨h.wellFormed hp, h.placed, h.sized hp, hcheck⟩

theorem Robust.restrictTo (he : e.Robust) (hb : e.blocks[k]? = some b) :
    (e.restrictTo k x).Robust := by
  refine ⟨he.wellFormed.restrictTo hb, Placed.restrictTo hb, he.sized.restrictTo hb,
    he.checkable.imp_right fun hshaped t ht => ?_⟩
  obtain ⟨t', ht', rfl⟩ := exists_of_mem_terms_restrictTo ht
  exact hshaped t' ht'

theorem Robust.succeeds_evaluateTerm (he : e.Robust) (ht : t ∈ e.terms) :
    Succeeds (e.evaluateTerm x wantJacobian t) s fun _ _ => True := by
  rw [evaluateTerm, succeeds_bind]
  have hevaluated : Succeeds (t.cost.residualEvaluation t.loss e.check (e.pointOf x t) wantJacobian)
      s fun _ _ => True := by
    rcases he.checkable with hnone | hshaped
    · rw [hnone]
      exact CostFunction.succeeds_unchecked.mono fun _ _ _ => trivial
    · rw [CostFunction.residualEvaluation, succeeds_bind]
      exact ((hshaped t ht).succeeds_evaluateChecked (he.sized t ht x)).mono fun _ _ _ =>
        succeeds_pure.mpr trivial
  refine hevaluated.mono ?_
  rintro (_ | r) s1 -
  · exact succeeds_pure.mpr trivial
  · obtain ⟨cells, hcells⟩ := he.wellFormed.exists_cells x t (r.jacobians.getD [])
    dsimp only
    rw [hcells]
    exact succeeds_pure.mpr trivial

/-- Jacobian and gradient have the columns that were laid out. -/
structure LaidOut (e : Evaluator α σ) (ev : Evaluation α) : Prop where
  jacobian : ∀ jacobian, ev.jacobian = some jacobian → jacobian.columns = e.template.columns
  gradient : ∀ gradient, ev.gradient = some gradient → gradient.size = e.template.numCols

/-- An evaluation cannot break. -/
theorem Robust.succeeds_evaluate (he : e.Robust) :
    Succeeds (e.evaluate x wantJacobian) s fun r _ => ∀ ev, r = some ev → e.LaidOut ev := by
  unfold evaluate
  split
  · exact succeeds_pure.mpr nofun
  · rw [succeeds_bind]
    refine (Succeeds.mapM (I := fun _ => True) (P := fun _ _ => True)
      (fun t ht s1 _ => (he.succeeds_evaluateTerm ht).mono
        fun _ _ _ => ⟨trivial, trivial⟩) trivial).mono fun results s1 _ => ?_
    refine succeeds_pure.mpr fun ev hev => ?_
    obtain ⟨terms, -, hassemble⟩ := Option.bind_eq_some_iff.mp hev
    unfold assemble at hassemble
    dsimp only at hassemble
    split at hassemble
    · split at hassemble
      · cases hassemble
        refine ⟨fun jacobian hjacobian => ?_, fun gradient hgradient => ?_⟩
        · cases hjacobian
          rfl
        · cases hgradient
          exact (fill e.template terms).size_leftMultiply _
      · cases hassemble
        refine ⟨fun jacobian hjacobian => ?_, fun gradient hgradient => ?_⟩
        · cases hjacobian
        · cases hgradient
    · cases hassemble

/-- A measured evaluation cannot break, and what it finds has the columns that
were laid out. -/
theorem Robust.succeeds_measured (he : e.Robust) {counts : EvaluationCounts} {w : World α σ} :
    Succeeds (e.measured counts x wantJacobian) w fun r w' =>
      (∀ ev, r.1 = some ev → e.LaidOut ev) ∧ e.Measures counts x wantJacobian w r w' := by
  refine Succeeds.and ?_ e.returns_measured
  unfold measured
  simp only [succeeds_bind]
  refine Run.succeeds_now (Run.succeeds_ofCalls ?_)
  refine he.succeeds_evaluate.mono fun r s hr => ?_
  refine Run.succeeds_since ?_
  cases r with
  | none =>
      refine succeeds_pure.mpr fun ev hev => ?_
      cases hev
  | some ev => exact succeeds_pure.mpr hr

end Evaluator

end LeastSquares
