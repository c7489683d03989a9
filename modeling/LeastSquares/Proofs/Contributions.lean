import LeastSquares.Proofs.Answers
import LeastSquares.Proofs.Jacobian

/-!
# Contributions of terms

An evaluation calls every cost function once, in the order of the terms, and adds up
what the terms make of the answers. If blocks, terms and template fit together, then
nothing else can happen in between: the calls are all that may break, and the result
is a function of the answers.

## Main definitions

* `Evaluator.outputs` — the raw answers of all terms.
* `Evaluator.Yields`, `Evaluator.YieldsAll` — the contributions of one term and of all,
  given the raw answers.
* `Evaluator.contribution?`, `Evaluator.contributions?` — contributions as functions of
  the answers.

## Main results

* `Evaluator.exists_outputs` — an evaluation rests on raw answers.
* `Evaluator.WellFormed.evaluate_eq` — an evaluation as a function of the answers.
-/

namespace LeastSquares

namespace Evaluator

variable {α σ : Type} [Scalar α] {e : Evaluator α σ} {x : Vec α} {wantJacobian : Bool}
  {t : ResidualTerm α σ} {o : CostOutput α} {te : TermEvaluation α}

/-- The raw answers of the cost functions at a state, in the order of the
terms. -/
def outputs (e : Evaluator α σ) (x : Vec α) (wantJacobian : Bool) :
    Calls σ (List (Option (CostOutput α))) :=
  e.terms.mapM fun t => t.cost.evaluateChecked e.check (e.pointOf x t) wantJacobian

/-- The contribution of a term whose cost function has given an answer that
counts. -/
structure Yields (e : Evaluator α σ) (x : Vec α) (wantJacobian : Bool) (t : ResidualTerm α σ)
    (o : CostOutput α) (te : TermEvaluation α) : Prop where
  accepts : t.cost.Accepts wantJacobian o
  cost : te.cost = ResidualEvaluation.costOf t.loss o.residuals
  residuals : te.residuals =
    if wantJacobian then ResidualEvaluation.correct t.loss o.residuals else o.residuals
  cells : e.cellsOf (t.sources.zip
    ((if wantJacobian then
        (ResidualEvaluation.corrected t.loss o.residuals (o.jacobians.getD [])).2
      else []).zip (e.pointOf x t))) = .ok te.cells

theorem yields_of_ofOutput? {r : ResidualEvaluation α} {cells : List (Cell α)}
    (hr : ResidualEvaluation.ofOutput? t.cost t.loss wantJacobian o = some r)
    (hcells : e.cellsOf (t.sources.zip ((r.jacobians.getD []).zip (e.pointOf x t))) =
      .ok cells) : e.Yields x wantJacobian t o ⟨r.cost, r.residuals, cells⟩ := by
  obtain ⟨haccepts, rfl⟩ := ResidualEvaluation.ofOutput?_eq_some_iff.mp hr
  refine ⟨haccepts, rfl, rfl, ?_⟩
  rw [← hcells]
  cases wantJacobian <;> rfl

theorem Yields.size_residuals (h : e.Yields x wantJacobian t o te) :
    te.residuals.size = t.cost.numResiduals := by
  rw [h.residuals, ← h.accepts.size]
  split
  · exact ResidualEvaluation.size_correct _ _
  · rfl

theorem exists_output {r : Option (TermEvaluation α)} {s s' : Tally σ}
    (h : e.evaluateTerm x wantJacobian t s = .ok r s') :
    ∃ output, t.cost.evaluateChecked e.check (e.pointOf x t) wantJacobian s = .ok output s' ∧
      ∀ te, r = some te → ∃ o, output = some o ∧ e.Yields x wantJacobian t o te := by
  rw [evaluateTerm, eStateM_bind_apply, CostFunction.residualEvaluation, eStateM_bind_apply] at h
  cases houtput : t.cost.evaluateChecked e.check (e.pointOf x t) wantJacobian s with
  | error f u =>
      rw [houtput] at h
      cases h
  | ok output u =>
      rw [houtput] at h
      dsimp only [EStateM.pure, pure] at h
      cases hr : output.bind (ResidualEvaluation.ofOutput? t.cost t.loss wantJacobian) with
      | none =>
          rw [hr] at h
          cases h
          refine ⟨output, rfl, fun te hte => ?_⟩
          cases hte
      | some r' =>
          rw [hr] at h
          dsimp only at h
          cases hcells : e.cellsOf
              (t.sources.zip ((r'.jacobians.getD []).zip (e.pointOf x t))) with
          | error f =>
              rw [hcells] at h
              cases h
          | ok cells =>
              rw [hcells] at h
              cases h
              refine ⟨output, rfl, fun te hte => ?_⟩
              cases hte
              obtain ⟨o, ho, hofOutput⟩ := Option.bind_eq_some_iff.mp hr
              exact ⟨o, ho, yields_of_ofOutput? hofOutput hcells⟩

/-- The contributions of all terms, given the raw answers. -/
structure YieldsAll (e : Evaluator α σ) (x : Vec α) (wantJacobian : Bool)
    (outs : List (CostOutput α)) (tes : List (TermEvaluation α)) : Prop where
  length : outs.length = e.terms.length
  forall₂ : List.Forall₂ (fun c te => e.Yields x wantJacobian c.1 c.2 te) (e.terms.zip outs) tes

namespace YieldsAll

variable {outs : List (CostOutput α)} {tes : List (TermEvaluation α)} {i : Nat}
  (h : e.YieldsAll x wantJacobian outs tes)

include h

theorem length_right : tes.length = e.terms.length := by
  rw [← h.forall₂.length_eq, List.length_zip, h.length, Nat.min_self]

theorem yields (ht : e.terms[i]? = some t) (hte : tes[i]? = some te) :
    ∃ o, outs[i]? = some o ∧ e.Yields x wantJacobian t o te := by
  obtain ⟨⟨t', o⟩, hzip, hy⟩ := exists_getElem?_of_forall₂ h.forall₂.flip hte
  obtain ⟨ht', ho⟩ := List.getElem?_zip_eq_some.mp hzip
  rw [ht] at ht'
  cases ht'
  exact ⟨o, ho, hy⟩

theorem exists_yields (ht : e.terms[i]? = some t) :
    ∃ o te, outs[i]? = some o ∧ tes[i]? = some te ∧ e.Yields x wantJacobian t o te := by
  have hi := h.length_right.symm ▸ (List.getElem?_eq_some_iff.mp ht).1
  obtain ⟨o, ho, hy⟩ := h.yields ht (List.getElem?_eq_getElem hi)
  exact ⟨o, _, ho, List.getElem?_eq_getElem hi, hy⟩

theorem map_cost : tes.map TermEvaluation.cost =
    (e.terms.zip outs).map fun c => ResidualEvaluation.costOf c.1.loss c.2.residuals :=
  (map_eq_map_of_forall₂ h.forall₂ fun _ _ hy => hy.cost.symm).symm

theorem map_size_residuals :
    tes.map (fun te => te.residuals.size) = e.terms.map fun t => t.cost.numResiduals := by
  have hfst := congrArg (List.map fun t => t.cost.numResiduals) (List.map_fst_zip h.length.ge)
  rw [List.map_map] at hfst
  exact (map_eq_map_of_forall₂ h.forall₂ fun _ _ hy => hy.size_residuals.symm).symm.trans hfst

/-- The residuals of a term stand behind those of the terms before it. -/
theorem slice_residuals (ht : e.terms[i]? = some t) (hte : tes[i]? = some te) :
    (Vec.concat (tes.map TermEvaluation.residuals)).slice
      (total ((e.terms.take i).map fun t => t.cost.numResiduals)) t.cost.numResiduals =
        te.residuals := by
  obtain ⟨o, -, hy⟩ := h.yields ht hte
  have hvec : (tes.map TermEvaluation.residuals)[i]? = some te.residuals := by
    rw [List.getElem?_map, hte, Option.map_some]
  have hslice := Vec.slice_concat hvec
  rw [List.map_take, List.map_map, hy.size_residuals] at hslice
  rw [List.map_take, ← h.map_size_residuals]
  exact hslice

end YieldsAll

/-- An evaluation adds up the contributions of all terms, and these rest on
the raw answers that the cost functions give at the state. -/
theorem exists_outputs {ev : Evaluation α} {s s' : Tally σ}
    (h : e.evaluate x wantJacobian s = .ok (some ev) s') :
    x.size = e.numParameters ∧ ∃ (outs : List (CostOutput α)) (tes : List (TermEvaluation α)),
      e.outputs x wantJacobian s = .ok (outs.map some) s' ∧
      e.assemble wantJacobian tes = some ev ∧ e.YieldsAll x wantJacobian outs tes := by
  unfold evaluate at h
  split at h
  · cases h
  · rename_i hsize
    refine ⟨not_not.mp hsize, ?_⟩
    rw [eStateM_bind_apply] at h
    cases hresults : e.terms.mapM (e.evaluateTerm x wantJacobian) s with
    | error f u =>
        rw [hresults] at h
        cases h
    | ok results u =>
        rw [hresults] at h
        injection h with hev hu
        subst hu
        obtain ⟨tes, htes, hassemble⟩ := Option.bind_eq_some_iff.mp hev
        rw [mapM_id_eq_some_iff] at htes
        subst htes
        obtain ⟨answers, hanswers, hlen, hall⟩ :=
          mapM_eq_ok_of_steps (fun t _ r s s' h => exists_output h) hresults
        rw [List.forall₂_map_right_iff] at hall
        obtain ⟨outs, rfl, hyields⟩ :=
          exists_of_forall₂_zip (R := e.Yields x wantJacobian) hlen
            (hall.imp fun _ te hy => hy te rfl)
        exact ⟨outs, tes, hanswers, hassemble, (List.length_map some).symm.trans hlen, hyields⟩

theorem assemble_eq_some_iff {tes : List (TermEvaluation α)} {ev : Evaluation α} :
    e.assemble wantJacobian tes = some ev ↔
      Scalar.isFinite (tes.foldl (fun cost te => cost + te.cost) 0) = true ∧
        ev = ⟨tes.foldl (fun cost te => cost + te.cost) 0,
          Vec.concat (tes.map TermEvaluation.residuals),
          if wantJacobian then
            some ((fill e.template tes).leftMultiply
              (Vec.concat (tes.map TermEvaluation.residuals)))
          else none,
          if wantJacobian then some (fill e.template tes) else none⟩ := by
  unfold assemble
  dsimp only
  split
  · rename_i hfinite
    cases wantJacobian <;>
      simp only [hfinite, Bool.false_eq_true, if_false, if_true, Option.some.injEq, true_and,
        eq_comm]
  · rename_i hfinite
    exact ⟨nofun, fun h => absurd h.1 hfinite⟩

/-! ## Terms that fit together -/

/-- With Jacobians, those of an answer have the shapes of the terms, also after the
correction. -/
theorem Yields.shapes (h : e.Yields x true t o te) : List.Forall₂
    (fun j size => j.rows = t.cost.numResiduals ∧ j.cols = size)
    (ResidualEvaluation.corrected t.loss o.residuals (o.jacobians.getD [])).2 t.cost.sizes := by
  obtain ⟨js, hjs, hshapes⟩ := h.accepts.jacobians rfl
  rw [hjs, Option.getD_some]
  refine forall₂_of_common (ResidualEvaluation.forall₂_corrected_snd t.loss o.residuals js) hshapes
    fun j j' size hj hsize => ?_
  exact ⟨hj.1.trans hsize.1.1, hj.2.trans hsize.1.2⟩

/-- The cells of a contribution fit into the row of the term. -/
theorem Yields.fitsRow (h : e.Yields x true t o te) (he : e.WellFormed) (ht : t ∈ e.terms) :
    e.FitsRow t te.cells :=
  he.fitsRow ht h.shapes h.cells

theorem YieldsAll.fitsRow {outs : List (CostOutput α)} {tes : List (TermEvaluation α)}
    (h : e.YieldsAll x true outs tes) (he : e.WellFormed) (i : Nat) (t : ResidualTerm α σ)
    (te : TermEvaluation α) (ht : e.terms[i]? = some t) (hte : tes[i]? = some te) :
    e.FitsRow t te.cells := by
  obtain ⟨o, -, hy⟩ := h.yields ht hte
  exact hy.fitsRow he (List.mem_of_getElem? ht)

/-- What a term makes of an answer. -/
def contribution? (e : Evaluator α σ) (x : Vec α) (wantJacobian : Bool) (t : ResidualTerm α σ)
    (o : CostOutput α) : Option (TermEvaluation α) :=
  (ResidualEvaluation.ofOutput? t.cost t.loss wantJacobian o).bind fun r =>
    (e.cellsOf (t.sources.zip ((r.jacobians.getD []).zip (e.pointOf x t)))).toOption.map
      fun cells => ⟨r.cost, r.residuals, cells⟩

theorem contribution?_eq_some_iff :
    e.contribution? x wantJacobian t o = some te ↔ e.Yields x wantJacobian t o te := by
  rw [contribution?, Option.bind_eq_some_iff]
  constructor
  · rintro ⟨r, hr, hmap⟩
    obtain ⟨cells, hcells, rfl⟩ := Option.map_eq_some_iff.mp hmap
    exact yields_of_ofOutput? hr (except_toOption_eq_some.mp hcells)
  · intro h
    refine ⟨_, ResidualEvaluation.ofOutput?_of_accepts h.accepts, Option.map_eq_some_iff.mpr
      ⟨te.cells, except_toOption_eq_some.mpr ?_, ?_⟩⟩
    · rw [← h.cells]
      cases wantJacobian <;> rfl
    · rw [← h.cost, ← h.residuals]

/-- An answer that counts makes a contribution. -/
theorem WellFormed.exists_yields (he : e.WellFormed) (x : Vec α)
    (h : t.cost.Accepts wantJacobian o) : ∃ te, e.Yields x wantJacobian t o te := by
  obtain ⟨cells, hcells⟩ := he.exists_cells x t _
  exact ⟨⟨_, _, cells⟩, h, rfl, rfl, hcells⟩

/-- What the terms make of all answers, none if one of them does not count. -/
def contributions? (e : Evaluator α σ) (x : Vec α) (wantJacobian : Bool)
    (answers : List (Option (CostOutput α))) : Option (List (TermEvaluation α)) :=
  (List.zipWith (fun t (answer : Option (CostOutput α)) =>
    answer.bind (e.contribution? x wantJacobian t)) e.terms answers).mapM id

theorem contributions?_eq_some_iff {answers : List (Option (CostOutput α))}
    {tes : List (TermEvaluation α)} (hlen : answers.length = e.terms.length) :
    e.contributions? x wantJacobian answers = some tes ↔
      ∃ outs, answers = outs.map some ∧ e.YieldsAll x wantJacobian outs tes := by
  rw [contributions?, mapM_zipWith_eq_some_iff hlen]
  simp only [contribution?_eq_some_iff]
  refine exists_congr fun outs => and_congr_right fun houts => ?_
  rw [houts, List.length_map] at hlen
  exact ⟨fun hyields => ⟨hlen, hyields⟩, YieldsAll.forall₂⟩

/-- A term is evaluated by a call. -/
theorem WellFormed.evaluateTerm_eq (he : e.WellFormed) (x : Vec α) (wantJacobian : Bool)
    (t : ResidualTerm α σ) : e.evaluateTerm x wantJacobian t =
      (t.cost.evaluateChecked e.check (e.pointOf x t) wantJacobian >>= fun answer =>
        pure (answer.bind (e.contribution? x wantJacobian t))) := by
  rw [evaluateTerm, CostFunction.residualEvaluation, bind_assoc]
  refine bind_congr fun answer => ?_
  rw [pure_bind]
  cases answer with
  | none => rfl
  | some o =>
      rw [Option.bind_some, Option.bind_some, contribution?]
      cases ResidualEvaluation.ofOutput? t.cost t.loss wantJacobian o with
      | none => rfl
      | some r =>
          obtain ⟨cells, hcells⟩ := he.exists_cells x t (r.jacobians.getD [])
          rw [Option.bind_some]
          dsimp only
          rw [hcells]
          rfl

/-- An evaluation makes its calls, and its result is a function of the answers. -/
theorem WellFormed.evaluate_eq (he : e.WellFormed) (hx : x.size = e.numParameters)
    (wantJacobian : Bool) : e.evaluate x wantJacobian =
      (e.outputs x wantJacobian >>= fun answers =>
        pure ((e.contributions? x wantJacobian answers).bind (e.assemble wantJacobian))) := by
  rw [evaluate, if_neg (not_not.mpr hx),
    show e.evaluateTerm x wantJacobian = fun t => _ from
      funext (he.evaluateTerm_eq x wantJacobian),
    mapM_bind_pure, bind_assoc]
  simp only [pure_bind, outputs, contributions?]

end Evaluator

end LeastSquares
