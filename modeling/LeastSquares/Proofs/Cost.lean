import LeastSquares.Cost.Gallery
import LeastSquares.Proofs.Evaluator

/-!
# Costs as functions of the values

A cost function is pure if its residuals depend on the point alone: neither
on what was asked before nor on whether Jacobians are asked for. What it does
with the users' state is its own affair, and its Jacobians may be wrong.
Among pure cost functions a cost is a function of the values, and whoever
evaluates it in whatever state finds this value.

## Main definitions

* `CostFunction.Pure` — residuals that depend on the point alone.
* `CostFunction.cost?`, `Problem.cost?`, `Evaluator.cost?` — the cost as a
  function. The users' state in which it is read off does not matter.

## Main results

* `Problem.succeeds_evaluateCost` — a problem finds this cost or fails.
* `Evaluator.returns_evaluate`, `Evaluator.succeeds_evaluate` — so does an
  evaluator.
-/

namespace LeastSquares

variable {α σ : Type} [Scalar α]

namespace CostFunction

section Calls

omit [Scalar α]

variable {f : CostFunction α σ} {point : List (Vec α)} {wantJacobians : Bool} {t : Tally σ}

theorem returns_call {Q : Option (CostOutput α) → Tally σ → Prop} :
    Returns (f.call point wantJacobians) t Q ↔
      Q (f.evaluate point wantJacobians t.user).1
        { t with user := (f.evaluate point wantJacobians t.user).2 } := by
  constructor
  · intro h
    exact h _ _ rfl
  · intro h b v hx
    cases hx
    exact h

theorem succeeds_call {Q : Option (CostOutput α) → Tally σ → Prop}
    (h : Q (f.evaluate point wantJacobians t.user).1
      { t with user := (f.evaluate point wantJacobians t.user).2 }) :
    Succeeds (f.call point wantJacobians) t Q := ⟨_, _, rfl, h⟩

/-- The residuals depend on the point alone. -/
def Pure (f : CostFunction α σ) : Prop :=
  ∀ point jacobians jacobians' u u',
    (f.evaluate point jacobians u).1.map CostOutput.residuals =
      (f.evaluate point jacobians' u').1.map CostOutput.residuals

theorem pure_stateless (n : Nat) (sizes : List Nat)
    (f : List (Vec α) → Option (Vec α × List (Mat α))) :
    (CostFunction.stateless n sizes f : CostFunction α σ).Pure := by
  intro point j j' u u'
  simp only [CostFunction.stateless, Option.map_map]
  rfl

/-- Jacobians are given on request only. -/
def OnRequest (f : CostFunction α σ) : Prop :=
  ∀ point u output, (f.evaluate point false u).1 = some output → output.jacobians = none

theorem onRequest_stateless (n : Nat) (sizes : List Nat)
    (f : List (Vec α) → Option (Vec α × List (Mat α))) :
    (CostFunction.stateless n sizes f : CostFunction α σ).OnRequest := by
  intro point u output h
  simp only [CostFunction.stateless, Option.map_eq_some_iff] at h
  obtain ⟨r, -, rfl⟩ := h
  rfl

end Calls

variable {f : CostFunction α σ} {loss : Option (Loss α)} {check : Option (GradientCheck α)}
  {point : List (Vec α)} {wantJacobians : Bool} {t : Tally σ} {u : σ}

/-- The cost that residuals stand for, if they can be used. -/
def costOf? (f : CostFunction α σ) (loss : Option (Loss α)) (residuals : Vec α) : Option α :=
  if residuals.size == f.numResiduals && residuals.isFinite then
    some (ResidualEvaluation.costOf loss residuals)
  else none

/-- The cost at a point, none if it has none. -/
def cost? (f : CostFunction α σ) (u : σ) (loss : Option (Loss α)) (point : List (Vec α)) :
    Option α :=
  ((f.evaluate point false u).1.map CostOutput.residuals).bind (f.costOf? loss)

theorem Pure.cost?_eq (hf : f.Pure) (u : σ) (loss : Option (Loss α)) (point : List (Vec α))
    (jacobians : Bool) (u' : σ) :
    f.cost? u loss point =
      (f.evaluate point jacobians u').1.bind fun o => f.costOf? loss o.residuals := by
  rw [cost?, hf point false jacobians u u', Option.bind_map]
  rfl

/-- An answer that is used has the cost of its residuals; without Jacobians
every answer with a cost is used. -/
theorem ofOutput?_cost (f : CostFunction α σ) (loss : Option (Loss α)) (wantJacobians : Bool)
    (output : CostOutput α) :
    (∀ ev, ResidualEvaluation.ofOutput? f loss wantJacobians output = some ev →
      f.costOf? loss output.residuals = some ev.cost) ∧
    (wantJacobians = false →
      (ResidualEvaluation.ofOutput? f loss wantJacobians output).map ResidualEvaluation.cost =
        f.costOf? loss output.residuals) := by
  unfold ResidualEvaluation.ofOutput? costOf? CostOutput.residualsFit
  cases output.residuals.size == f.numResiduals && output.residuals.isFinite with
  | false => simp
  | true =>
      cases wantJacobians with
      | false =>
          simp only [Bool.not_true, Bool.false_eq_true, if_false, if_true, Option.some.injEq]
          refine ⟨?_, fun _ => rfl⟩
          rintro ev rfl
          rfl
      | true =>
          simp only [Bool.not_true, Bool.false_eq_true, if_false, if_true, Option.some.injEq]
          refine ⟨fun ev hev => ?_, nofun⟩
          split at hev
          · cases hev
          · cases hev
            rfl

theorem ofOutput?_jacobians {output : CostOutput α} {ev : ResidualEvaluation α}
    (h : ResidualEvaluation.ofOutput? f loss false output = some ev) : ev.jacobians = none := by
  unfold ResidualEvaluation.ofOutput? at h
  split at h
  · cases h
  · cases h
    rfl

/-- What an evaluation says about the cost. -/
def Tells (cost : Option α) (wantJacobians : Bool) (r : Option α) : Prop :=
  (∀ c, r = some c → cost = some c) ∧ (wantJacobians = false → r = cost)

theorem Pure.tells_ofOutput? (hf : f.Pure) (u u' : σ) :
    Tells (f.cost? u loss point) wantJacobians
      (((f.evaluate point wantJacobians u').1.bind
        (ResidualEvaluation.ofOutput? f loss wantJacobians)).map ResidualEvaluation.cost) := by
  rw [hf.cost?_eq u loss point wantJacobians u']
  cases (f.evaluate point wantJacobians u').1 with
  | none => exact ⟨nofun, fun _ => rfl⟩
  | some output =>
      obtain ⟨h1, h2⟩ := ofOutput?_cost f loss wantJacobians output
      refine ⟨fun c hc => ?_, h2⟩
      obtain ⟨ev, hev, rfl⟩ := Option.map_eq_some_iff.mp hc
      exact h1 ev hev

/-! ## Calling -/

theorem returns_evaluateChecked :
    Returns (f.evaluateChecked check point wantJacobians) t fun r _ =>
      r = (f.evaluate point wantJacobians t.user).1 := by
  rw [evaluateChecked, returns_bind, returns_call]
  dsimp only
  split
  · rw [returns_bind]
    intro _ _ _
    exact returns_pure.mpr rfl
  · exact returns_pure.mpr rfl

/-- Without a gradient check there is the call alone. -/
theorem evaluateChecked_none :
    f.evaluateChecked none point wantJacobians = f.call point wantJacobians := by
  rw [evaluateChecked]
  simp only [bind_pure]

/-- If no Jacobian is compared, nothing can break. -/
theorem succeeds_evaluateChecked (h : check = none ∨ f.OnRequest) :
    Succeeds (f.evaluateChecked check point false) t fun r _ =>
      r = (f.evaluate point false t.user).1 := by
  rw [evaluateChecked, succeeds_bind]
  refine succeeds_call ?_
  dsimp only
  split
  · rename_i js houtput
    rcases h with h | h
    · cases h
    · cases h point t.user _ houtput
  · exact succeeds_pure.mpr rfl

theorem returns_residualEvaluation :
    Returns (f.residualEvaluation loss check point wantJacobians) t fun r _ =>
      r = (f.evaluate point wantJacobians t.user).1.bind
        (ResidualEvaluation.ofOutput? f loss wantJacobians) := by
  rw [residualEvaluation, returns_bind]
  refine returns_evaluateChecked.mono fun output t' h => ?_
  rw [returns_pure, h]

theorem succeeds_residualEvaluation (h : check = none ∨ f.OnRequest) :
    Succeeds (f.residualEvaluation loss check point false) t fun r _ =>
      r = (f.evaluate point false t.user).1.bind (ResidualEvaluation.ofOutput? f loss false) := by
  rw [residualEvaluation, succeeds_bind]
  refine (succeeds_evaluateChecked h).mono fun output t' houtput => ?_
  rw [succeeds_pure, houtput]

/-- If nothing is compared, nothing can break. -/
theorem succeeds_unchecked :
    Succeeds (f.residualEvaluation loss none point wantJacobians) t fun r _ =>
      r = (f.evaluate point wantJacobians t.user).1.bind
        (ResidualEvaluation.ofOutput? f loss wantJacobians) := by
  rw [residualEvaluation, succeeds_bind, evaluateChecked, succeeds_bind]
  refine succeeds_call ?_
  dsimp only
  rw [succeeds_pure, succeeds_pure]

end CostFunction

open CostFunction (Tells)

/-! ## Adding costs up -/

/-- A cost with further ones added from the left, none if one is missing. -/
def addCosts (cost : α) : List (Option α) → Option α
  | [] => some cost
  | none :: _ => none
  | some c :: rest => addCosts (cost + c) rest

/-! ## Problems -/

namespace Problem

variable {p q : Problem α σ} {t : Tally σ}

/-- All cost functions of the problem are pure. -/
def Pure (p : Problem α σ) : Prop := ∀ i r, p.residual? i = some r → r.cost.Pure

/-- The cost of a residual block at the values of the problem. -/
def residualCost? (p : Problem α σ) (u : σ) (i : ResidualId) : Option α :=
  match p.residual? i with
  | none => none
  | some r =>
      match r.blocks.mapM p.values with
      | .ok point => r.cost.cost? u r.loss point
      | .error _ => none

/-- The cost of the problem at its values. -/
def cost? (p : Problem α σ) (u : σ) : Option α :=
  addCosts 0 (p.residualIds.map (p.residualCost? u))

theorem residualCost?_eq {i : ResidualId} {r : ResidualBlock α σ} {point : List (Vec α)} (u : σ)
    (hr : p.residual? i = some r) (hpoint : r.blocks.mapM p.values = .ok point) :
    p.residualCost? u i = r.cost.cost? u r.loss point := by
  simp only [residualCost?, hr, hpoint]

/-- The cost of a residual block depends on the values it reads. -/
theorem residualCost?_congr {i : ResidualId} (u : σ) (hr : q.residual? i = p.residual? i)
    (hv : ∀ r, p.residual? i = some r → ∀ id ∈ r.blocks, q.values id = p.values id) :
    q.residualCost? u i = p.residualCost? u i := by
  unfold residualCost?
  rw [hr]
  cases hp : p.residual? i with
  | none => rfl
  | some r => simp only [mapM_congr_mem (hv r hp)]

/-- Evaluating a residual block cannot break. It finds the cost if there is
one and cost functions are pure. -/
theorem succeeds_evaluateResidual (p : Problem α σ) (i : ResidualId) :
    Succeeds (p.evaluateResidual i true false).run t fun r _ =>
      p.Pure → ∀ u, r.toOption.map ResidualEvaluation.cost = p.residualCost? u i := by
  unfold evaluateResidual evaluateResidual.liftExcept
  rw [succeeds_run_bind, succeeds_run_mk, succeeds_pure]
  cases hr : p.residual? i with
  | none =>
      rw [residual, hr]
      simp only [residualCost?, hr]
      exact fun _ _ => rfl
  | some r =>
      rw [residual_eq_ok.mpr hr]
      dsimp only
      rw [succeeds_run_bind, succeeds_run_mk, succeeds_pure]
      cases hpoint : r.blocks.mapM p.values with
      | error e =>
          simp only [residualCost?, hr, hpoint]
          exact fun _ _ => rfl
      | ok point =>
          simp only [residualCost?_eq _ hr hpoint]
          rw [succeeds_run_bind, succeeds_run_lift]
          refine (CostFunction.succeeds_residualEvaluation (.inl rfl)).mono ?_
          intro ev t' hev
          simp only [if_true] at hev
          have hcost : p.Pure → ∀ u,
              ev.map ResidualEvaluation.cost = r.cost.cost? u r.loss point := by
            intro hp u
            rw [← ((hp i r hr).tells_ofOutput? u t.user).2 rfl, ← hev]
          cases ev with
          | none => exact succeeds_run_throw.mpr hcost
          | some ev => exact succeeds_run_pure.mpr hcost

theorem Pure.succeeds_sumCosts (hp : p.Pure) (u : σ) (cost : α) (ids : List ResidualId) :
    Succeeds (p.sumCosts cost ids).run t fun r _ =>
      r.toOption = addCosts cost (ids.map (p.residualCost? u)) := by
  induction ids generalizing cost t with
  | nil => exact succeeds_run_pure.mpr rfl
  | cons i ids ih =>
      rw [sumCosts, succeeds_run_bind, List.map_cons]
      refine (p.succeeds_evaluateResidual i).mono ?_
      rintro (e | ev) t' hcost
      · rw [← hcost hp u]
        rfl
      · rw [← hcost hp u]
        exact ih (cost + ev.cost)

/-- Evaluating the cost of a problem finds it if there is one, and fails in
words if there is none. -/
theorem Pure.succeeds_evaluateCost (hp : p.Pure) (u : σ) :
    Succeeds p.evaluateCost.run t fun r _ => r.toOption = p.cost? u :=
  hp.succeeds_sumCosts u 0 p.residualIds

/-- The cost depends on the residual blocks and the values. -/
theorem cost?_congr (u : σ) (hr : q.residuals = p.residuals)
    (hv : ∀ id, q.values id = p.values id) : q.cost? u = p.cost? u := by
  have hres : ∀ i, q.residual? i = p.residual? i := fun i => by simp only [residual?, hr]
  have hids : q.residualIds = p.residualIds := by simp only [residualIds, hr]
  rw [cost?, cost?, hids]
  congr 1
  exact List.map_congr_left fun i _ => residualCost?_congr u (hres i) fun _ _ id _ => hv id

theorem Pure.alike {R : ParameterBlock α → ParameterBlock α → Prop} (hp : p.Pure)
    (h : Alike R p q) : q.Pure := by
  intro i r hr
  rw [h.residual?] at hr
  exact hp i r hr

end Problem

/-! ## Evaluators -/

namespace Evaluator

variable {e : Evaluator α σ} {x : Vec α} {wantJacobian : Bool} {t : Tally σ} {u : σ}

/-- All cost functions of the evaluator are pure. -/
def Pure (e : Evaluator α σ) : Prop := ∀ t ∈ e.terms, t.cost.Pure

/-- The cost functions of an evaluator are some of those of the problem. -/
theorem MadeOf.forall_cost {p : Problem α σ} {g : Program} (h : e.MadeOf p g)
    {P : CostFunction α σ → Prop} (hp : ∀ i r, p.residual? i = some r → P r.cost) :
    ∀ t ∈ e.terms, P t.cost := by
  intro t ht
  obtain ⟨i, -, hi⟩ := exists_left_of_forall₂ h.forall₂_terms t ht
  obtain ⟨r, hr, -, -, rfl⟩ := term_eq_ok.mp hi
  exact hp i r hr

theorem MadeOf.pure {p : Problem α σ} {g : Program} (h : e.MadeOf p g) (hp : p.Pure) : e.Pure :=
  h.forall_cost hp

/-- The cost of a term at a state. -/
def termCost? (e : Evaluator α σ) (u : σ) (x : Vec α) (term : ResidualTerm α σ) : Option α :=
  term.cost.cost? u term.loss (e.pointOf x term)

/-- The cost at a state, none if it has none. -/
def cost? (e : Evaluator α σ) (u : σ) (x : Vec α) : Option α :=
  if x.size = e.numParameters then
    (addCosts 0 (e.terms.map (e.termCost? u x))).filter Scalar.isFinite
  else none

theorem returns_evaluateTerm (he : e.Pure) (u : σ) {term : ResidualTerm α σ}
    (hterm : term ∈ e.terms) :
    Returns (e.evaluateTerm x wantJacobian term) t fun r _ =>
      Tells (e.termCost? u x term) wantJacobian (r.map TermEvaluation.cost) := by
  rw [evaluateTerm, returns_bind]
  refine CostFunction.returns_residualEvaluation.mono ?_
  intro r t' hr
  have htells : Tells (e.termCost? u x term) wantJacobian (r.map ResidualEvaluation.cost) :=
    hr ▸ (he term hterm).tells_ofOutput? u t.user
  cases r with
  | none => exact returns_pure.mpr htells
  | some r =>
      dsimp only
      split
      · exact returns_pure.mpr htells
      · exact returns_throw

/-- Without Jacobians nothing can break, unless they are given and checked all
the same. -/
theorem succeeds_evaluateTerm {term : ResidualTerm α σ}
    (h : e.check = none ∨ term.cost.OnRequest) :
    Succeeds (e.evaluateTerm x false term) t fun _ _ => True := by
  rw [evaluateTerm, succeeds_bind]
  refine (CostFunction.succeeds_residualEvaluation h).mono ?_
  intro r t' hr
  cases r with
  | none => exact succeeds_pure.mpr trivial
  | some r =>
      obtain ⟨output, -, houtput⟩ := Option.bind_eq_some_iff.mp hr.symm
      have hcells : e.cellsOf (term.sources.zip ((r.jacobians.getD []).zip (e.pointOf x term))) =
          .ok [] := by
        rw [CostFunction.ofOutput?_jacobians houtput, Option.getD_none, List.zip_nil_left,
          List.zip_nil_right, cellsOf]
      dsimp only
      rw [hcells]
      exact succeeds_pure.mpr trivial

theorem foldl_cost_eq (cost : α) (l : List (TermEvaluation α)) :
    some (l.foldl (fun cost t => cost + t.cost) cost) =
      addCosts cost (l.map fun t => some t.cost) := by
  induction l generalizing cost with
  | nil => rfl
  | cons t l ih => exact ih (cost + t.cost)

theorem assemble_cost (e : Evaluator α σ) (wantJacobian : Bool) (l : List (TermEvaluation α)) :
    (e.assemble wantJacobian l).map Evaluation.cost =
      (addCosts 0 (l.map fun t => some t.cost)).filter Scalar.isFinite := by
  rw [← foldl_cost_eq, assemble, Option.filter_some]
  dsimp only
  split
  · cases wantJacobian <;> rfl
  · rfl

/-- Costs are added up over results that are all there. -/
theorem addCosts_results (cost : α) (results : List (Option (TermEvaluation α))) :
    ((results.mapM id).bind fun l => addCosts cost (l.map fun t => some t.cost)) =
      addCosts cost (results.map (Option.map TermEvaluation.cost)) := by
  induction results generalizing cost with
  | nil => rfl
  | cons r results ih =>
      cases r with
      | none => rfl
      | some r =>
          rw [List.map_cons, Option.map_some, addCosts, ← ih (cost + r.cost), List.mapM_cons]
          cases results.mapM id <;> rfl

/-- What an evaluation says about the cost at the state. -/
theorem returns_evaluate (he : e.Pure) (u : σ) :
    Returns (e.evaluate x wantJacobian) t fun r _ =>
      Tells (e.cost? u x) wantJacobian (r.map Evaluation.cost) := by
  unfold evaluate cost?
  by_cases hsize : x.size = e.numParameters
  · rw [if_neg (not_not.mpr hsize), if_pos hsize, returns_bind]
    refine (Returns.mapM (I := fun _ => True)
      (P := fun term r => Tells (e.termCost? u x term) wantJacobian (r.map TermEvaluation.cost))
      (fun term hterm t' _ => (returns_evaluateTerm he u hterm).mono fun r t'' h => ⟨h, trivial⟩)
      trivial).mono ?_
    rintro results t' ⟨hresults, -⟩
    rw [returns_pure]
    constructor
    · intro c hc
      obtain ⟨ev, hev, rfl⟩ := Option.map_eq_some_iff.mp hc
      obtain ⟨l, hl, hl'⟩ := Option.bind_eq_some_iff.mp hev
      rw [mapM_id_eq_some_iff] at hl
      subst hl
      have hall : e.terms.map (e.termCost? u x) = l.map fun t => some t.cost :=
        map_eq_map_of_forall₂ (List.forall₂_map_right_iff.mp hresults) fun _ _ h => h.1 _ rfl
      rw [hall, ← assemble_cost e wantJacobian l, hl']
      rfl
    · rintro rfl
      have hall : e.terms.map (e.termCost? u x) = results.map (Option.map TermEvaluation.cost) :=
        map_eq_map_of_forall₂ hresults fun _ _ h => (h.2 rfl).symm
      rw [hall, ← addCosts_results]
      cases results.mapM id with
      | none => rfl
      | some l => exact assemble_cost e false l
  · rw [if_pos hsize, if_neg hsize]
    exact returns_pure.mpr ⟨nofun, fun _ => rfl⟩

/-- If no Jacobian is compared, an evaluation without Jacobians finds the cost
if there is one, and nothing can break. -/
theorem succeeds_evaluate (he : e.Pure) (u : σ)
    (h : e.check = none ∨ ∀ t ∈ e.terms, t.cost.OnRequest) :
    Succeeds (e.evaluate x false) t fun r _ => r.map Evaluation.cost = e.cost? u x := by
  have hsucceeds : Succeeds (e.evaluate x false) t fun _ _ => True := by
    unfold evaluate
    split
    · exact succeeds_pure.mpr trivial
    · rw [succeeds_bind]
      refine (Succeeds.mapM (I := fun _ => True) (P := fun _ _ => True)
        (fun term hterm t' _ =>
          (succeeds_evaluateTerm (h.imp_right fun h => h term hterm)).mono
            fun _ _ _ => ⟨trivial, trivial⟩)
        trivial).mono fun results t' _ => ?_
      exact succeeds_pure.mpr trivial
  obtain ⟨r, t', hr, -⟩ := hsucceeds
  exact ⟨r, t', hr, (returns_evaluate he u r t' hr).2 rfl⟩

end Evaluator

/-! ## An example -/

namespace Gallery

/-- Two blocks that are drawn towards points of their own. The second one is
held constant. -/
def anchored (α : Type) [Scalar α] : Problem α Unit where
  slots := #[⟨0, some { values := .ofList [1] }⟩,
    ⟨0, some { values := .ofList [2.0], constant := true }⟩]
  residuals := #[some ⟨[⟨1, 0⟩], anchor (.ofList [5.0]), none⟩,
    some ⟨[⟨0, 0⟩], anchor (.ofList [3.0]), none⟩]
  numBlocks := 2
  numResidualBlocks := 2

theorem exists_anchor {i : ResidualId} {r : ResidualBlock α Unit}
    (hr : (anchored α).residual? i = some r) : ∃ target, r.cost = anchor target := by
  match i with
  | ⟨0⟩ =>
      cases hr
      exact ⟨_, rfl⟩
  | ⟨1⟩ =>
      cases hr
      exact ⟨_, rfl⟩
  | ⟨n + 2⟩ => cases hr

theorem pure_anchored : (anchored α).Pure := by
  intro i r hr
  obtain ⟨target, hcost⟩ := exists_anchor hr
  rw [hcost]
  exact CostFunction.pure_stateless _ _ _

theorem onRequest_anchored {i : ResidualId} {r : ResidualBlock α Unit}
    (hr : (anchored α).residual? i = some r) : r.cost.OnRequest := by
  obtain ⟨target, hcost⟩ := exists_anchor hr
  rw [hcost]
  exact CostFunction.onRequest_stateless _ _ _

end Gallery

end LeastSquares
