import LeastSquares.Proofs.Completion

/-!
# Gradient checks and what they leave alone

A gradient check runs beside an evaluation: whatever it finds, an evaluation
that returns gives what the cost function answered. Whether it returns is
another matter. The check goes through the coordinates of the point in order,
with two evaluations for each, until one of them gives nothing. It breaks at a
coordinate where both give residuals and one of them not as many as declared.
If all differences can be formed, it breaks at a Jacobian with an entry that
they do not cover, although such an answer only makes an evaluation without a
check come to nothing.

## Main definitions

* `Finding` — what a computation comes to that may give nothing or break.
* `CostFunction.Answers` — answers that depend on the question alone.
* `CostFunction.Comparable` — answers at which a check does not break.

## Main results

* `CostFunction.returns_evaluateChecked_iff` — where a check breaks.
* `gradientCheck_transparent` — what a check leaves alone.
-/

namespace LeastSquares

/-! ## Findings -/

/-- What a computation comes to. -/
inductive Finding where
  | value
  | nothing
  | fault
deriving DecidableEq, Repr

namespace Finding

/-- What a computation comes to that goes on if there is a value. -/
def andThen : Finding → Finding → Finding
  | value, f => f
  | f, _ => f

/-- What some computations come to, one after the other. -/
def all (l : List Finding) : Finding := l.foldr andThen value

@[simp] theorem andThen_value (f : Finding) : f.andThen value = f := by cases f <;> rfl

@[simp] theorem all_cons (f : Finding) (l : List Finding) : all (f :: l) = f.andThen (all l) := rfl

theorem all_ne_fault {l : List Finding} (h : ∀ f ∈ l, f ≠ fault) : all l ≠ fault := by
  induction l with
  | nil => exact nofun
  | cons f l ih =>
      have hf := h f (by simp)
      rw [all_cons]
      cases f with
      | value => exact ih fun g hg => h g (by simp [hg])
      | nothing => exact nofun
      | fault => exact absurd rfl hf

end Finding

section Finds

variable {ε S β γ : Type}

/-- The computation comes to a finding in every state, and to a value with a
property only. -/
def Finds (x : OptionT (EStateM ε S) β) (f : Finding) (P : β → Prop) : Prop :=
  ∀ s, (∃ b t, x.run s = .ok (some b) t ∧ f = .value ∧ P b) ∨
    (∃ t, x.run s = .ok none t ∧ f = .nothing) ∨ ∃ e t, x.run s = .error e t ∧ f = .fault

variable {x : OptionT (EStateM ε S) β} {g : β → OptionT (EStateM ε S) γ} {f f' : Finding}
  {P : β → Prop} {Q : γ → Prop}

theorem finds_pure {b : β} (h : P b) : Finds (pure b : OptionT (EStateM ε S) β) .value P :=
  fun s => .inl ⟨b, s, rfl, rfl, h⟩

theorem finds_throw (e : ε) : Finds (OptionT.lift (throw e) : OptionT (EStateM ε S) β) .fault P :=
  fun s => .inr (.inr ⟨e, s, rfl, rfl⟩)

theorem optionT_bind_apply (x : OptionT (EStateM ε S) β) (g : β → OptionT (EStateM ε S) γ)
    (s : S) : (x >>= g).run s = match x.run s with
      | .ok (some b) t => (g b).run t
      | .ok none t => .ok none t
      | .error e t => .error e t := by
  rw [OptionT.run_bind, Option.elimM, eStateM_bind_apply]
  rcases x.run s with ⟨_ | b, t⟩ | ⟨e, t⟩ <;> rfl

theorem Finds.bind (hx : Finds x f P) (hg : ∀ b, P b → Finds (g b) f' Q) :
    Finds (x >>= g) (f.andThen f') Q := by
  intro s
  rw [optionT_bind_apply]
  obtain ⟨b, t, hb, rfl, hP⟩ | ⟨t, hb, rfl⟩ | ⟨e, t, hb, rfl⟩ := hx s
  · rw [hb]
    exact hg b hP t
  · rw [hb]
    exact .inr (.inl ⟨t, rfl, rfl⟩)
  · rw [hb]
    exact .inr (.inr ⟨e, t, rfl, rfl⟩)

theorem Finds.bind_value (hx : Finds x .value P) (hg : ∀ b, P b → Finds (g b) f Q) :
    Finds (x >>= g) f Q := hx.bind hg

theorem Finds.bind_nothing (hx : Finds x .nothing fun _ => False) :
    Finds (x >>= g) .nothing Q :=
  (hx.bind fun _ => False.elim : Finds (x >>= g) (Finding.andThen .nothing .value) Q)

/-- A traversal goes on until a step gives nothing or breaks. -/
theorem Finds.mapM {l : List β} {find : β → Finding} {R : β → γ → Prop}
    (h : ∀ b ∈ l, Finds (g b) (find b) (R b)) :
    Finds (l.mapM g) (Finding.all (l.map find)) (List.Forall₂ R l) := by
  induction l with
  | nil => exact finds_pure .nil
  | cons b l ih =>
      rw [List.mapM_cons, List.map_cons, Finding.all_cons]
      refine (h b (by simp)).bind fun c hc => ?_
      rw [← Finding.andThen_value (Finding.all (l.map find))]
      exact (ih fun b' hb' => h b' (by simp [hb'])).bind fun cs hcs => finds_pure (.cons hc hcs)

end Finds

/-! ## Outcomes -/

section Agree

variable {ε S β γ : Type}

/-- What a computation comes to, without the state after it. -/
def outcome : EStateM.Result ε S β → Except ε β
  | .ok b _ => .ok b
  | .error e _ => .error e

/-- Two computations come to the same, whatever states they start from. -/
def Agree (x y : EStateM ε S β) : Prop := ∀ s s', outcome (x s) = outcome (y s')

variable {x y : EStateM ε S β} {f g : β → EStateM ε S γ}

theorem agree_pure (b : β) : Agree (pure b : EStateM ε S β) (pure b) := fun _ _ => rfl

theorem agree_throw (e : ε) : Agree (throw e : EStateM ε S β) (throw e) := fun _ _ => rfl

theorem Agree.bind (hx : Agree x y) (hf : ∀ b, Agree (f b) (g b)) : Agree (x >>= f) (y >>= g) := by
  intro s s'
  have h := hx s s'
  rw [eStateM_bind_apply, eStateM_bind_apply]
  cases hxs : x s <;> cases hys : y s' <;> rw [hxs, hys] at h <;> cases h
  · exact hf _ _ _
  · rfl

theorem Agree.mapM {l : List β} (h : ∀ b ∈ l, Agree (f b) (g b)) :
    Agree (l.mapM f) (l.mapM g) := by
  induction l with
  | nil => exact agree_pure []
  | cons b l ih =>
      rw [List.mapM_cons, List.mapM_cons]
      refine (h b (by simp)).bind fun c => ?_
      exact (ih fun b' hb' => h b' (by simp [hb'])).bind fun cs => agree_pure _

end Agree

/-! ## Differences -/

namespace CostFunction

variable {α σ : Type} [Scalar α]

section Answers

omit [Scalar α]

variable {f : CostFunction α σ} {answer : List (Vec α) → Bool → Option (CostOutput α)}

/-- What the cost function answers depends on the question alone. -/
def Answers (f : CostFunction α σ) (answer : List (Vec α) → Bool → Option (CostOutput α)) : Prop :=
  ∀ point jacobians u, (f.evaluate point jacobians u).1 = answer point jacobians

theorem Answers.finds_residualsAt (hf : f.Answers answer) {point : List (Vec α)}
    {output : CostOutput α} (h : answer point false = some output) :
    Finds (f.residualsAt point) .value (· = output.residuals) := by
  refine fun t => .inl ⟨output.residuals, { t with user := (f.evaluate point false t.user).2 },
    ?_, rfl, rfl⟩
  show EStateM.Result.ok ((f.evaluate point false t.user).1.map CostOutput.residuals) _ = _
  rw [hf, h, Option.map_some]

theorem Answers.finds_no_residuals (hf : f.Answers answer) {point : List (Vec α)}
    (h : answer point false = none) : Finds (f.residualsAt point) .nothing fun _ => False := by
  refine fun t => .inr (.inl ⟨{ t with user := (f.evaluate point false t.user).2 }, ?_, rfl⟩)
  show EStateM.Result.ok ((f.evaluate point false t.user).1.map CostOutput.residuals) _ = _
  rw [hf, h, Option.map_none]

end Answers

variable {f : CostFunction α σ} {answer : List (Vec α) → Bool → Option (CostOutput α)}

/-- What the difference in one coordinate comes to. -/
def difference (f : CostFunction α σ) (answer : List (Vec α) → Bool → Option (CostOutput α))
    (step : α) (point : List (Vec α)) (block coordinate : Nat) : Finding :=
  let value := (point.getD block default).get coordinate
  let h := stepLength step value
  match answer (moved point block coordinate (value + h)) false,
    answer (moved point block coordinate (value - h)) false with
  | some forward, some backward =>
      if forward.residuals.size = f.numResiduals ∧ backward.residuals.size = f.numResiduals then
        .value
      else .fault
  | _, _ => .nothing

/-- What all differences come to, one coordinate after the other. -/
def differences (f : CostFunction α σ) (answer : List (Vec α) → Bool → Option (CostOutput α))
    (step : α) (point : List (Vec α)) : Finding :=
  .all ((List.range point.length).map fun block =>
    .all ((List.range (point.getD block default).size).map fun j =>
      f.difference answer step point block j))

theorem Answers.finds_numericColumn (hf : f.Answers answer) (step : α) (point : List (Vec α))
    (block coordinate : Nat) :
    Finds (f.numericColumn step point block coordinate)
      (f.difference answer step point block coordinate) fun _ => True := by
  let value := (point.getD block default).get coordinate
  let h := stepLength step value
  unfold numericColumn difference
  dsimp only
  cases hforward : answer (moved point block coordinate (value + h)) false with
  | none => exact (hf.finds_no_residuals hforward).bind_nothing
  | some forward =>
      refine (hf.finds_residualsAt hforward).bind_value ?_
      rintro _ rfl
      cases hbackward : answer (moved point block coordinate (value - h)) false with
      | none => exact (hf.finds_no_residuals hbackward).bind_nothing
      | some backward =>
          refine (hf.finds_residualsAt hbackward).bind_value ?_
          rintro _ rfl
          by_cases hsizes : forward.residuals.size = f.numResiduals ∧
              backward.residuals.size = f.numResiduals
          · simp only [if_pos hsizes]
            exact finds_pure trivial
          · simp only [if_neg hsizes]
            exact finds_throw _

theorem Answers.finds_numericJacobians (hf : f.Answers answer) (step : α)
    (point : List (Vec α)) :
    Finds (OptionT.mk (f.numericJacobians step point)) (f.differences answer step point)
      (List.Forall₂ (fun i m => m.rows = f.numResiduals ∧ m.cols = (point.getD i default).size)
        (List.range point.length)) := by
  rw [numericJacobians_eq]
  refine Finds.mapM fun block _ => ?_
  rw [numericJacobian, ← Finding.andThen_value (Finding.all _)]
  exact (Finds.mapM fun j _ => hf.finds_numericColumn step point block j).bind
    fun columns _ => finds_pure ⟨rfl, rfl⟩

/-! ## Comparisons -/

/-- A check does not break at the Jacobians: one of the differences cannot be
formed and those before it can, or all can be formed and cover every entry. -/
def Comparable (f : CostFunction α σ) (answer : List (Vec α) → Bool → Option (CostOutput α))
    (step : α) (point : List (Vec α)) (js : List (Mat α)) : Prop :=
  f.differences answer step point = .nothing ∨
    f.differences answer step point = .value ∧ ∀ c ∈ js.zip point,
      c.1.rows = 0 ∨ c.1.cols = 0 ∨ c.1.rows ≤ f.numResiduals ∧ c.1.cols ≤ c.2.size

omit [Scalar α] in
theorem covers_iff {analytic numeric : Mat α} :
    GradientCheck.covers analytic numeric = true ↔ analytic.rows = 0 ∨ analytic.cols = 0 ∨
      analytic.rows ≤ numeric.rows ∧ analytic.cols ≤ numeric.cols := by
  simp only [GradientCheck.covers, Bool.or_eq_true, Bool.and_eq_true, beq_iff_eq,
    decide_eq_true_eq, or_assoc]

omit [Scalar α] in
/-- The entries that all differences cover, read off the sizes of the blocks. -/
theorem covers_zip_iff {point : List (Vec α)} {n : Nat} {js ms : List (Mat α)}
    (h : List.Forall₂ (fun i m => m.rows = n ∧ m.cols = (point.getD i default).size)
      (List.range point.length) ms) :
    (∀ c ∈ js.zip ms, GradientCheck.covers c.1 c.2 = true) ↔
      ∀ c ∈ js.zip point, c.1.rows = 0 ∨ c.1.cols = 0 ∨ c.1.rows ≤ n ∧ c.1.cols ≤ c.2.size := by
  have hshapes : ms.map (fun m => (m.rows, m.cols)) = point.map fun v => (n, v.size) := by
    have hrange : (List.range point.length).map (fun i => (n, (point.getD i default).size)) =
        point.map fun v => (n, v.size) := by
      refine List.ext_getElem (by simp) fun i hi _ => ?_
      rw [List.length_map, List.length_range] at hi
      simp only [List.getElem_map, List.getElem_range, List.getD_eq_getElem?_getD,
        List.getElem?_eq_getElem hi, Option.getD_some]
    rw [← hrange]
    exact (map_eq_map_of_forall₂ h fun i m hm => by rw [hm.1, hm.2]).symm
  have hzip : ∀ {β : Type} (l : List β) (rows cols : β → Nat),
      (∀ c ∈ js.zip l, c.1.rows = 0 ∨ c.1.cols = 0 ∨ c.1.rows ≤ rows c.2 ∧ c.1.cols ≤ cols c.2) ↔
        ∀ c ∈ js.zip (l.map fun b => (rows b, cols b)),
          c.1.rows = 0 ∨ c.1.cols = 0 ∨ c.1.rows ≤ c.2.1 ∧ c.1.cols ≤ c.2.2 := by
    intro β l rows cols
    rw [List.zip_map_right, List.forall_mem_map]
    rfl
  simp only [covers_iff]
  rw [hzip ms Mat.rows Mat.cols, hshapes, hzip point (fun _ => n) Vec.size]

theorem countMismatches_iff {check : GradientCheck α} {l : List (Mat α × Mat α)} {t : Tally σ} :
    (∃ t', check.countMismatches l t = .ok () t') ↔
      ∀ c ∈ l, GradientCheck.covers c.1 c.2 = true := by
  constructor
  · intro h
    induction l generalizing t with
    | nil => exact nofun
    | cons c l ih =>
        obtain ⟨t', h⟩ := h
        rw [GradientCheck.countMismatches] at h
        split at h
        · rename_i hcovers
          refine List.forall_mem_cons.mpr ⟨hcovers, ?_⟩
          split at h
          · exact ih ⟨t', h⟩
          · exact ih ⟨t', h⟩
        · cases h
  · intro h
    obtain ⟨_, t', ht, -⟩ :
        Succeeds (check.countMismatches l : Calls σ Unit) t fun _ _ => True :=
      succeeds_countMismatches h
    exact ⟨t', ht⟩

/-- A comparison breaks unless the Jacobians are comparable. -/
theorem Answers.compare_iff (hf : f.Answers answer) {check : GradientCheck α}
    {point : List (Vec α)} {js : List (Mat α)} {t : Tally σ} :
    (∃ t', check.compare f point js t = .ok () t') ↔
      f.Comparable answer check.relativeStep point js := by
  rw [GradientCheck.compare, eStateM_bind_apply, Comparable]
  obtain ⟨ms, t1, hms, hfinding, hshapes⟩ | ⟨t1, hms, hfinding⟩ | ⟨e, t1, hms, hfinding⟩ :=
    hf.finds_numericJacobians check.relativeStep point t
  · rw [show f.numericJacobians check.relativeStep point t = .ok (some ms) t1 from hms, hfinding,
      ← covers_zip_iff hshapes]
    simp only [reduceCtorEq, false_or, true_and]
    exact countMismatches_iff
  · rw [show f.numericJacobians check.relativeStep point t = .ok none t1 from hms, hfinding]
    exact iff_of_true ⟨t1, rfl⟩ (.inl rfl)
  · rw [show f.numericJacobians check.relativeStep point t = .error e t1 from hms, hfinding]
    refine iff_of_false ?_ ?_
    · rintro ⟨t', ht'⟩
      cases ht'
    · rintro (h | ⟨h, -⟩) <;> cases h

/-- A check that returns gives what the cost function answered, and it returns
where the Jacobians, if there are any, are comparable. -/
theorem Answers.evaluateChecked_iff (hf : f.Answers answer) {check : GradientCheck α}
    {point : List (Vec α)} {wantJacobians : Bool} {t : Tally σ} :
    (∃ r t', f.evaluateChecked (some check) point wantJacobians t = .ok r t') ↔
      ∀ output ∈ answer point wantJacobians, ∀ js ∈ output.jacobians,
        f.Comparable answer check.relativeStep point js := by
  have hcall : f.call point wantJacobians t = .ok (answer point wantJacobians)
      { t with user := (f.evaluate point wantJacobians t.user).2 } := by
    rw [← hf point wantJacobians t.user]
    rfl
  rw [evaluateChecked, eStateM_bind_apply, hcall]
  dsimp only
  rcases answer point wantJacobians with _ | ⟨residuals, _ | js⟩
  · exact iff_of_true ⟨_, _, rfl⟩ fun output houtput => by cases houtput
  · exact iff_of_true ⟨_, _, rfl⟩ fun output houtput js hjs => by
      cases houtput
      cases hjs
  · have hcompare : (∃ t', check.compare f point js
        { t with user := (f.evaluate point wantJacobians t.user).2 } = .ok () t') ↔
          f.Comparable answer check.relativeStep point js := hf.compare_iff
    simp only [Option.mem_some_iff, forall_eq']
    rw [← hcompare, eStateM_bind_apply]
    constructor
    · rintro ⟨r, t', h⟩
      cases hc : check.compare f point js
          { t with user := (f.evaluate point wantJacobians t.user).2 } with
      | ok _ t1 => exact ⟨t1, rfl⟩
      | error e t1 =>
          rw [hc] at h
          cases h
    · rintro ⟨t', h⟩
      rw [h]
      exact ⟨_, _, rfl⟩

/-- Where the comparisons do not break, a check leaves the answer alone. -/
theorem Answers.outcome_evaluateChecked (hf : f.Answers answer) {check : Option (GradientCheck α)}
    {point : List (Vec α)} {wantJacobians : Bool}
    (h : ∀ c ∈ check, ∀ output ∈ answer point wantJacobians, ∀ js ∈ output.jacobians,
      f.Comparable answer c.relativeStep point js) (t : Tally σ) :
    outcome (f.evaluateChecked check point wantJacobians t) = .ok (answer point wantJacobians) := by
  have hreturns : ∃ r t', f.evaluateChecked check point wantJacobians t = .ok r t' := by
    cases check with
    | none => exact ⟨_, _, rfl⟩
    | some c => exact hf.evaluateChecked_iff.mpr (h c rfl)
  obtain ⟨r, t', hr⟩ := hreturns
  rw [hr, outcome, returns_evaluateChecked r t' hr, hf]

/-- Comparisons with a cost function that keeps to its declarations do not
break. -/
theorem Shaped.comparable (hshaped : f.Shaped) (hf : f.Answers answer) [Inhabited σ] (step : α)
    {point : List (Vec α)} (hpoint : point.map Vec.size = f.sizes) {wantJacobians : Bool}
    {output : CostOutput α} (houtput : answer point wantJacobians = some output)
    {js : List (Mat α)} (hjs : output.jacobians = some js) :
    f.Comparable answer step point js := by
  have hanswer : ∀ p, p.map Vec.size = f.sizes → ∀ j o, answer p j = some o →
      o.residuals.size = f.numResiduals := fun p hp j o ho =>
    (hshaped p hp j default o ((hf p j default).trans ho)).1
  -- Points that were moved keep their sizes, so that the answers there can be subtracted.
  have hdifferences : f.differences answer step point ≠ .fault := by
    refine Finding.all_ne_fault fun finding hfinding => ?_
    obtain ⟨block, -, rfl⟩ := List.mem_map.mp hfinding
    refine Finding.all_ne_fault fun finding hfinding => ?_
    obtain ⟨j, -, rfl⟩ := List.mem_map.mp hfinding
    unfold difference
    dsimp only
    split
    · rename_i forward backward hforward hbackward
      rw [if_pos ⟨hanswer _ ((sizes_moved _ _ _ _).trans hpoint) _ _ hforward,
        hanswer _ ((sizes_moved _ _ _ _).trans hpoint) _ _ hbackward⟩]
      exact nofun
    · exact nofun
  have hcovered : ∀ c ∈ js.zip point, c.1.rows = 0 ∨ c.1.cols = 0 ∨
      c.1.rows ≤ f.numResiduals ∧ c.1.cols ≤ c.2.size := by
    rintro ⟨j, v⟩ hc
    obtain ⟨i, hi⟩ := List.mem_iff_getElem?.mp hc
    obtain ⟨hj, hv⟩ := List.getElem?_zip_eq_some.mp hi
    have hsize : f.sizes[i]? = some v.size := by
      rw [← hpoint, List.getElem?_map, hv, Option.map_some]
    obtain ⟨hrows, hcols⟩ := (hshaped point hpoint wantJacobians default output
      ((hf _ _ _).trans houtput)).2 js hjs i j _ hj hsize
    exact .inr (.inr ⟨hrows.le, hcols.le⟩)
  cases hfinding : f.differences answer step point with
  | value => exact .inr ⟨hfinding, hcovered⟩
  | nothing => exact .inl hfinding
  | fault => exact absurd hfinding hdifferences

end CostFunction

/-! ## Evaluations -/

namespace Evaluator

variable {α σ : Type} [Scalar α] {e : Evaluator α σ} {x : Vec α} {wantJacobian : Bool}

/-- Gradient checks in an evaluation at a state do not break: answers depend on
the question alone, and Jacobians are comparable. -/
def Comparable (e : Evaluator α σ) (x : Vec α) (wantJacobian : Bool) : Prop :=
  ∀ t ∈ e.terms, ∃ answer, t.cost.Answers answer ∧ ∀ check ∈ e.check,
    ∀ output ∈ answer (e.pointOf x t) wantJacobian, ∀ js ∈ output.jacobians,
      t.cost.Comparable answer check.relativeStep (e.pointOf x t) js

/-- The evaluator without gradient checks. -/
def unchecked (e : Evaluator α σ) : Evaluator α σ := { e with check := none }

theorem cellsOf_unchecked (l : List (BlockSource α × Mat α × Vec α)) :
    e.unchecked.cellsOf l = e.cellsOf l := by
  induction l with
  | nil => rfl
  | cons c l ih =>
      obtain ⟨k | constant, jacobian, values⟩ := c
      · rw [cellsOf, cellsOf, ih, show e.unchecked.blocks = e.blocks from rfl]
      · rw [cellsOf, cellsOf, ih]

theorem Comparable.agree_evaluateTerm (h : e.Comparable x wantJacobian) {t : ResidualTerm α σ}
    (ht : t ∈ e.terms) :
    Agree (e.evaluateTerm x wantJacobian t) (e.unchecked.evaluateTerm x wantJacobian t) := by
  obtain ⟨answer, hf, hcomparable⟩ := h t ht
  have hchecked : Agree (t.cost.evaluateChecked e.check (e.pointOf x t) wantJacobian)
      (t.cost.evaluateChecked none (e.pointOf x t) wantJacobian) := fun s s' =>
    (hf.outcome_evaluateChecked hcomparable s).trans
      (hf.outcome_evaluateChecked (fun c hc => by cases hc) s').symm
  have hpoint : e.unchecked.pointOf x t = e.pointOf x t := rfl
  unfold evaluateTerm CostFunction.residualEvaluation
  rw [hpoint]
  refine (hchecked.bind fun output => agree_pure _).bind ?_
  rintro (_ | r)
  · exact agree_pure none
  · dsimp only
    rw [cellsOf_unchecked]
    split
    · exact agree_pure _
    · exact agree_throw _

/-- An evaluation whose gradient checks do not break has the result of one
without checks. -/
theorem Comparable.agree_evaluate (h : e.Comparable x wantJacobian) :
    Agree (e.evaluate x wantJacobian) (e.unchecked.evaluate x wantJacobian) := by
  have hassemble : e.unchecked.assemble = e.assemble := rfl
  have hparameters : e.unchecked.numParameters = e.numParameters := rfl
  unfold evaluate
  rw [hparameters]
  by_cases hsize : x.size ≠ e.numParameters
  · rw [if_pos hsize, if_pos hsize]
    exact agree_pure none
  · rw [if_neg hsize, if_neg hsize, hassemble]
    exact (Agree.mapM fun t ht => h.agree_evaluateTerm ht).bind fun results => agree_pure _

end Evaluator

/-! ## What a check leaves alone -/

section Transparent

variable {α σ : Type} [Scalar α] [Inhabited σ]

/-- A gradient check never changes an answer. It breaks where Jacobians are not
comparable, and only there, which does not happen to a cost function that keeps
to its declarations. An evaluation in which no check breaks has the result of one
without checks. -/
theorem gradientCheck_transparent :
    (∀ (f : CostFunction α σ) (answer : List (Vec α) → Bool → Option (CostOutput α)),
      f.Answers answer → ∀ (check : GradientCheck α) (point : List (Vec α)) (wantJacobians : Bool),
        (∀ t, Returns (f.evaluateChecked (some check) point wantJacobians) t fun r _ =>
          r = answer point wantJacobians) ∧
        (∀ t, (∃ r t', f.evaluateChecked (some check) point wantJacobians t = .ok r t') ↔
          ∀ output ∈ answer point wantJacobians, ∀ js ∈ output.jacobians,
            f.Comparable answer check.relativeStep point js) ∧
        (f.Shaped → point.map Vec.size = f.sizes →
          ∀ output ∈ answer point wantJacobians, ∀ js ∈ output.jacobians,
            f.Comparable answer check.relativeStep point js)) ∧
    ∀ (e : Evaluator α σ) (x : Vec α) (wantJacobian : Bool), e.Comparable x wantJacobian →
      Agree (e.evaluate x wantJacobian) (e.unchecked.evaluate x wantJacobian) := by
  refine ⟨fun f answer hf check point wantJacobians => ⟨fun t => ?_, fun t => ?_, ?_⟩,
    fun e x wantJacobian h => h.agree_evaluate⟩
  · exact CostFunction.returns_evaluateChecked.mono fun r _ hr => hr.trans (hf _ _ _)
  · exact hf.evaluateChecked_iff
  · exact fun hshaped hpoint output houtput js hjs =>
      hshaped.comparable hf check.relativeStep hpoint houtput hjs

end Transparent

section Witnesses

/-- The residual one at every point, with a derivative of zero in as many rows
as is asked for. -/
noncomputable def CostFunction.one (rows : Nat) : CostFunction ℝ Unit where
  numResiduals := 1
  sizes := [1]
  evaluate := fun _ jacobians u =>
    (some ⟨Vec.ofList [1], if jacobians then some [Mat.zeros rows 1] else none⟩, u)

theorem CostFunction.answers_one (rows : Nat) : (CostFunction.one rows).Answers
    fun _ jacobians => some ⟨Vec.ofList [1], if jacobians then some [Mat.zeros rows 1] else none⟩ :=
  fun _ _ _ => rfl

theorem CostFunction.shaped_one : (CostFunction.one 1).Shaped := by
  rintro point - jacobians u output houtput
  cases houtput
  refine ⟨rfl, fun js hjs i j n hj hn => ?_⟩
  cases jacobians with
  | false => cases hjs
  | true =>
      cases hjs
      cases i with
      | zero =>
          cases hj
          cases hn
          exact ⟨rfl, rfl⟩
      | succ i => cases hj

/-- An evaluation with a check of the derivative that was declared. -/
theorem gradientCheck_transparent_one :
    let check : GradientCheck ℝ := ⟨1 / 100000, 1 / 10000⟩
    let point : List (Vec ℝ) := [Vec.ofList [0]]
    let term : ResidualTerm ℝ Unit := ⟨⟨0⟩, .one 1, none, [.constant (Vec.ofList [0])]⟩
    let e : Evaluator ℝ Unit := ⟨[], [term], .general, some check, ⟨[], []⟩⟩
    (∃ r t', (CostFunction.one 1).evaluateChecked (some check) point true ⟨(), 0⟩ = .ok r t') ∧
      Agree (e.evaluate (Vec.zeros 0) true) (e.unchecked.evaluate (Vec.zeros 0) true) := by
  intro check point term e
  have hanswers := CostFunction.answers_one 1
  obtain ⟨-, hiff, hshaped⟩ := gradientCheck_transparent.1 _ _ hanswers check point true
  have hcomparable := hshaped CostFunction.shaped_one rfl
  refine ⟨(hiff ⟨(), 0⟩).mpr hcomparable, gradientCheck_transparent.2 e _ true fun t ht => ?_⟩
  obtain rfl := List.mem_singleton.mp ht
  refine ⟨_, hanswers, fun c hc => ?_⟩
  cases hc
  exact hcomparable

/-- A check breaks at a derivative with more rows than there are residuals. -/
theorem not_gradientCheck_transparent :
    ¬∀ (f : CostFunction ℝ Unit) (answer : List (Vec ℝ) → Bool → Option (CostOutput ℝ)),
      f.Answers answer → ∀ (check : GradientCheck ℝ) (point : List (Vec ℝ)),
        point.map Vec.size = f.sizes → ∀ wantJacobians t,
          ∃ t', f.evaluateChecked (some check) point wantJacobians t =
            .ok (answer point wantJacobians) t' := by
  intro h
  have hanswers := CostFunction.answers_one 2
  obtain ⟨t', ht'⟩ := h _ _ hanswers ⟨1, 1⟩ [Vec.ofList [0]] rfl true ⟨(), 0⟩
  have hcomparable := hanswers.evaluateChecked_iff.mp ⟨_, t', ht'⟩ _ rfl _ rfl
  obtain hnothing | ⟨-, hcovered⟩ := hcomparable
  · cases hnothing
  · obtain hrows | hcols | ⟨hrows, -⟩ := hcovered (Mat.zeros 2 1, Vec.ofList [0]) (by simp)
    · cases hrows
    · cases hcols
    · exact absurd hrows (by decide)

end Witnesses

end LeastSquares
