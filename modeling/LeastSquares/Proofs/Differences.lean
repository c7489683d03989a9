import LeastSquares.Proofs.GradientCheck
import LeastSquares.Proofs.Matrices
import Mathlib.Algebra.Polynomial.Degree.SmallDegree
import Mathlib.Analysis.Calculus.Deriv.Polynomial
import Mathlib.Tactic.IntervalCases
import Mathlib.Topology.Algebra.Module.ModuleTopology

/-!
# Exact central differences

Central differences ask a cost function at two points for every coordinate, and
each of these points differs from the given one in that coordinate alone. If the
cost function succeeds there, the differences are matrices in which every entry
depends on two residuals. For a residual that is a polynomial of degree at most
two in the coordinate, the second order terms cancel, so that the entry is the
derivative itself, however long the step.

What a cost function is asked is read off the state that it changes: the state
after the differences is the one after the questions, and a cost function that
notes its questions has noted them.

## Main definitions

* `CostFunction.GivesAround` — success at all points of the sizes of a point.
* `CostFunction.Asks` — what a computation asks, and what it gives.
* `CostFunction.probes` — the points that differences ask at.
* `CostFunction.recorded` — a cost function that notes its questions.
* `CostFunction.DiffersInOne` — points that differ in a single coordinate.

## Main results

* `CostFunction.GivesAround.run_numericJacobians` — what differences ask, and
  what they give.
* `central_difference_eq` — differences of polynomials of degree two.
* `CostFunction.GivesAround.numericJacobians_exact` — differences that are
  derivatives.
-/

namespace LeastSquares

namespace CostFunction

variable {α σ β γ : Type}

/-! ## Questions -/

section Questions

variable {f : CostFunction α σ} {points : List (List (Vec α))}

/-- The state of a cost function after it was asked for residuals at some points,
in order. -/
def after (f : CostFunction α σ) (points : List (List (Vec α))) (u : σ) : σ :=
  points.foldl (fun u point => (f.evaluate point false u).2) u

theorem after_append (f : CostFunction α σ) (points others : List (List (Vec α))) (u : σ) :
    f.after (points ++ others) u = f.after others (f.after points u) := List.foldl_append

/-- A computation asks for residuals at some points, in order, and gives a value. -/
def Asks (f : CostFunction α σ) (points : List (List (Vec α))) (x : OptionT (Calls σ) β)
    (b : β) : Prop :=
  ∀ t, x.run t = .ok (some b) { t with user := f.after points t.user }

theorem asks_pure (b : β) : f.Asks [] (pure b) b := fun _ => rfl

theorem Asks.bind {others : List (List (Vec α))} {x : OptionT (Calls σ) β}
    {g : β → OptionT (Calls σ) γ} {b : β} {c : γ} (hx : f.Asks points x b)
    (hg : f.Asks others (g b) c) : f.Asks (points ++ others) (x >>= g) c := fun t => by
  rw [optionT_bind_apply, hx t, f.after_append]
  exact hg _

/-- A traversal asks what its steps ask. -/
theorem Asks.mapM {g : β → OptionT (Calls σ) γ} {value : β → γ}
    {asked : β → List (List (Vec α))} (h : ∀ b, f.Asks (asked b) (g b) (value b)) (l : List β) :
    f.Asks (l.flatMap asked) (l.mapM g) (l.map value) := by
  induction l with
  | nil => exact asks_pure []
  | cons b l ih =>
      rw [List.mapM_cons, List.map_cons, List.flatMap_cons]
      refine (h b).bind ?_
      rw [← List.append_nil (l.flatMap asked)]
      exact ih.bind (asks_pure _)

/-- At all points of the sizes of a given one the cost function succeeds, with as
many residuals as declared, which depend on the point alone. -/
def GivesAround (f : CostFunction α σ) (residuals : List (Vec α) → Vec α)
    (point : List (Vec α)) : Prop :=
  ∀ p, p.map Vec.size = point.map Vec.size → (residuals p).size = f.numResiduals ∧
    ∀ u, ∃ output, (f.evaluate p false u).1 = some output ∧ output.residuals = residuals p

variable {residuals : List (Vec α) → Vec α} {point p : List (Vec α)}

theorem GivesAround.asks_residualsAt (h : f.GivesAround residuals point)
    (hp : p.map Vec.size = point.map Vec.size) :
    f.Asks [p] (f.residualsAt p) (residuals p) := fun t => by
  obtain ⟨output, houtput, hresiduals⟩ := (h p hp).2 t.user
  show EStateM.Result.ok ((f.evaluate p false t.user).1.map CostOutput.residuals) _ = _
  rw [houtput, Option.map_some, hresiduals]
  rfl

/-- A cost function that notes the points it is asked at. -/
def recorded (f : CostFunction α σ) : CostFunction α (σ × List (List (Vec α))) where
  numResiduals := f.numResiduals
  sizes := f.sizes
  evaluate point jacobians s :=
    let (output, u) := f.evaluate point jacobians s.1
    (output, u, s.2 ++ [point])

theorem after_recorded (f : CostFunction α σ) (points log : List (List (Vec α))) (u : σ) :
    f.recorded.after points (u, log) = (f.after points u, log ++ points) := by
  induction points generalizing u log with
  | nil => simp [after]
  | cons p points ih =>
      have hcons := ih (log ++ [p]) (f.evaluate p false u).2
      rwa [List.append_assoc] at hcons

theorem GivesAround.recorded (h : f.GivesAround residuals point) :
    f.recorded.GivesAround residuals point := fun p hp =>
  ⟨(h p hp).1, fun s => (h p hp).2 s.1⟩

end Questions

/-! ## What differences ask, and what they give -/

section Differences

variable [Scalar α] {f : CostFunction α σ} {residuals : List (Vec α) → Vec α}
  {point : List (Vec α)}

/-- The points at which the difference in one coordinate asks. -/
def columnProbes (step : α) (point : List (Vec α)) (block coordinate : Nat) :
    List (List (Vec α)) :=
  let value := (point.getD block default).get coordinate
  let h := stepLength step value
  [moved point block coordinate (value + h), moved point block coordinate (value - h)]

/-- The points at which the differences in all coordinates ask. -/
def probes (step : α) (point : List (Vec α)) : List (List (Vec α)) :=
  (List.range point.length).flatMap fun block =>
    (List.range (point.getD block default).size).flatMap fun j =>
      columnProbes step point block j

/-- The difference of residuals in one coordinate. -/
def columnOf (residuals : List (Vec α) → Vec α) (step : α) (point : List (Vec α))
    (block coordinate : Nat) : Vec α :=
  let value := (point.getD block default).get coordinate
  let h := stepLength step value
  (residuals (moved point block coordinate (value + h)) -
    residuals (moved point block coordinate (value - h))).map fun d => d / (2.0 * h)

/-- The differences of residuals in one block. -/
def jacobianOf (m : Nat) (residuals : List (Vec α) → Vec α) (step : α) (point : List (Vec α))
    (block : Nat) : Mat α :=
  Mat.ofFn m (point.getD block default).size fun i j =>
    (columnOf residuals step point block j).get i

theorem GivesAround.asks_numericColumn (h : f.GivesAround residuals point) (step : α)
    (block coordinate : Nat) :
    f.Asks (columnProbes step point block coordinate)
      (f.numericColumn step point block coordinate)
      (columnOf residuals step point block coordinate) := by
  have hsizes := sizes_moved point block coordinate
  show f.Asks ([_] ++ ([_] ++ [])) _ _
  refine (h.asks_residualsAt (hsizes _)).bind ((h.asks_residualsAt (hsizes _)).bind ?_)
  rw [if_pos ⟨(h _ (hsizes _)).1, (h _ (hsizes _)).1⟩]
  exact asks_pure _

theorem GivesAround.asks_numericJacobian (h : f.GivesAround residuals point) (step : α)
    (block : Nat) :
    f.Asks ((List.range (point.getD block default).size).flatMap
        (columnProbes step point block)) (f.numericJacobian step point block)
      (jacobianOf f.numResiduals residuals step point block) := by
  have hcolumns := Asks.mapM (h.asks_numericColumn step block)
    (List.range (point.getD block default).size)
  have hentries : jacobianOf f.numResiduals residuals step point block =
      Mat.ofFn f.numResiduals (point.getD block default).size fun i j =>
        (((List.range (point.getD block default).size).map
          (columnOf residuals step point block)).getD j default).get i := by
    refine Mat.ofFn_congr fun i _ j hj => ?_
    rw [List.getD_eq_getElem?_getD, List.getElem?_map, List.getElem?_range hj]
    rfl
  rw [← List.append_nil (List.flatMap _ _), hentries]
  exact hcolumns.bind (asks_pure _)

/-- Differences ask at their probes, in order, and give one matrix for every
block. -/
theorem GivesAround.run_numericJacobians (h : f.GivesAround residuals point) (step : α)
    (t : Tally σ) :
    f.numericJacobians step point t =
      .ok (some ((List.range point.length).map (jacobianOf f.numResiduals residuals step point)))
        { t with user := f.after (probes step point) t.user } := by
  rw [numericJacobians_eq]
  exact Asks.mapM (h.asks_numericJacobian step) (List.range point.length) t

end Differences

/-! ## Probes differ in one coordinate -/

section Probes

theorem getD_of_getElem? {point : List (Vec α)} {block : Nat} {v : Vec α}
    (hv : point[block]? = some v) : point.getD block default = v := by
  rw [List.getD_eq_getElem?_getD, hv, Option.getD_some]

variable [Scalar α]

/-- The coordinates of a moved point. -/
theorem get_moved {point : List (Vec α)} {block coordinate : Nat} {v : Vec α}
    (hv : point[block]? = some v) (h : coordinate < v.size) (a : α) (b i : Nat) :
    ((moved point block coordinate a).getD b default).get i =
      if b = block ∧ i = coordinate then a else (point.getD b default).get i := by
  rw [moved, List.getD_eq_getElem?_getD, List.getElem?_modify]
  by_cases hb : block = b
  · subst hb
    simp [hv, Vec.get_set, h]
  · simp [hb, Ne.symm hb]

/-- A point that differs from another one of the same sizes in a single
coordinate. -/
def DiffersInOne (point p : List (Vec α)) : Prop :=
  p.map Vec.size = point.map Vec.size ∧ ∃ block coordinate, ∀ b i,
    (p.getD b default).get i ≠ (point.getD b default).get i ↔ b = block ∧ i = coordinate

theorem differsInOne_moved {point : List (Vec α)} {block coordinate : Nat} {v : Vec α}
    (hv : point[block]? = some v) (h : coordinate < v.size) {a : α} (ha : a ≠ v.get coordinate) :
    DiffersInOne point (moved point block coordinate a) := by
  refine ⟨sizes_moved point block coordinate a, block, coordinate, fun b i => ?_⟩
  rw [get_moved hv h]
  by_cases hat : b = block ∧ i = coordinate
  · obtain ⟨rfl, rfl⟩ := hat
    rw [if_pos ⟨rfl, rfl⟩, getD_of_getElem? hv]
    exact iff_of_true ha ⟨rfl, rfl⟩
  · rw [if_neg hat]
    exact iff_of_false (fun hne => hne rfl) hat

theorem exists_of_mem_probes {step : α} {point p : List (Vec α)} (h : p ∈ probes step point) :
    ∃ block v j, point[block]? = some v ∧ j < v.size ∧ p ∈ columnProbes step point block j := by
  obtain ⟨block, hblock, h⟩ := List.mem_flatMap.mp h
  obtain ⟨j, hj, h⟩ := List.mem_flatMap.mp h
  have hv := List.getElem?_eq_getElem (List.mem_range.mp hblock)
  rw [getD_of_getElem? hv] at hj
  exact ⟨block, _, j, hv, List.mem_range.mp hj, h⟩

end Probes

end CostFunction

/-! ## Differences of polynomials -/

/-- The terms of even order cancel. -/
theorem central_difference_eq {q : Polynomial ℝ} (hq : q.natDegree ≤ 2) (x : ℝ) {h : ℝ}
    (hh : h ≠ 0) :
    (q.eval (x + h) - q.eval (x - h)) / (2 * h) = q.derivative.eval x := by
  have heval : ∀ y, q.eval y = q.coeff 0 + q.coeff 1 * y + q.coeff 2 * y ^ 2 := fun y => by
    rw [Polynomial.eval_eq_sum_range' (show q.natDegree < 3 by omega)]
    simp [Finset.sum_range_succ]
  have hderivative : q.derivative.eval x = q.coeff 1 + q.coeff 2 * 2 * x := by
    have hlt : q.derivative.natDegree < 2 := (q.natDegree_derivative_le).trans_lt (by omega)
    rw [Polynomial.eval_eq_sum_range' hlt]
    simp [Finset.sum_range_succ, Polynomial.coeff_derivative]
    norm_num
  rw [heval, heval, hderivative]
  field_simp
  ring

namespace CostFunction

variable {σ : Type} {f : CostFunction ℝ σ} {residuals : List (Vec ℝ) → Vec ℝ}
  {point : List (Vec ℝ)} {step : ℝ}

theorem stepLength_pos (hstep : 0 < step) (value : ℝ) : 0 < stepLength step value := by
  rw [stepLength, real_max, real_mul, real_one]
  exact mul_pos hstep (lt_max_of_lt_right one_pos)

/-- A probe is moved by the length of the step. -/
theorem differsInOne_of_mem_probes (hstep : 0 < step) {p : List (Vec ℝ)}
    (h : p ∈ probes step point) : DiffersInOne point p := by
  obtain ⟨block, v, j, hv, hj, h⟩ := exists_of_mem_probes h
  have hpos := stepLength_pos hstep (v.get j)
  rw [columnProbes, getD_of_getElem? hv, List.mem_cons, List.mem_singleton] at h
  rcases h with rfl | rfl
  · exact differsInOne_moved hv hj (lt_add_of_pos_right _ hpos).ne'
  · exact differsInOne_moved hv hj (sub_lt_self _ hpos).ne

/-- The difference of a residual that is a polynomial of degree two in the
coordinate. -/
theorem GivesAround.get_jacobianOf (h : f.GivesAround residuals point) (hstep : 0 < step)
    {block i j : Nat} {v : Vec ℝ} (hv : point[block]? = some v) (hi : i < f.numResiduals)
    (hj : j < v.size) {q : Polynomial ℝ} (hq : q.natDegree ≤ 2)
    (hresidual : ∀ a, (residuals (moved point block j a)).get i = q.eval a) :
    (jacobianOf f.numResiduals residuals step point block).get i j =
      q.derivative.eval (v.get j) := by
  have hlength := (stepLength_pos hstep (v.get j)).ne'
  have hsize : ∀ a, i < (residuals (moved point block j a)).size := fun a =>
    hi.trans_eq (h _ (sizes_moved point block j a)).1.symm
  rw [jacobianOf, getD_of_getElem? hv, Mat.get_ofFn _ hi hj, columnOf, getD_of_getElem? hv,
    Vec.get_map _ (by rw [Vec.size_sub]; exact hsize _), Vec.get_sub (hsize _), hresidual,
    hresidual, ← central_difference_eq hq (v.get j) hlength]
  simp only [real_div, real_mul, real_ofScientific, real_two, real_add, real_sub]

/-- Central differences are exact. If a cost function succeeds around a point and
every residual is there a polynomial of degree at most two in each coordinate alone,
then differences give one matrix for every block, which has the partial derivatives
for entries. Meanwhile the cost function is asked only at points that differ from the
given one in a single coordinate. -/
theorem GivesAround.numericJacobians_exact (h : f.GivesAround residuals point)
    (hquadratic : ∀ (block : Nat) v, point[block]? = some v → ∀ j < v.size,
      ∀ i < f.numResiduals, ∃ q : Polynomial ℝ, q.natDegree ≤ 2 ∧
        ∀ a, (residuals (moved point block j a)).get i = q.eval a)
    (hstep : 0 < step) (t : Tally σ) (log : List (List (Vec ℝ))) :
    ∃ js u asked, f.numericJacobians step point t = .ok (some js) { t with user := u } ∧
      js.length = point.length ∧
      (∀ (block : Nat) v J, point[block]? = some v → js[block]? = some J →
        J.HasShape f.numResiduals v.size ∧
        ∀ i < f.numResiduals, ∀ j < v.size,
          HasDerivAt (fun a => (residuals (moved point block j a)).get i) (J.get i j)
            (v.get j)) ∧
      f.recorded.numericJacobians step point ⟨(t.user, log), t.mismatches⟩ =
        .ok (some js) ⟨(u, log ++ asked), t.mismatches⟩ ∧
      ∀ p ∈ asked, DiffersInOne point p := by
  refine ⟨_, _, probes step point, h.run_numericJacobians step t, by simp,
    fun block v J hv hJ => ?_, ?_, fun p hp => differsInOne_of_mem_probes hstep hp⟩
  · have hblock : block < point.length := (List.getElem?_eq_some_iff.mp hv).1
    rw [List.getElem?_map, List.getElem?_range hblock, Option.map_some, Option.some.injEq] at hJ
    subst hJ
    refine ⟨⟨rfl, congrArg Vec.size (getD_of_getElem? hv)⟩, fun i hi j hj => ?_⟩
    obtain ⟨q, hq, hresidual⟩ := hquadratic block v hv j hj i hi
    rw [h.get_jacobianOf hstep hv hi hj hq hresidual, funext hresidual]
    exact q.hasDerivAt (v.get j)
  · rw [h.recorded.run_numericJacobians step, after_recorded]
    rfl

/-! ## A product across blocks -/

section Product

/-- The product of all coordinates of two blocks, and the distance from a parabola. -/
noncomputable def productOf (point : List (Vec ℝ)) : Vec ℝ :=
  let x := point.getD 0 default
  let y := point.getD 1 default
  .ofList [x.get 0 * x.get 1 * y.get 0, x.get 0 * x.get 0 - y.get 0]

/-- A cost function in which the coordinates are coupled across blocks. -/
noncomputable def product : CostFunction ℝ Unit where
  numResiduals := 2
  sizes := [2, 1]
  evaluate point _ u := (some ⟨productOf point, none⟩, u)

theorem givesAround_product (point : List (Vec ℝ)) : product.GivesAround productOf point :=
  fun _ _ => ⟨rfl, fun _ => ⟨_, rfl, rfl⟩⟩

open Polynomial in
theorem exists_polynomial {g : ℝ → ℝ} (a b c : ℝ) (hg : ∀ x, g x = a * x ^ 2 + b * x + c) :
    ∃ q : Polynomial ℝ, q.natDegree ≤ 2 ∧ ∀ x, g x = q.eval x :=
  ⟨C a * X ^ 2 + C b * X + C c, natDegree_quadratic_le, fun x => by simp [hg]⟩

theorem quadratic_product (a b c : ℝ) (block : Nat) (v : Vec ℝ)
    (hv : [Vec.ofList [a, b], Vec.ofList [c]][block]? = some v) :
    ∀ j < v.size, ∀ i < product.numResiduals, ∃ q : Polynomial ℝ, q.natDegree ≤ 2 ∧
      ∀ t, (productOf (moved [Vec.ofList [a, b], Vec.ofList [c]] block j t)).get i = q.eval t := by
  intro j hj i hi
  have hi : i < 2 := hi
  match block with
  | 0 =>
      cases hv
      have hj : j < 2 := hj
      interval_cases j <;> interval_cases i
      · exact exists_polynomial 0 (b * c) 0 fun t => show t * b * c = _ by ring
      · exact exists_polynomial 1 0 (-c) fun t => show t * t - c = _ by ring
      · exact exists_polynomial 0 (a * c) 0 fun t => show a * t * c = _ by ring
      · exact exists_polynomial 0 0 (a * a - c) fun t => show a * a - c = _ by ring
  | 1 =>
      cases hv
      have hj : j < 1 := hj
      interval_cases j
      interval_cases i
      · exact exists_polynomial 0 (a * b) 0 fun t => show a * b * t = _ by ring
      · exact exists_polynomial 0 (-1) (a * a) fun t => show a * a - t = _ by ring
  | block + 2 => cases hv

/-- The differences of a product, in every one of which the other coordinates take
part. -/
theorem GivesAround.numericJacobians_exact_product :
    let point : List (Vec ℝ) := [.ofList [3, -3 / 2], .ofList [2]]
    ∃ J K t, product.numericJacobians (1 / 1000000) point ⟨(), 0⟩ = .ok (some [J, K]) t ∧
      J.get 0 1 = 6 ∧ J.get 1 0 = 6 ∧ K.get 0 0 = -9 / 2 := by
  intro point
  obtain ⟨js, u, asked, hrun, hlength, hentries, -⟩ :=
    GivesAround.numericJacobians_exact (givesAround_product point) (quadratic_product 3 (-3 / 2) 2)
      (show (0 : ℝ) < 1 / 1000000 by norm_num) ⟨(), 0⟩ []
  obtain ⟨J, K, rfl⟩ := List.length_eq_two.mp hlength
  obtain ⟨-, hJ⟩ := hentries 0 _ J rfl rfl
  obtain ⟨-, hK⟩ := hentries 1 _ K rfl rfl
  refine ⟨J, K, _, hrun, ?_, ?_, ?_⟩
  · have hpartial := ((hasDerivAt_id' (-3 / 2 : ℝ)).const_mul 3).mul_const 2
    exact ((hJ 0 two_pos 1 one_lt_two).unique hpartial).trans (by norm_num)
  · have hpartial := ((hasDerivAt_id' (3 : ℝ)).fun_mul (hasDerivAt_id' 3)).sub_const 2
    exact ((hJ 1 one_lt_two 0 two_pos).unique hpartial).trans (by norm_num)
  · have hpartial := (hasDerivAt_id' (2 : ℝ)).const_mul (3 * (-3 / 2))
    exact ((hK 0 two_pos 0 one_pos).unique hpartial).trans (by norm_num)

end Product

end CostFunction

end LeastSquares
