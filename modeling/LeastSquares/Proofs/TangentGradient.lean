import LeastSquares.Proofs.RobustGradient
import Mathlib.Analysis.Calculus.Deriv.Add
import Mathlib.Analysis.Calculus.Deriv.Comp
import Mathlib.Analysis.Calculus.Deriv.Mul
import Mathlib.Topology.Algebra.Module.ModuleTopology

/-!
# The gradient of the robust cost

The vector that an evaluation calls the gradient tells how fast the cost that
it reports changes. Let the free blocks move along a vector of the tangent
space, and let the residuals follow at the speed that the Jacobians of the
cost functions and the manifolds give them. Then the cost changes at a rate
that is the inner product of the gradient and the vector.

## Main definitions

* `ResidualBlock.velocity` — the speed of the residuals.
* `ResidualBlock.MovesAlong` — residuals that move at this speed, under a loss
  with the slope that it claims.

## Main results

* `Evaluator.WellFormed.dot_gradient` — the gradient along a vector.
* `ResidualBlock.MovesAlong.hasDerivAt_costOf` — the rate of one cost.
* `evaluate_gradient` — what the gradient of an evaluation is.
-/

namespace LeastSquares

open Finset (range)

variable {σ : Type}

/-! ## Products along a vector -/

theorem Mat.dot_tMulVec {a : Mat ℝ} {v u : Vec ℝ} (h : a.HasShape v.size u.size) :
    (a.tMulVec v).dot u = v.dot (a.mulVec u) := by
  rw [Vec.dot_eq_sum, Vec.dot_eq_sum, size_tMulVec, h.2]
  calc ∑ j ∈ range u.size, (a.tMulVec v).get j * u.get j
      = ∑ j ∈ range u.size, ∑ i ∈ range v.size, v.get i * (a.get i j * u.get j) := by
        refine Finset.sum_congr rfl fun j hj => ?_
        rw [get_tMulVec (h.2.symm ▸ Finset.mem_range.mp hj), h.1, Finset.sum_mul]
        exact Finset.sum_congr rfl fun i _ => by ring
    _ = ∑ i ∈ range v.size, v.get i * (a.mulVec u).get i := by
        rw [Finset.sum_comm]
        refine Finset.sum_congr rfl fun i hi => ?_
        rw [← Finset.mul_sum, get_mulVec (h.1.symm ▸ Finset.mem_range.mp hi), h.2]

/-- A double sum in either order. -/
theorem sum_map_comm {β γ : Type} (l : List β) (k : List γ) (f : β → γ → ℝ) :
    (l.map fun b => (k.map fun c => f b c).sum).sum =
      (k.map fun c => (l.map fun b => f b c).sum).sum := by
  induction l with
  | nil => simp
  | cons b l ih =>
      rw [List.map_cons, List.sum_cons, ih, ← List.sum_map_add]
      rfl

/-- The speed of the residuals when the free blocks move along a vector. -/
noncomputable def ResidualBlock.velocity (r : ResidualBlock ℝ σ) (o : CostOutput ℝ)
    (q : Problem ℝ σ) (blocks : List (FreeBlock ℝ)) (u : Vec ℝ) (m : Nat) : ℝ :=
  (blocks.map fun b => if b.id ∈ r.blocks then
    ((r.jacobianBy o b.id).mulVec
      ((q.tangentOf b.id).mulVec (u.slice b.deltaOffset b.localSize))).get m else 0).sum

/-- The gradient of a residual block along a vector. -/
theorem ResidualBlock.dot_gradientBy {r : ResidualBlock ℝ σ} {o : CostOutput ℝ} {id : BlockId}
    {tangent : Mat ℝ} {u : Vec ℝ} (hcols : tangent.cols = u.size)
    (hshape : (r.jacobianBy o id).HasShape o.residuals.size tangent.rows) :
    (r.gradientBy o id tangent).dot u = slopeOf r.loss o.residuals *
      o.residuals.dot ((r.jacobianBy o id).mulVec (tangent.mulVec u)) := by
  have hscale : (r.gradientBy o id tangent).dot u = slopeOf r.loss o.residuals *
      (tangent.tMulVec ((r.jacobianBy o id).tMulVec o.residuals)).dot u := by
    rw [Vec.dot_eq_sum, Vec.dot_eq_sum, Finset.mul_sum, gradientBy, Vec.size_scale]
    refine Finset.sum_congr rfl fun j _ => ?_
    rw [Vec.get_scale]
    ring
  rw [hscale, Mat.dot_tMulVec, Mat.dot_tMulVec]
  · exact ⟨hshape.1, hshape.2.trans (Mat.size_mulVec _ _).symm⟩
  · exact ⟨((Mat.size_tMulVec _ _).trans hshape.2).symm, hcols⟩

/-- Residuals times speeds, one block after the other. -/
theorem ResidualBlock.sum_velocity (r : ResidualBlock ℝ σ) (o : CostOutput ℝ) (q : Problem ℝ σ)
    (blocks : List (FreeBlock ℝ)) (u : Vec ℝ) :
    ∑ m ∈ range o.residuals.size, o.residuals.get m * r.velocity o q blocks u m =
      (blocks.map fun b => if b.id ∈ r.blocks then
        o.residuals.dot ((r.jacobianBy o b.id).mulVec
          ((q.tangentOf b.id).mulVec (u.slice b.deltaOffset b.localSize))) else 0).sum := by
  have hvelocity : ∀ m ∈ List.range o.residuals.size,
      o.residuals.get m * r.velocity o q blocks u m =
        (blocks.map fun b => o.residuals.get m * if b.id ∈ r.blocks then
          ((r.jacobianBy o b.id).mulVec ((q.tangentOf b.id).mulVec
            (u.slice b.deltaOffset b.localSize))).get m else 0).sum :=
    fun m _ => (List.sum_map_mul_left _ _ _).symm
  have hsum := congrArg List.sum (List.map_congr_left hvelocity)
  rw [sum_map_comm] at hsum
  refine hsum.trans (congrArg List.sum (List.map_congr_left fun b _ => ?_))
  split
  · rw [Vec.dot_eq_sum]
    rfl
  · simp

namespace Evaluator

variable {e : Evaluator ℝ σ}

/-- The blocks lie one after the other in the gradient. -/
theorem WellFormed.layout (he : e.WellFormed) :
    Block.layout (e.blocks.map FreeBlock.localSize) =
      e.blocks.map fun b => ⟨b.localSize, b.deltaOffset⟩ := by
  apply List.ext_getElem?
  intro k
  rw [getElem?_layout, List.getElem?_map, List.getElem?_map]
  cases hb : e.blocks[k]? with
  | none => rfl
  | some b =>
      rw [Option.map_some, Option.map_some, Option.map_some, he.place k b hb, List.map_take]

/-- What one block adds to the gradient along a vector. -/
theorem sum_gradient_block {b : FreeBlock ℝ} {grad u : Vec ℝ} {q : Problem ℝ σ}
    {cs : List (ResidualBlock ℝ σ × CostOutput ℝ)}
    (hcols : (q.tangentOf b.id).cols = b.localSize)
    (hshape : ∀ c ∈ cs, b.id ∈ c.1.blocks →
      (c.1.jacobianBy c.2 b.id).HasShape c.2.residuals.size (q.tangentOf b.id).rows)
    (hgrad : ∀ j < b.localSize, grad.get (b.deltaOffset + j) =
      (cs.map fun c => if b.id ∈ c.1.blocks then
        (c.1.gradientBy c.2 b.id (q.tangentOf b.id)).get j else 0).sum) :
    ∑ j ∈ range b.localSize, grad.get (b.deltaOffset + j) * u.get (b.deltaOffset + j) =
      (cs.map fun c => if b.id ∈ c.1.blocks then slopeOf c.1.loss c.2.residuals *
        c.2.residuals.dot ((c.1.jacobianBy c.2 b.id).mulVec
          ((q.tangentOf b.id).mulVec (u.slice b.deltaOffset b.localSize))) else 0).sum := by
  have hprod : ∀ j ∈ List.range b.localSize,
      grad.get (b.deltaOffset + j) * u.get (b.deltaOffset + j) =
        (cs.map fun c => (if b.id ∈ c.1.blocks then
          (c.1.gradientBy c.2 b.id (q.tangentOf b.id)).get j else 0) *
            u.get (b.deltaOffset + j)).sum := by
    intro j hj
    rw [hgrad j (List.mem_range.mp hj), List.sum_map_mul_right]
  refine (congrArg List.sum (List.map_congr_left hprod)).trans ?_
  rw [sum_map_comm]
  refine congrArg List.sum (List.map_congr_left fun c hc => ?_)
  split
  · rename_i hread
    have hslice : (u.slice b.deltaOffset b.localSize).size = b.localSize := Vec.size_slice _ _ _
    rw [← ResidualBlock.dot_gradientBy (hcols.trans hslice.symm) (hshape c hc hread),
      Vec.dot_eq_sum, ResidualBlock.gradientBy, Vec.size_scale, Mat.size_tMulVec, hcols]
    refine congrArg List.sum (List.map_congr_left fun j hj => ?_)
    rw [Vec.get_slice (List.mem_range.mp hj)]
  · simp

/-- The gradient along a vector is the sum, over the residual blocks, of the
slope times the inner product of residuals and speeds. -/
theorem WellFormed.dot_gradient (he : e.WellFormed) {grad u : Vec ℝ} {q : Problem ℝ σ}
    {cs : List (ResidualBlock ℝ σ × CostOutput ℝ)}
    (hsize : grad.size = e.numEffectiveParameters)
    (hcols : ∀ b ∈ e.blocks, (q.tangentOf b.id).cols = b.localSize)
    (hshape : ∀ b ∈ e.blocks, ∀ c ∈ cs, b.id ∈ c.1.blocks →
      (c.1.jacobianBy c.2 b.id).HasShape c.2.residuals.size (q.tangentOf b.id).rows)
    (hgrad : ∀ b ∈ e.blocks, ∀ j < b.localSize, grad.get (b.deltaOffset + j) =
      (cs.map fun c => if b.id ∈ c.1.blocks then
        (c.1.gradientBy c.2 b.id (q.tangentOf b.id)).get j else 0).sum) :
    grad.dot u = (cs.map fun c => slopeOf c.1.loss c.2.residuals *
      ∑ m ∈ range c.2.residuals.size,
        c.2.residuals.get m * c.1.velocity c.2 q e.blocks u m).sum := by
  rw [Vec.dot_eq_sum, hsize, numEffectiveParameters, sum_range_total, he.layout, List.map_map]
  have hblocks := congrArg List.sum (List.map_congr_left fun b hb =>
    sum_gradient_block (u := u) (hcols b hb) (hshape b hb) (hgrad b hb))
  refine hblocks.trans ?_
  rw [sum_map_comm]
  refine congrArg List.sum (List.map_congr_left fun c _ => ?_)
  rw [c.1.sum_velocity, ← List.sum_map_mul_left]
  refine congrArg List.sum (List.map_congr_left fun b _ => ?_)
  split
  · rfl
  · exact (mul_zero _).symm

end Evaluator

/-! ## Rates -/

/-- Residuals that move at the speed that the Jacobians give, from the answer
of the cost function on, under a loss with the slope that it claims. -/
structure ResidualBlock.MovesAlong (r : ResidualBlock ℝ σ) (o : CostOutput ℝ) (q : Problem ℝ σ)
    (blocks : List (FreeBlock ℝ)) (u : Vec ℝ) (moving : ℝ → Vec ℝ) : Prop where
  start : moving 0 = o.residuals
  size : ∀ s, (moving s).size = o.residuals.size
  velocity : ∀ m < o.residuals.size,
    HasDerivAt (fun s => (moving s).get m) (r.velocity o q blocks u m) 0
  loss : ∀ l ∈ r.loss, HasDerivAt (fun n => (l.evaluate n).value)
    (l.evaluate o.residuals.normSq).slope o.residuals.normSq

namespace ResidualBlock.MovesAlong

variable {r : ResidualBlock ℝ σ} {o : CostOutput ℝ} {q : Problem ℝ σ}
  {blocks : List (FreeBlock ℝ)} {u : Vec ℝ} {moving : ℝ → Vec ℝ}

theorem hasDerivAt_normSq (h : r.MovesAlong o q blocks u moving) :
    HasDerivAt (fun s => (moving s).normSq)
      (2 * ∑ m ∈ range o.residuals.size, o.residuals.get m * r.velocity o q blocks u m) 0 := by
  have hsum : HasDerivAt
      (fun s => ∑ m ∈ range o.residuals.size, (moving s).get m * (moving s).get m)
      (∑ m ∈ range o.residuals.size, (r.velocity o q blocks u m * (moving 0).get m +
        (moving 0).get m * r.velocity o q blocks u m)) 0 :=
    HasDerivAt.fun_sum fun m hm =>
      (h.velocity m (Finset.mem_range.mp hm)).mul (h.velocity m (Finset.mem_range.mp hm))
  simp only [Vec.normSq_eq_sum, h.size]
  rw [h.start] at hsum
  convert hsum using 1
  rw [Finset.mul_sum]
  exact Finset.sum_congr rfl fun m _ => by ring

/-- The cost of a residual block changes at the rate of its gradient. -/
theorem hasDerivAt_costOf (h : r.MovesAlong o q blocks u moving) :
    HasDerivAt (fun s => ResidualEvaluation.costOf r.loss (moving s))
      (slopeOf r.loss o.residuals *
        ∑ m ∈ range o.residuals.size, o.residuals.get m * r.velocity o q blocks u m) 0 := by
  have hnorm := h.hasDerivAt_normSq
  cases hloss : r.loss with
  | none =>
      have hcost : (fun s => ResidualEvaluation.costOf none (moving s)) =
          fun s => 1 / 2 * (moving s).normSq := by
        funext s
        simp only [ResidualEvaluation.costOf, real_mul, real_ofScientific]
        norm_num
      rw [hcost]
      refine (hnorm.const_mul (1 / 2 : ℝ)).congr_deriv ?_
      rw [slopeOf]
      ring
  | some l =>
      have hcost : (fun s => ResidualEvaluation.costOf (some l) (moving s)) =
          fun s => 1 / 2 * (l.evaluate (moving s).normSq).value := by
        funext s
        simp only [ResidualEvaluation.costOf, real_mul, real_ofScientific]
        norm_num
      have hl := h.loss l hloss
      rw [← h.start] at hl
      rw [hcost]
      refine ((hl.comp 0 hnorm).const_mul (1 / 2 : ℝ)).congr_deriv ?_
      rw [slopeOf, h.start]
      ring

end ResidualBlock.MovesAlong

/-- A sum of costs changes at the sum of the rates. -/
theorem hasDerivAt_sum {β : Type} {R : β → (ℝ → Vec ℝ) → Prop} {rate : β → ℝ}
    (cost : β → Vec ℝ → ℝ) (h : ∀ b moving, R b moving →
      HasDerivAt (fun s => cost b (moving s)) (rate b) 0)
    {l : List β} {movings : List (ℝ → Vec ℝ)} (hl : List.Forall₂ R l movings) :
    HasDerivAt (fun s => ((l.zip movings).map fun c => cost c.1 (c.2 s)).sum)
      (l.map rate).sum 0 := by
  induction hl with
  | nil => exact hasDerivAt_const 0 0
  | cons hb _ ih => exact (h _ _ hb).add ih

/-- Residuals start where the cost functions have put them. -/
theorem sum_costOf_start {q : Problem ℝ σ} {blocks : List (FreeBlock ℝ)} {u : Vec ℝ}
    {cs : List (ResidualBlock ℝ σ × CostOutput ℝ)} {movings : List (ℝ → Vec ℝ)}
    (h : List.Forall₂ (fun c moving => c.1.MovesAlong c.2 q blocks u moving) cs movings) :
    ((cs.zip movings).map fun c => ResidualEvaluation.costOf c.1.1.loss (c.2 0)).sum =
      (cs.map fun c => ResidualEvaluation.costOf c.1.loss c.2.residuals).sum := by
  induction h with
  | nil => rfl
  | cons hc _ ih =>
      rw [List.zip_cons_cons, List.map_cons, List.sum_cons, List.map_cons, List.sum_cons, ih]
      exact congrArg (ResidualEvaluation.costOf _ · + _) hc.start

/-- What an evaluation calls the gradient. By each free block it is the sum,
over the residual blocks that read it, of the slope of the loss times the
transposed derivatives times the residuals, all as the cost functions gave
them. So it is the gradient, along the tangent space, of the cost that the
evaluation reports: when residuals move at the speed that the Jacobians give,
the cost changes at the rate that the gradient gives. -/
theorem evaluate_gradient {p : Problem ℝ σ} (hp : p.Reachable) {g : Program}
    (hn : g.blocks.Nodup) {kind : LinearSolverKind} {eliminated : Nat}
    {check : Option (GradientCheck ℝ)} {e : Evaluator ℝ σ}
    (he : Evaluator.create p g kind eliminated check = .ok e) {x : Vec ℝ} {t t' : Tally σ}
    {ev : Evaluation ℝ} (hev : e.evaluate x true t = .ok (some ev) t') :
    ∃ q rs outs grad, g.Asks p check x t t' q rs outs ∧
      ev.cost = ((rs.zip outs).map fun c =>
        ResidualEvaluation.costOf c.1.loss c.2.residuals).sum ∧
      ev.gradient = some grad ∧ grad.size = e.numEffectiveParameters ∧
      e.blocks.map FreeBlock.id = g.blocks ∧
      (∀ b ∈ e.blocks,
        (∃ c, q.block? b.id = some c ∧ c.tangentMap = .ok (q.tangentOf b.id)) ∧
        ((∀ c ∈ rs.zip outs, b.id ∈ c.1.blocks → 0 < slopeOf c.1.loss c.2.residuals) →
          ∀ j < b.localSize, grad.get (b.deltaOffset + j) =
            ((rs.zip outs).map fun c =>
              if b.id ∈ c.1.blocks then (c.1.gradientBy c.2 b.id (q.tangentOf b.id)).get j
              else 0).sum)) ∧
      ((∀ c ∈ rs.zip outs, (∃ id ∈ g.blocks, id ∈ c.1.blocks) →
          0 < slopeOf c.1.loss c.2.residuals) →
        ∀ u movings, List.Forall₂ (fun c moving => c.1.MovesAlong c.2 q e.blocks u moving)
            (rs.zip outs) movings →
          let costAt := fun s =>
            (((rs.zip outs).zip movings).map fun c =>
              ResidualEvaluation.costOf c.1.1.loss (c.2 s)).sum
          costAt 0 = ev.cost ∧ HasDerivAt costAt (grad.dot u) 0) := by
  obtain ⟨hmade, -, -⟩ := Evaluator.create_eq_ok he
  obtain ⟨q, rs, outs, grad, hasks, hcost, hgrad, hsize, hblocks⟩ :=
    Evaluator.exists_gradientBy hp hn he hev
  have hids := Evaluator.map_id_freeBlocks hmade.blocks
  refine ⟨q, rs, outs, grad, hasks, hcost, hgrad, hsize, hids, fun b hb => ?_, ?_⟩
  · obtain ⟨hblock, -, -, hformula⟩ := hblocks b hb
    exact ⟨hblock, hformula⟩
  · intro hslope u movings hmovings
    refine ⟨(sum_costOf_start hmovings).trans hcost.symm, ?_⟩
    rw [(hmade.wellFormed hp.coherent).dot_gradient hsize
      (fun b hb => (hblocks b hb).2.1) (fun b hb => (hblocks b hb).2.2.1) fun b hb =>
        (hblocks b hb).2.2.2 fun c hc hread =>
          hslope c hc ⟨b.id, hids ▸ List.mem_map_of_mem hb, hread⟩]
    exact hasDerivAt_sum (fun c => ResidualEvaluation.costOf c.1.loss)
      (fun _ _ h => h.hasDerivAt_costOf) hmovings

private theorem loss_anchored {i : ResidualId} {r : ResidualBlock ℝ Unit}
    (hr : (Gallery.anchored ℝ).residual? i = some r) : r.loss = none := by
  match i with
  | ⟨0⟩ =>
      cases hr
      rfl
  | ⟨1⟩ =>
      cases hr
      rfl
  | ⟨n + 2⟩ => cases hr

private theorem exists_evaluate_anchored : ∃ e ev t',
    Evaluator.create (Gallery.anchored ℝ) (.ofProblem (Gallery.anchored ℝ)) .denseQR 0 none =
      .ok e ∧
    e.evaluate (Vec.ofList [(4 : ℝ), 7]) true ⟨(), 0⟩ = .ok (some ev) t' := by
  with_unfolding_all exact ⟨_, _, _, rfl, rfl⟩

theorem evaluate_gradient_anchored : ∃ e ev t',
    Evaluator.create (Gallery.anchored ℝ) (.ofProblem (Gallery.anchored ℝ)) .denseQR 0 none =
      .ok e ∧
    e.evaluate (Vec.ofList [(4 : ℝ), 7]) true ⟨(), 0⟩ = .ok (some ev) t' ∧
    ∃ q rs outs grad,
      (Program.ofProblem (Gallery.anchored ℝ)).Asks (Gallery.anchored ℝ) none
        (Vec.ofList [(4 : ℝ), 7]) ⟨(), 0⟩ t' q rs outs ∧ ev.gradient = some grad ∧
      ∀ b ∈ e.blocks, ∀ j < b.localSize, grad.get (b.deltaOffset + j) =
        ((rs.zip outs).map fun c =>
          if b.id ∈ c.1.blocks then (c.1.gradientBy c.2 b.id (q.tangentOf b.id)).get j
          else 0).sum := by
  obtain ⟨e, ev, t', he, hev⟩ := exists_evaluate_anchored
  have hn : (Program.ofProblem (Gallery.anchored ℝ)).blocks.Nodup :=
    Problem.nodup_blockIds (by decide)
  obtain ⟨q, rs, outs, grad, hasks, -, hgrad, -, -, hblocks, -⟩ :=
    evaluate_gradient Gallery.reachable_anchored hn he hev
  refine ⟨e, ev, t', he, hev, q, rs, outs, grad, hasks, hgrad, fun b hb => (hblocks b hb).2 ?_⟩
  intro c hc _
  obtain ⟨i, -, hi⟩ := exists_left_of_forall₂ (mapM_eq_ok_iff.mp hasks.residuals) c.1
    (List.of_mem_zip hc).1
  rw [loss_anchored (Problem.residual_eq_ok.mp hi)]
  exact one_pos

end LeastSquares
