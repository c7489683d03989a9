import LeastSquares.Proofs.Gradient
import LeastSquares.Proofs.Posed

/-!
# The gradient by parameter blocks

The gradient that an evaluation finds, in terms of the problem that the
evaluator was made from: by each parameter block of the program it is the sum,
over the residual blocks that read it, of the slope of the loss times the
transposed derivative of the residuals along the manifold times the residuals.
Residuals and derivatives are the answers that the cost functions give, and
the values at which they give them are those of the state.

## Main definitions

* `Problem.tangentOf` — the derivative along the manifold.
* `ResidualBlock.gradientBy` — the gradient of one residual block.
* `Program.Asks` — what an evaluation asks, and the answers.

## Main results

* `Evaluator.exists_gradientBy` — the gradient is the sum over the residual
  blocks.
-/

namespace LeastSquares

variable {σ : Type}

/-- The derivative along the manifold of a block of a problem. -/
noncomputable def Problem.tangentOf (q : Problem ℝ σ) (id : BlockId) : Mat ℝ :=
  ((q.block? id).bind fun b => b.tangentMap.toOption).getD default

theorem Problem.tangentOf_eq {q : Problem ℝ σ} {id : BlockId} {b : ParameterBlock ℝ} {m : Mat ℝ}
    (hb : q.block? id = some b) (hm : b.tangentMap = .ok m) : q.tangentOf id = m := by
  rw [tangentOf, hb, Option.bind_some, hm]
  rfl

/-- The Jacobian by a parameter block that the residual block reads, as the cost
function gave it. -/
def ResidualBlock.jacobianBy {α : Type} [Scalar α] (r : ResidualBlock α σ) (o : CostOutput α)
    (id : BlockId) : Mat α :=
  (o.jacobians.getD []).getD (r.blocks.idxOf id) default

/-- The gradient of a residual block by a parameter block that it reads, for
an answer of its cost function and a derivative along the manifold: the slope
of the loss times the transposed derivatives times the residuals. -/
noncomputable def ResidualBlock.gradientBy (r : ResidualBlock ℝ σ) (o : CostOutput ℝ)
    (id : BlockId) (tangent : Mat ℝ) : Vec ℝ :=
  (tangent.tMulVec ((r.jacobianBy o id).tMulVec o.residuals)).scale (slopeOf r.loss o.residuals)

namespace Evaluator

variable {g : Program} {q : Problem ℝ σ} {e : Evaluator ℝ σ} {x : Vec ℝ}

/-- The gradient of a term is the one of its residual block. -/
theorem StandsFor.gradientBy {t : ResidualTerm ℝ σ} {r : ResidualBlock ℝ σ}
    (h : e.StandsFor g q x t r) (hn : g.blocks.Nodup) {k : Nat} {id : BlockId}
    (hk : g.blocks[k]? = some id) (o : CostOutput ℝ) (tangent : Mat ℝ) :
    t.gradientBy o k tangent =
      if id ∈ r.blocks then some (r.gradientBy o id tangent) else none := by
  rw [ResidualTerm.gradientBy, h.findIdx? hn hk, h.loss]
  split <;> rfl

end Evaluator

/-- What an evaluation at a state asks, and the answers: the problem with the
state in it, the residual blocks of the program, and the answer of the cost
function of each at the values of its blocks. -/
structure Program.Asks (g : Program) (p : Problem ℝ σ) (check : Option (GradientCheck ℝ))
    (x : Vec ℝ) (t t' : Tally σ) (q : Problem ℝ σ) (rs : List (ResidualBlock ℝ σ))
    (outs : List (CostOutput ℝ)) : Prop where
  scatter : g.scatter x p = .ok q
  residuals : g.residuals.mapM p.residual = .ok rs
  outputs : ∃ points, rs.mapM (fun r => r.blocks.mapM q.values) = .ok points ∧
    (rs.zip points).mapM (fun c => c.1.cost.evaluateChecked check c.2 true) t =
      .ok (outs.map some) t'
  length : outs.length = rs.length

/-- What an evaluator asks for its terms is asked for the residual blocks that
they stand for. -/
theorem Evaluator.MadeOf.exists_asks {p : Problem ℝ σ} {g : Program} {e : Evaluator ℝ σ}
    (h : e.MadeOf p g) (hn : g.blocks.Nodup) {x : Vec ℝ} (hsize : x.size = e.numParameters)
    {outs : List (CostOutput ℝ)} {t t' : Tally σ} (hlen : outs.length = e.terms.length)
    (houtputs : e.outputs x true t = .ok (outs.map some) t') :
    ∃ q rs, g.Asks p e.check x t t' q rs outs ∧ Problem.SameShape p q ∧ g.Holds q x ∧
      List.Forall₂ (e.StandsFor g q x) e.terms rs := by
  obtain ⟨q, cs, rs, hposes, hs, hholds, -, hstands⟩ := h.exists_poses hn hsize
  refine ⟨q, rs, ⟨hposes.scatter, hposes.residuals, ⟨_, hposes.points, ?_⟩,
    hlen.trans hstands.length_eq⟩, hs, hholds, hstands⟩
  rw [← houtputs, Evaluator.mapM_points hstands fun f point => f.evaluateChecked e.check point true]
  rfl

/-- The gradient that an evaluation finds is the sum over the residual blocks
of their gradients, where the losses rise. -/
theorem Evaluator.exists_gradientBy {p : Problem ℝ σ} (hp : p.Reachable) {g : Program}
    (hn : g.blocks.Nodup) {kind : LinearSolverKind} {eliminated : Nat}
    {check : Option (GradientCheck ℝ)} {e : Evaluator ℝ σ}
    (he : Evaluator.create p g kind eliminated check = .ok e) {x : Vec ℝ} {t t' : Tally σ}
    {ev : Evaluation ℝ} (hev : e.evaluate x true t = .ok (some ev) t') :
    ∃ q rs outs grad, g.Asks p check x t t' q rs outs ∧
      ev.cost = ((rs.zip outs).map fun c =>
        ResidualEvaluation.costOf c.1.loss c.2.residuals).sum ∧
      ev.gradient = some grad ∧ grad.size = e.numEffectiveParameters ∧
      ∀ b ∈ e.blocks,
        (∃ c, q.block? b.id = some c ∧ c.tangentMap = .ok (q.tangentOf b.id)) ∧
        (q.tangentOf b.id).cols = b.localSize ∧
        (∀ c ∈ rs.zip outs, b.id ∈ c.1.blocks →
          (c.1.jacobianBy c.2 b.id).HasShape c.2.residuals.size (q.tangentOf b.id).rows) ∧
        ((∀ c ∈ rs.zip outs, b.id ∈ c.1.blocks → 0 < slopeOf c.1.loss c.2.residuals) →
          ∀ j < b.localSize, grad.get (b.deltaOffset + j) =
            ((rs.zip outs).map fun c =>
              if b.id ∈ c.1.blocks then (c.1.gradientBy c.2 b.id (q.tangentOf b.id)).get j
              else 0).sum) := by
  obtain ⟨hmade, -, hcheck⟩ := Evaluator.create_eq_ok he
  have hw := hmade.wellFormed hp.coherent
  obtain ⟨hsize, -⟩ := Evaluator.exists_outputs hev
  obtain ⟨outs, grad, houtputs, hlen, hcost, hshapes, hgrad, hgradSize, hgradient⟩ :=
    hw.get_gradient hev
  obtain ⟨q, rs, hasks, hs, hholds, hstands⟩ := hmade.exists_asks hn hsize hlen houtputs
  have hzip := forall₂_zip_right hstands outs
  refine ⟨q, rs, outs, grad, hcheck ▸ hasks, ?_, hgrad, hgradSize, fun b hb => ?_⟩
  · rw [hcost]
    refine congrArg List.sum (map_eq_map_of_forall₂ hzip fun c d h => ?_)
    rw [h.1.loss, h.2]
  · obtain ⟨k, hk⟩ := List.mem_iff_getElem?.mp hb
    obtain ⟨c, hc, hsame⟩ := hmade.tangentMap hs hholds hb
    obtain ⟨tangent, htangent, hrows, hcols⟩ := hw.tangentMap hb x
    have hid : g.blocks[k]? = some b.id := by
      rw [← Evaluator.map_id_freeBlocks hmade.blocks, List.getElem?_map, hk, Option.map_some]
    rw [Problem.tangentOf_eq hc (hsame.trans htangent)]
    refine ⟨⟨c, hc, hsame.trans htangent⟩, hcols, ?_, fun hslope j hj => ?_⟩
    · rintro ⟨r, o⟩ hd hread
      obtain ⟨⟨t, o'⟩, hmem, hstand, ho⟩ := exists_right_of_forall₂ hzip.flip (r, o) hd
      obtain rfl : o' = o := ho
      have hfind := hstand.findIdx? hn hid
      rw [if_pos hread] at hfind
      have hshape := hshapes t o' hmem k b _ hk hfind
      exact ⟨hshape.1, hshape.2.trans hrows.symm⟩
    · have hterm : ∀ t o, (t, o) ∈ e.terms.zip outs → k ∈ t.columns →
          0 < slopeOf t.loss o.residuals := by
        intro t o hmem hkt
        obtain ⟨⟨r, o'⟩, hmem', hstand, rfl⟩ := exists_right_of_forall₂ hzip (t, o) hmem
        rw [hstand.loss]
        exact hslope (r, o) hmem' ((hstand.mem_columns_iff hn hid).mp hkt)
      rw [hgradient k b tangent hk htangent hterm j hj]
      refine congrArg List.sum (map_eq_map_of_forall₂ hzip fun c d h => ?_)
      rw [h.1.gradientBy hn hid, h.2]
      split <;> rfl

end LeastSquares
