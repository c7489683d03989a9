import LeastSquares.Proofs.Real
import LeastSquares.Proofs.SchurRows

/-!
# Removing the constant part

Taking the constant part out of a program in place keeps the residual blocks
that read a block that is not held constant and the parameter blocks that one
of these reads as a free one, both in their order. The order that goes with
the program loses the parameter blocks that the program loses. What is left
has no constant part, so that a second removal finds nothing to do. An error
comes before the first change, and a program of all blocks of a problem is
always left balanced, since it lists every free block that is read.

## Main results

* `Program.Dropping.order_rel` — what is left of the order.
* `Program.Settled.dropFixed_eq` — a second removal.
* `Program.dropFixed_outcome` — what a removal leaves in every case.
-/

namespace LeastSquares

variable {α σ : Type} [Scalar α]

namespace Program

variable {p : Problem α σ} {g : Program} {o : Option EliminationOrder}
  {left : Program × Option EliminationOrder} {total : α} {t : Tally σ}

/-- The order loses the blocks that the program loses. -/
theorem Dropping.order_rel (h : Dropping p g o left total) (ho : ∀ o' ∈ o, o'.Reachable) :
    Option.Rel (fun o o' => o'.Reachable ∧ ∀ id, o'.group? id =
      if id ∈ g.blocks ∧ id ∉ left.1.blocks then none else o.group? id) o left.2 := by
  rw [h.order]
  cases o with
  | none => exact .none
  | some o =>
      have hreach := ho o rfl
      refine .some ⟨hreach.removeAll _, ?_⟩
      intro id
      rw [hreach.wellFormed.group?_removeAll]
      simp [List.mem_filter]

/-! ## A second removal -/

/-- The program has no constant part. -/
structure Settled (p : Problem α σ) (g : Program) : Prop where
  readable : ∀ i ∈ g.residuals, p.Readable i
  varies : ∀ i ∈ g.residuals, p.Varies i
  read : ∀ id ∈ g.blocks, ∃ i ∈ g.residuals, p.ReadsFree i id

/-- What a removal leaves has no constant part. -/
theorem Dropping.settled (h : Dropping p g o left total) : Settled p left.1 := by
  have hmem : ∀ i ∈ left.1.residuals, i ∈ g.residuals ∧ p.Varies i := by
    intro i hi
    rw [h.residuals] at hi
    simpa using hi
  constructor
  · intro i hi
    exact h.readable i (hmem i hi).1
  · intro i hi
    exact (hmem i hi).2
  · intro id hid
    exact (h.mem_blocks.mp hid).2

/-- Nothing is taken out of a program without a constant part. -/
theorem Settled.eq_of_dropping (hg : Settled p g) (h : Dropping p g o left total) :
    left = (g, o) := by
  have hres : left.1.residuals = g.residuals := by
    rw [h.residuals, List.filter_eq_self]
    intro i hi
    simpa using hg.varies i hi
  have hblocks : left.1.blocks = g.blocks := by
    rw [h.blocks, hres, List.filter_eq_self]
    intro id hid
    simpa using hg.read id hid
  have hdropped : (g.blocks.filter fun id => !g.blocks.contains id) = [] := by
    rw [List.filter_eq_nil_iff]
    intro id hid
    simp [hid]
  have horder : left.2 = o := by
    rw [h.order, hblocks, hdropped]
    cases o with
    | none => rfl
    | some o => rfl
  have hprogram : left.1 = g := by
    cases hleft : left.1
    rw [hleft] at hres hblocks
    cases hres
    cases hblocks
    rfl
  exact Prod.ext hprogram horder

/-- Residual blocks that all vary are kept, at no cost and without a call. -/
theorem succeeds_separate_of_varies (position : Nat) (cost : α) {ids : List ResidualId}
    (hread : ∀ i ∈ ids, p.Readable i) (hvaries : ∀ i ∈ ids, p.Varies i) :
    Succeeds (separate p position cost ids).run t fun r t' =>
      t' = t ∧ ∃ kept, r = .ok (cost, kept) := by
  induction ids generalizing position with
  | nil => exact succeeds_run_pure.mpr ⟨rfl, [], rfl⟩
  | cons i ids ih =>
      obtain ⟨free, hfree⟩ := exists_freeBlocksOf (hread i (by simp))
      have hne : free.isEmpty = false := by
        simpa using (varies_iff_of_freeBlocksOf hfree).mp (hvaries i (by simp))
      rw [separate, succeeds_run_bind, succeeds_run_mk, succeeds_pure, hfree]
      simp only [hne, Bool.false_eq_true, if_false]
      rw [succeeds_run_bind]
      have hrest := ih (position + 1) (fun j hj => hread j (List.mem_cons_of_mem i hj))
        fun j hj => hvaries j (List.mem_cons_of_mem i hj)
      refine hrest.mono ?_
      rintro r t' ⟨rfl, kept, rfl⟩
      exact succeeds_run_pure.mpr ⟨rfl, _, rfl⟩

/-- A second removal answers zero, and changes nothing. -/
theorem Settled.dropFixed_eq (hg : Settled p g) (hbalance : g.residuals = [] ↔ g.blocks = [])
    (t : Tally σ) : g.dropFixed o p t = .ok (.ok 0, g, o) t := by
  have hcalls : Succeeds (g.dropFixed o p) t fun r t' =>
      t' = t ∧ ∀ cost, r.1 = .ok cost → cost = 0 := by
    unfold dropFixed
    rw [succeeds_bind]
    refine (succeeds_separate_of_varies 0 0 hg.readable hg.varies).mono ?_
    rintro r t' ⟨rfl, kept, rfl⟩
    dsimp only
    split
    · refine succeeds_pure.mpr ⟨rfl, ?_⟩
      intro cost hcost
      cases hcost
      rfl
    · exact succeeds_pure.mpr ⟨rfl, nofun⟩
  obtain ⟨⟨(f | e) | cost, left⟩, t', hrun, hout, rfl, hzero⟩ :=
    (succeeds_dropFixed (t := t) g o p).and hcalls.returns
  · -- the program is as balanced as it was
    obtain ⟨-, ⟨total, hdrop⟩, hunbalanced⟩ := hout
    cases hg.eq_of_dropping hdrop
    exact absurd hbalance hunbalanced
  · rcases hout.2 with ⟨i, hi, hread⟩ | ⟨n, i, hi, hfree, -, -⟩
    · exact absurd (hg.readable i hi) hread
    · have hvaries := hg.varies i (List.mem_of_getElem? hi)
      rw [varies_iff_of_freeBlocksOf hfree] at hvaries
      exact absurd rfl hvaries
  · cases hg.eq_of_dropping hout.1
    rw [hrun, hzero cost rfl]

/-! ## One removal -/

/-- A removal that succeeds keeps the residual blocks that read a block that
is not held constant and the blocks that these read as free ones, takes the
other blocks out of the order, answers the cost of the other residual blocks,
and leaves nothing to a second removal. One that is stopped by an error
changes nothing. The only fault is a program left unbalanced, which a program
of all blocks of a problem cannot be. -/
theorem dropFixed_outcome (hp : p.Pure) (ho : ∀ o' ∈ o, o'.Reachable) (t : Tally σ) :
    ∃ r left t', g.dropFixed o p t = .ok (r, left) t' ∧
      (∀ cost, r = .ok cost →
        left.1.residuals = (g.residuals.filter fun i => p.Varies i) ∧
        left.1.blocks = (g.blocks.filter fun id => ∃ i ∈ left.1.residuals, p.ReadsFree i id) ∧
        Option.Rel (fun o o' => o'.Reachable ∧ ∀ id, o'.group? id =
          if id ∈ g.blocks ∧ id ∉ left.1.blocks then none else o.group? id) o left.2 ∧
        (∀ u, addCosts 0 ((g.residuals.filter fun i => ¬ p.Varies i).map (p.residualCost? u)) =
          some cost) ∧
        ∀ t, left.1.dropFixed left.2 p t = .ok (.ok 0, left) t) ∧
      (∀ e, r = .error (.error e) → left = (g, o)) ∧
      (∀ f, r = .error (.fault f) → f = .unbalancedProgram ∧
        ¬ (p.Reachable ∧ g = .ofProblem p)) := by
  obtain ⟨⟨r, left⟩, t', hrun, hout⟩ := succeeds_dropFixed (t := t) g o p
  refine ⟨r, left, t', hrun, ?_, ?_, ?_⟩
  · rintro cost rfl
    obtain ⟨hdrop, hbalance⟩ := hout
    exact ⟨hdrop.residuals, hdrop.blocks, hdrop.order_rel ho, hdrop.cost hp,
      hdrop.settled.dropFixed_eq hbalance⟩
  · rintro e rfl
    exact hout.1
  · rintro f rfl
    obtain ⟨hf, ⟨total, hdrop⟩, hunbalanced⟩ := hout
    refine ⟨hf, ?_⟩
    rintro ⟨hreach, rfl⟩
    exact hunbalanced ((closed_ofProblem hreach.sound).balanced hdrop)

/-- The residual block that reads the constant block is taken out, and the
constant block with it. -/
theorem dropFixed_outcome_anchored : ∃ cost t',
    (ofProblem (Gallery.anchored ℝ)).dropFixed (some (.single [⟨0, 0⟩, ⟨1, 0⟩]))
      (Gallery.anchored ℝ) ⟨(), 0⟩ =
        .ok (.ok cost, ⟨[⟨0, 0⟩], [⟨1⟩]⟩, some (.single [⟨0, 0⟩])) t' ∧
    (∀ u, addCosts 0 [(Gallery.anchored ℝ).residualCost? u ⟨0⟩] = some cost) ∧
    ∀ t, dropFixed ⟨[⟨0, 0⟩], [⟨1⟩]⟩ (some (.single [⟨0, 0⟩])) (Gallery.anchored ℝ) t =
      .ok (.ok 0, ⟨[⟨0, 0⟩], [⟨1⟩]⟩, some (.single [⟨0, 0⟩])) t := by
  have horder : ∀ o' ∈ some (EliminationOrder.single [⟨0, 0⟩, ⟨1, 0⟩]), o'.Reachable := by
    intro o' ho'
    cases ho'
    exact EliminationOrder.reachable_ofList _
  obtain ⟨r, left, t', hrun, hok, -, -⟩ := dropFixed_outcome
    (g := ofProblem (Gallery.anchored ℝ)) (Gallery.pure_anchored (α := ℝ)) horder ⟨(), 0⟩
  obtain ⟨cost, t₁, hrun'⟩ : ∃ cost t₁,
      (ofProblem (Gallery.anchored ℝ)).dropFixed (some (.single [⟨0, 0⟩, ⟨1, 0⟩]))
        (Gallery.anchored ℝ) ⟨(), 0⟩ =
          .ok (.ok cost, ⟨[⟨0, 0⟩], [⟨1⟩]⟩, some (.single [⟨0, 0⟩])) t₁ := ⟨_, _, rfl⟩
  rw [hrun'] at hrun
  cases hrun
  obtain ⟨-, -, -, hcost, hagain⟩ := hok cost rfl
  have hfixed : ((ofProblem (Gallery.anchored ℝ)).residuals.filter fun i =>
      ¬ (Gallery.anchored ℝ).Varies i) = [⟨0⟩] := by decide
  rw [hfixed] at hcost
  simp only [real_zero] at hcost hagain
  exact ⟨cost, t', hrun', hcost, hagain⟩

end Program

end LeastSquares
