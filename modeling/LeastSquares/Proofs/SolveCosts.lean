import LeastSquares.Proofs.Descent
import LeastSquares.Proofs.Objective
import LeastSquares.Proofs.SolveFrame

/-!
# Costs that a solve tells

The costs in a summary are those of a log on top of the cost that was fixed
by the reduction, while the values that a problem is left with come from a
state that a minimizer recommends. Over exact arithmetic and with pure cost
functions the one is the cost at the other: what the summary tells is what
an evaluation of the problem gives, before and after.

## Main definitions

* `Told` — a summary tells the costs of two problems.

## Main results

* `SolveOptions.RanBy.improved` — both minimizers recommend a state with the
  lowest cost on record.
* `Course.Of.told` — costs before and after a run.
* `solve_costs` — costs before and after a solve.
-/

namespace LeastSquares

variable {σ : Type} {o : SolveOptions ℝ} {p q : Problem ℝ σ}

theorem Problem.cost?_of_sameContent (h : p.SameContent q) (u : σ) : q.cost? u = p.cost? u :=
  Problem.cost?_congr u h.residuals h.values_eq

/-- Both minimizers recommend a state with the lowest cost on record. -/
theorem SolveOptions.RanBy.improved [ScalarText ℝ] {e : Evaluator ℝ σ} {x : Vec ℝ}
    {result : MinimizerSummary ℝ} {trace : Trace ℝ} {pipeline : Pipeline ℝ σ}
    {w w' : World ℝ σ} (h : o.RanBy e x result trace)
    (hmin : Minimized e pipeline result trace w w') (he : e.Pure) (u : σ) :
    Improved e x result := by
  cases h with
  | trustRegion m evaluator ran =>
      subst evaluator
      exact ran.improved hmin.records hmin.found
  | lineSearch m evaluator options ran =>
      subst evaluator
      refine ran.improved hmin.records hmin.found he ?_ u
      rw [options]
      show (0 : ℝ) ≤ 1e-4
      norm_num

/-- If nothing is left to optimize, the fixed cost is the cost of the
problem. -/
theorem ReducedProgram.cost?_of_blocks_eq_nil {reduced : ReducedProgram ℝ} {removal : Removal ℝ}
    (hp : p.Pure) (hremoval : removal.Of p (.ofProblem p)) (hreduced : reduced.Of p q removal)
    (hempty : reduced.program.blocks = []) (u : σ) : p.cost? u = some reduced.fixedCost := by
  obtain ⟨fixed, hperm, -, hcost⟩ := hremoval.residuals
  have hblocks : removal.program.blocks = [] := by
    have hnil := hreduced.blocks
    rw [hempty] at hnil
    exact hnil.symm.eq_nil
  rw [hremoval.balanced.mpr hblocks, List.append_nil] at hperm
  have hperm : p.residualIds.Perm fixed := hperm
  rw [Problem.cost?, addCosts_perm (hperm.map _), hcost hp u, hreduced.fixedCost]

/-- What is told about a problem: the cost that it had, and the cost that it
has, which is not above the other. -/
structure Told (p q : Problem ℝ σ) (s : SolveSummary ℝ) : Prop where
  initial : ∀ u, p.cost? u = some s.initialCost
  final : ∀ u, q.cost? u = some s.finalCost
  pure : q.Pure
  le : s.finalCost ≤ s.initialCost

section Attempts

variable [ScalarText ℝ] {callbacks : List (Callback ℝ σ)} {w w' : World ℝ σ}
  {s : SolveSummary ℝ}

/-- The costs before and after a run of a minimizer whose result is written
into the problem. -/
theorem Course.Of.told {c : Course ℝ σ} (h : c.Of o callbacks w s w')
    (ho : ∀ order, o.eliminationOrder = some order → order.Reachable) (hp : w.problem.Pure)
    (hwrites : s.termination.writesBack = true) : Told w.problem w'.problem s := by
  obtain ⟨removal, hremoval, hreduced⟩ := h.created.exists_removal ho
  have hcontent := hreduced.content
  have hmoved := h.moved hreduced.nodup
  rw [h.termination] at hwrites
  have hpure : c.minimizer.evaluator.Pure := h.assembled.evaluator.pure (hp.alike hcontent)
  obtain ⟨hinitial, cost, hcost, hfinal, hle⟩ :=
    (h.ran hwrites).improved h.minimized hpure w.tally.user
  obtain ⟨hs, hs'⟩ := h.costs cost hcost
  refine ⟨fun u => ?_, fun u => ?_, hp.alike (hcontent.sameShape.trans hmoved.shape), ?_⟩
  · rw [← Problem.cost?_of_sameContent hcontent, ReducedProgram.cost?_eq hp hremoval hreduced
      h.assembled.evaluator (.refl _) (Program.holds_of_gather h.start) (fun _ _ => rfl),
      hinitial.cost hpure, hs]
    exact congrArg some (add_comm _ _)
  · rw [ReducedProgram.cost?_eq hp hremoval hreduced h.assembled.evaluator hmoved.shape
      (h.holds hreduced.nodup hwrites) (fun _ hid => hmoved.values_eq hid), hfinal.cost hpure, hs']
    exact congrArg some (add_comm _ _)
  · rw [hs, hs']
    exact add_le_add_left hle _

theorem SolveOptions.Attempted.told (h : o.Attempted callbacks w (.ok ()) s w')
    (ho : ∀ order, o.eliminationOrder = some order → order.Reachable) (hp : w.problem.Pure)
    (hwrites : s.termination.writesBack = true) : Told w.problem w'.problem s := by
  cases h with
  | settled created empty initialCost finalCost =>
      obtain ⟨removal, hremoval, hreduced⟩ := created.exists_removal ho
      have hcost := ReducedProgram.cost?_of_blocks_eq_nil hp hremoval hreduced empty
      refine ⟨fun u => ?_, fun u => ?_, hp.alike hreduced.content, ?_⟩
      · rw [initialCost, hcost u]
      · rw [finalCost, Problem.cost?_of_sameContent hreduced.content, hcost u]
      · rw [initialCost, finalCost]
  | minimized course => exact course.told ho hp hwrites

/-- The costs that a solve tells are the costs of the problem before and after
it, and the cost has not become larger. -/
theorem solve_costs (hp : w.problem.Pure)
    (ho : ∀ order, o.eliminationOrder = some order → order.Reachable)
    (hsolve : solve o callbacks w = .ok s w') (herror : s.error = none)
    (hwrites : s.termination.writesBack = true) :
    w.problem.CostIs (some s.initialCost) ∧ w'.problem.CostIs (some s.finalCost) ∧
      s.finalCost ≤ s.initialCost := by
  obtain ⟨r, s1, w1, hattempt, hproblem, -, hok, hrejected⟩ := returns_solve ho s w' hsolve
  have hcontent : w1.problem.SameContent w'.problem := hproblem ▸ Program.sameContent_setOffsets
  cases r with
  | error e =>
      rw [hrejected e rfl] at herror
      cases herror
  | ok _ =>
      have hs := hok rfl
      have htold : Told w.problem w1.problem s1 := hattempt.told ho hp (by
        rw [hs] at hwrites
        exact hwrites)
      rw [hs]
      refine ⟨hp.costIs htold.initial, (htold.pure.alike hcontent).costIs fun u => ?_, htold.le⟩
      rw [Problem.cost?_of_sameContent hcontent]
      exact htold.final u

end Attempts

namespace Gallery

/-- The evaluator for the anchored block that is free. -/
def anchoredEvaluator (α : Type) [Scalar α] : Evaluator α Unit :=
  let term : ResidualTerm α Unit := ⟨⟨1⟩, anchor (.ofList [3.0]), none, [.free 0]⟩
  { blocks := [⟨⟨0, 0⟩, 0, 1, 0, 1, none⟩]
    terms := [term]
    layout := .general
    check := none
    template := .ofStructure [1] [(1, [0])] }

/-- Where the free block starts. -/
def anchoredStart (α : Type) [Scalar α] : Vec α := .ofList [1]

theorem determines_anchored (x : ℝ) : (anchoredEvaluator ℝ).Determines (.ofList [x])
    ((x - 3) ^ 2 / 2) (.ofList [x - 3]) := by
  have hcost : ((0 : ℕ) : ℝ) + 0.5 * (((0 : ℕ) : ℝ) + (x - 3.0) * (x - 3.0)) =
      (x - 3) ^ 2 / 2 := by
    norm_num
    ring
  intro wantJacobian t
  cases wantJacobian with
  | false => exact ⟨_, _, rfl, _, rfl, hcost, nofun⟩
  | true =>
      refine ⟨_, _, by with_unfolding_all rfl, _, rfl, hcost, fun _ => congrArg some ?_⟩
      show Vec.ofList [((0 : ℕ) : ℝ) + (((0 : ℕ) : ℝ) + ((1 : ℕ) : ℝ) * (x - 3.0))] = _
      norm_num

theorem exists_prepared_anchored : ∃ p t reduced,
    (searching ℝ 1).Prepared (anchoredWorld ℝ)
      { anchoredWorld ℝ with problem := p, tally := t } reduced
      (.lineSearch (searching ℝ 1).minimizer (anchoredEvaluator ℝ)) (anchoredStart ℝ) := by
  refine ⟨_, _, _, ⟨_, rfl⟩, ?_, validate_searching 1,
    ⟨_, rfl, by with_unfolding_all rfl⟩, ⟨_, rfl⟩, rfl, fun _ _ => ?_, nofun, rfl⟩
  · rintro (h | h) <;> cases h
  · exact SolveOptions.completes_assemble_lineSearch rfl (by with_unfolding_all rfl)

/-- The first trial goes half way along the ray. -/
theorem exists_searched_anchored : ∃ s w', solve (searching ℝ 1) [] (anchoredWorld ℝ) = .ok s w' ∧
    s.error = none ∧ s.termination.writesBack = true ∧
    s.records.map IterationRecord.cost = [2, 1 / 2] := by
  obtain ⟨p, t, reduced, hprepared⟩ := exists_prepared_anchored
  have hstart : anchoredStart ℝ = .ofList [1] := by
    show Vec.ofList [((1 : ℕ) : ℝ)] = _
    rw [Nat.cast_one]
  have hnorm : (Vec.ofList [(1 : ℝ) - 3]).maxNorm = 2 := by
    show |(1 : ℝ) - 3| = 2
    norm_num
  have hplus : (anchoredEvaluator ℝ).plus (.ofList [1])
      ((-Vec.ofList [(1 : ℝ) - 3]).scale (1 / 2)) = .ok (.ofList [1 + -(1 - 3) * (1 / 2)]) := by
    with_unfolding_all rfl
  have hlow : (1 + -(1 - 3) * (1 / 2) - 3) ^ 2 / 2 ≤ (1 - 3) ^ 2 / 2 +
      (1e-4 : ℝ) * (1 / 2) * -(Vec.ofList [(1 : ℝ) - 3]).normSq := by
    show _ ≤ (1 - 3) ^ 2 / 2 + (1e-4 : ℝ) * (1 / 2) * -(((0 : ℕ) : ℝ) + (1 - 3) * (1 - 3))
    norm_num
  obtain ⟨s, w', hsolve, herror, hwrites, hcosts⟩ := exists_searched (hstart ▸ hprepared)
    (fun _ => rfl) (determines_anchored 1) (by rw [hnorm]; norm_num) (by rw [hnorm]; norm_num)
    hplus (determines_anchored _) hlow
  refine ⟨s, w', hsolve, herror, hwrites, hcosts.trans ?_⟩
  norm_num

end Gallery

/-- A line search of one move. -/
theorem solve_costs_anchored : ∃ s w', solve (Gallery.searching ℝ 1) [] (Gallery.anchoredWorld ℝ) =
      .ok s w' ∧ s.records.map IterationRecord.cost = [2, 1 / 2] ∧
    (Gallery.anchored ℝ).CostIs (some s.initialCost) ∧
    w'.problem.CostIs (some s.finalCost) ∧ s.finalCost ≤ s.initialCost := by
  obtain ⟨s, w', hsolve, herror, hwrites, hmoved⟩ := Gallery.exists_searched_anchored
  exact ⟨s, w', hsolve, hmoved,
    solve_costs Gallery.pure_anchored (fun _ horder => by cases horder) hsolve herror hwrites⟩

end LeastSquares
