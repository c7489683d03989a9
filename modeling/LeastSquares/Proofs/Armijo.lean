import LeastSquares.Proofs.Descent
import LeastSquares.Proofs.RunCompletion

/-!
# Searches along descent directions

A run goes on only where the gradient does not vanish. There the ray leads
down, since the one against the gradient does, and the first length to try is
positive. A search keeps its lengths between a tenth and half of the ones
before, and ends where the cost lies below a line that leads down itself. So
every move lowers the cost, however wrong the gradient is.

## Main definitions

* `LineSearch.Shrinks` — the lengths that a search tries.
* `LineSearch.Armijo` — one reported state comes from the last one by a move that
  lowers the cost enough.

## Main results

* `LineSearch.ray_downhill`, `LineSearch.firstLength_pos` — what a search
  begins with.
* `LineSearch.Searches.shrinks` — one search.
* `LineSearch.armijo_run` — a whole run.
-/

namespace LeastSquares

theorem Vec.normSq_pos {v : Vec ℝ} (h : 0 < v.maxNorm) : 0 < v.normSq := by
  rcases v.maxNorm_eq with hzero | ⟨a, ha, habs⟩
  · exact absurd hzero h.ne'
  · obtain ⟨i, hi, hget⟩ := List.mem_iff_getElem.mp ha
    rw [length_toList] at hi
    have hentry : v.get i = a := by
      have hi : i < v.entries.size := hi
      rw [← hget, get, Array.getD_eq_getD_getElem?, Array.getElem?_eq_getElem hi]
      rfl
    have hne : v.get i ≠ 0 := hentry ▸ abs_pos.mp (habs ▸ h)
    rw [normSq_eq_sum]
    refine (mul_self_pos.mpr hne).trans_le ?_
    exact Finset.single_le_sum (f := fun i => v.get i * v.get i)
      (fun i _ => mul_self_nonneg (v.get i)) (Finset.mem_range.mpr hi)

namespace LineSearch

variable {σ : Type} {m : LineSearch ℝ σ} {s a b : State ℝ} {w w' : World ℝ σ}

/-! ## What a search begins with -/

/-- Where the gradient does not vanish, the ray leads down. -/
theorem ray_downhill (h : 0 < s.gradient.maxNorm) :
    (m.ray s).slope = s.gradient.dot (m.ray s).direction ∧ (m.ray s).slope < 0 := by
  rw [ray_eq]
  simp only [real_lt, real_zero]
  split
  · rename_i hlt
    exact ⟨rfl, hlt⟩
  · exact ⟨s.gradient.dot_neg_self.symm, neg_neg_of_pos (Vec.normSq_pos h)⟩

theorem firstLength_pos (h : 0 < s.gradient.maxNorm) : 0 < m.firstLength s := by
  rcases m.firstLength_cases (s := s) with hle | heq
  · exact real_epsilon_pos.trans_le hle
  · rw [heq]
    exact lt_min (one_div_pos.mpr h) one_pos

/-- A run goes on only where the gradient does not vanish. -/
theorem Linked.maxNorm_pos [ScalarText ℝ] (h : m.Linked s) (hproceeds : m.loop.Proceeds s)
    (htolerance : 0 ≤ m.options.gradientTolerance) : 0 < s.gradient.maxNorm := by
  obtain ⟨elapsed, hstop⟩ := hproceeds
  have hstop : m.stop? s elapsed = none := hstop
  unfold stop? at hstop
  split at hstop
  · cases hstop
  · split at hstop
    · cases hstop
    · rename_i hlarge
      rw [real_le, h.maxNorm, not_le] at hlarge
      exact htolerance.trans_lt hlarge

/-! ## One search -/

/-- What the lengths of a search are like, and how many evaluations it takes. -/
structure Shrinks (m : LineSearch ℝ σ) (s : State ℝ) (lengths : List ℝ) (evaluations : Nat) :
    Prop where
  first : lengths.head? = some (m.firstLength s)
  positive : ∀ t ∈ lengths, 0 < t ∧ t ≤ m.firstLength s
  shrinking : lengths.IsChain fun t t' => 0.1 * t ≤ t' ∧ t' ≤ 0.5 * t
  counted : evaluations = lengths.length
  bounded : evaluations ≤ max 1 m.options.maxLineSearchEvaluations

theorem Searches.shrinks {lengths : List ℝ} {r : Found ℝ × EvaluationCounts}
    (h : m.Searches s w lengths r w') (hfirst : 0 < m.firstLength s) :
    m.Shrinks s lengths r.1.evaluations := by
  obtain ⟨hpositive, hshrinking⟩ := h.trials.shortened
    (P := fun t => 0 < t ∧ t ≤ m.firstLength s) (R := fun t t' => 0.1 * t ≤ t' ∧ t' ≤ 0.5 * t)
    ⟨hfirst, le_refl _⟩ fun t trialCost ht => by
      have hmem := shorten_mem ht.1.le s.cost (m.ray s).slope trialCost
      exact ⟨⟨by linarith [ht.1], by linarith [ht.1, ht.2]⟩, hmem⟩
  refine ⟨h.trials.head?, hpositive, hshrinking, h.evaluations, ?_⟩
  have hlength := h.trials.length_le
  rw [h.evaluations]
  omega

/-! ## One move -/

/-- The state comes from the last one by a move that lowers the cost enough, and
to which a search has led. -/
structure Armijo (m : LineSearch ℝ σ) (a b : State ℝ) : Prop where
  slope : (m.ray a).slope = a.gradient.dot (m.ray a).direction
  downhill : (m.ray a).slope < 0
  decrease : b.record.cost ≤ a.record.cost +
    m.options.sufficientDecrease * b.record.stepSize * (m.ray a).slope
  lower : b.record.cost < a.record.cost
  length : 0 < b.record.stepSize ∧ b.record.stepSize ≤ m.firstLength a
  evaluations : b.record.lineSearchEvaluations ≤ max 1 m.options.maxLineSearchEvaluations
  searched : ∃ w r w', m.search a w = .ok r w' ∧ r.1.move = some (b.record.stepSize, b.x) ∧
    b.record.lineSearchEvaluations = r.1.evaluations

theorem Moves.armijo [ScalarText ℝ] {s' : State ℝ} (h : m.Moves a s') (hb : m.Reviewed s' b)
    (ha : m.Linked a) (hgradient : 0 < a.gradient.maxNorm) (he : m.evaluator.Pure)
    (hdecrease : 0 < m.options.sufficientDecrease) (u : σ) : m.Armijo a b := by
  obtain ⟨hslope, hdownhill⟩ := m.ray_downhill hgradient
  obtain ⟨w, r, w', hsearch, hmove, hcount⟩ := h.search
  obtain ⟨lengths, hsearches⟩ := returns_search _ _ hsearch
  have hshrinks := hsearches.shrinks (m.firstLength_pos hgradient)
  have hlength := hshrinks.positive _ (hsearches.trials.ends hmove).1
  have hbelow := h.decrease he u
  have hsmall : m.options.sufficientDecrease * s'.record.stepSize * (m.ray a).slope < 0 :=
    mul_neg_of_pos_of_neg (mul_pos hdecrease hlength.1) hdownhill
  rw [← h.linked.record, ← ha.record] at hbelow
  have hx : b.x = s'.x := hb.shown.x
  obtain ⟨iterationTime, cumulativeTime, hrecord⟩ := hb.record
  refine ⟨hslope, hdownhill, ?_, ?_, ?_, ?_, w, r, w', hsearch, ?_, ?_⟩
  all_goals rw [hrecord]
  · exact hbelow
  · exact hbelow.trans_lt (by linarith)
  · exact hlength
  · exact hcount.trans_le hshrinks.bounded
  · rw [hx]
    exact hmove
  · exact hcount

/-! ## Runs -/

section Runs

variable [ScalarText ℝ] {counts : EvaluationCounts} {x : Vec ℝ} {states : List (State ℝ)}
  {summary : MinimizerSummary ℝ}

theorem Visits.moves (h : m.Visits counts x w states summary w') :
    (∀ s ∈ states, m.Linked s) ∧
      states.IsChain fun a b => ∃ s', m.Moves a s' ∧ m.Reviewed s' b := by
  cases h with
  | none _ => exact ⟨fun _ hs => absurd hs List.not_mem_nil, .nil⟩
  | some found passes _ => exact moves_of_passes passes (linked_initial found _)

/-- A run that ends for want of a length ends with a search from its last
state. -/
theorem exists_search_of_ends {last s' : State ℝ} {n : Nat}
    (h : m.loop.Ends last (.lineSearch n, s')) : m.loop.Proceeds last ∧
      ∃ w r w', m.search last w = .ok r w' ∧ r.1.move = none ∧ r.1.evaluations = n := by
  cases h with
  | @decided d _ hreason => cases d <;> cases hreason
  | stopped hstop =>
      have hstop : m.stop? last _ = some (.lineSearch n) := hstop
      unfold stop? converged? at hstop
      dsimp only at hstop
      split_ifs at hstop <;> cases hstop
  | broken proceeds taken =>
      have hsteps := returns_steps _ _ taken
      cases hsteps with
      | lost search nowhere => exact ⟨proceeds, _, _, _, search, nowhere, rfl⟩

/-- What the searches of a run come to, whatever the gradients are. At every
reported state cost and gradient were evaluated. Each comes from the one before
by a move along a direction that leads down, of a positive length, not above the
first one tried, and its cost lies below the Armijo line. Every search from a
reported state with which the run goes on, whether it ends somewhere or not, tries
positive lengths, each a tenth to a half of the one before, at the cost of one
evaluation each, and no more of them than are allowed. A run that ends for want
of a length ends with such a search from its last state. The constant of the
Armijo line need not be below one. -/
theorem armijo_run (he : m.evaluator.Pure) (hdecrease : 0 < m.options.sufficientDecrease)
    (htolerance : 0 ≤ m.options.gradientTolerance)
    (h : m.minimize counts x w = .ok summary w') :
    ∃ states, m.Visits counts x w states summary w' ∧
      summary.history.records = states.map State.record ∧
      (∀ s ∈ states, m.Linked s) ∧ states.IsChain m.Armijo ∧
      (∀ s ∈ states, m.loop.Proceeds s → ∀ w, Returns (m.search s) w fun r w' =>
        ∃ lengths, m.Searches s w lengths r w' ∧ m.Shrinks s lengths r.1.evaluations) ∧
      ∀ n, summary.reason = .lineSearch n → ∃ last, states.getLast? = some last ∧
        m.loop.Proceeds last ∧ ∃ w r w', m.search last w = .ok r w' ∧ r.1.move = none ∧
          r.1.evaluations = n := by
  obtain ⟨states, hvisits, hproceeds, hends⟩ := returns_visits_proceeds _ _ h
  obtain ⟨hlinked, hmoves⟩ := hvisits.moves
  refine ⟨states, hvisits, ?_, hlinked, ?_, fun s hs hgo w => ?_, fun n hn => ?_⟩
  · rw [hvisits.minimized.1.records, List.map_map]
    rfl
  · rw [List.isChain_iff_forall_rel_of_append_cons_cons] at hproceeds hmoves ⊢
    intro a b before after hstates
    have ha : a ∈ states := by simp [hstates]
    obtain ⟨s', hmoves, hreviewed⟩ := hmoves hstates
    have hgradient := (hlinked a ha).maxNorm_pos (hproceeds hstates) htolerance
    exact hmoves.armijo hreviewed (hlinked a ha) hgradient he hdecrease w.tally.user
  · have hgradient := (hlinked s hs).maxNorm_pos hgo htolerance
    refine returns_search.mono fun r w' ⟨lengths, hsearches⟩ => ?_
    exact ⟨lengths, hsearches, hsearches.shrinks (m.firstLength_pos hgradient)⟩
  · rcases hends with hnone | ⟨last, s, hlast, hends⟩
    · cases hn.symm.trans hnone
    · rw [hn] at hends
      exact ⟨last, hlast, exists_search_of_ends hends⟩

end Runs

/-- A run by quasi-Newton directions towards a point. -/
theorem armijo_run_anchored : ∃ (e : Evaluator ℝ Unit) (summary : MinimizerSummary ℝ)
    (w' : World ℝ Unit) (states : List (State ℝ)),
    Evaluator.create (Gallery.anchored ℝ) (.ofProblem (Gallery.anchored ℝ)) .denseQR 0 none =
      .ok e ∧
    minimize ⟨{ direction := .lbfgs }, e, {}⟩ {} (Vec.ofList [(4 : ℝ), 7])
      (Gallery.anchoredWorld ℝ) = .ok summary w' ∧
    summary.history.records = states.map State.record ∧
    states.IsChain (Armijo ⟨{ direction := .lbfgs }, e, {}⟩) := by
  obtain ⟨e, hcreate, hpure, hrobust⟩ := Gallery.exists_evaluator_anchored
  let m : LineSearch ℝ Unit := ⟨{ direction := .lbfgs }, e, {}⟩
  have hdecrease : 0 < m.options.sufficientDecrease := by
    show (0 : ℝ) < 1e-4
    norm_num
  have htolerance : 0 ≤ m.options.gradientTolerance := by
    show (0 : ℝ) ≤ 1e-10
    norm_num
  obtain ⟨summary, w', hrun, -⟩ : Succeeds (m.minimize {} (Vec.ofList [4, 7]))
      (Gallery.anchoredWorld ℝ) fun _ _ => True := succeeds_minimize hrobust
  obtain ⟨states, -, hrecords, -, harmijo, -⟩ := armijo_run hpure hdecrease htolerance hrun
  exact ⟨e, summary, w', states, hcreate, hrun, hrecords, harmijo⟩

end LineSearch

end LeastSquares
