import LeastSquares.Proofs.LineSearch
import LeastSquares.Proofs.Matrices
import LeastSquares.Proofs.TrustRegion

/-!
# The lowest cost on record

A run tells the lowest cost among its records, and recommends a state that
it kept track of on its own: the best one so far for a trust region, the
last one for a line search. Over exact arithmetic the two belong together.
In a trust region run a record without an accepted step repeats a cost and
cannot be lower than all before it. In a line search every move lowers the
cost, so that the last cost is the lowest.

## Main definitions

* `Improved` — the recommended state has the lowest cost on record.

## Main results

* `TrustRegion.Ran.improved`, `LineSearch.Ran.improved` — runs of both
  minimizers.
-/

namespace LeastSquares

variable {σ : Type} {e : Evaluator ℝ σ} {x : Vec ℝ} {trace : Trace ℝ}

/-- The initial cost was found, and the recommended state has the lowest cost
on record, which is not above the initial one. -/
structure Improved (e : Evaluator ℝ σ) (x : Vec ℝ) (result : MinimizerSummary ℝ) : Prop where
  initial : e.Finds x result.initialCost
  final : ∃ c, result.finalCost? = some c ∧ e.Finds result.best c ∧ c ≤ result.initialCost

/-! ## Costs on record -/

/-- The lowest of a cost and the costs of records. -/
noncomputable def lowestFrom (c : ℝ) (records : List (IterationRecord ℝ)) : ℝ :=
  records.foldl (fun c r => min c r.cost) c

theorem lowestFrom_cons (c : ℝ) (r : IterationRecord ℝ) (records : List (IterationRecord ℝ)) :
    lowestFrom c (r :: records) = lowestFrom (min c r.cost) records := rfl

theorem lowestFrom_le (c : ℝ) (records : List (IterationRecord ℝ)) :
    lowestFrom c records ≤ c := by
  induction records generalizing c with
  | nil => exact le_refl c
  | cons r records ih =>
      rw [lowestFrom_cons]
      exact (ih _).trans (min_le_left c r.cost)

theorem lowestFrom_le_cost (c : ℝ) {records : List (IterationRecord ℝ)} {r : IterationRecord ℝ}
    (h : r ∈ records) : lowestFrom c records ≤ r.cost := by
  induction records generalizing c with
  | nil => exact absurd h List.not_mem_nil
  | cons r' records ih =>
      rw [lowestFrom_cons]
      rcases List.mem_cons.mp h with rfl | h
      · exact (lowestFrom_le _ _).trans (min_le_right _ _)
      · exact ih _ h

theorem lowestCost?_cons (r : IterationRecord ℝ) (records : List (IterationRecord ℝ)) :
    lowestCost? (r :: records) = some (lowestFrom r.cost records) := by
  have hstep : (fun (lowest : ℝ) (r : IterationRecord ℝ) =>
      if Scalar.totalLe lowest r.cost = true then lowest else r.cost) =
      fun c r => min c r.cost := by
    funext lowest r
    simp only [real_totalLe, min_def]
  rw [lowestCost?, hstep]
  rfl

/-! ## Trust regions -/

namespace Trace

/-- The best state has the lowest cost, since reports without an accepted step
bring no new cost. -/
theorem foldl_better_eq {previous best : Vec ℝ × ℝ} (h : Steady previous trace)
    (hbest : best.2 ≤ previous.2) :
    (trace.foldl better best).2 = lowestFrom best.2 (trace.map Prod.fst) := by
  induction trace generalizing previous best with
  | nil => rfl
  | cons entry trace ih =>
      obtain ⟨hsteady, hrest⟩ := h
      rw [List.foldl_cons, List.map_cons, lowestFrom_cons]
      have hbetter : (better best entry).2 = min best.2 entry.1.cost := by
        unfold better
        cases hs : entry.1.successful with
        | false =>
            rw [(hsteady hs).2, min_eq_left hbest]
            rfl
        | true =>
            simp only [real_lt, Bool.true_and, decide_eq_true_eq]
            split
            · rename_i hlt
              exact (min_eq_right hlt.le).symm
            · rename_i hge
              exact (min_eq_left (not_lt.mp hge)).symm
      rw [← hbetter]
      exact ih hrest (hbetter ▸ min_le_right _ _)

end Trace

theorem TrustRegion.Ran.improved {m : TrustRegion ℝ σ} {result : MinimizerSummary ℝ}
    (h : m.Ran x result trace) (hrecords : result.history.records = trace.map Prod.fst)
    (hfound : ∀ entry ∈ trace, m.evaluator.Finds entry.2 entry.1.cost) :
    Improved m.evaluator x result := by
  obtain ⟨record, rest, rfl, hcost⟩ := h.first
  have hlowest : (((record, x) :: rest).foldl Trace.better (x, result.initialCost)).2 =
      lowestFrom result.initialCost (rest.map Prod.fst) := by
    rw [Trace.foldl_better_eq h.steady (le_refl _), List.map_cons, lowestFrom_cons, hcost,
      min_self]
  refine ⟨h.initial, lowestFrom result.initialCost (rest.map Prod.fst), ?_, ?_,
    lowestFrom_le _ _⟩
  · rw [MinimizerSummary.finalCost?, hrecords, List.map_cons, lowestCost?_cons, hcost]
  · rw [h.best, ← hlowest]
    exact Trace.best_of_forall (x, result.initialCost) hfound h.initial

/-! ## Line searches -/

namespace Vec

/-- A running maximum of magnitudes is the first value or one of the magnitudes. -/
theorem foldl_larger_abs (l : List ℝ) (c : ℝ) :
    l.foldl (fun m b => Scalar.larger m (Scalar.abs b)) c = c ∨
      ∃ a ∈ l, l.foldl (fun m b => Scalar.larger m (Scalar.abs b)) c = |a| := by
  induction l generalizing c with
  | nil => exact .inl rfl
  | cons a l ih =>
      rcases ih (Scalar.larger c (Scalar.abs a)) with hc | ⟨b, hb, hbc⟩
      · rw [List.foldl_cons, hc]
        unfold Scalar.larger
        split
        · exact .inl rfl
        · exact .inr ⟨a, List.mem_cons_self, rfl⟩
      · exact .inr ⟨b, List.mem_cons_of_mem a hb, hbc⟩

/-- The largest magnitude is that of an entry, unless there is none. -/
theorem maxNorm_eq (v : Vec ℝ) : v.maxNorm = 0 ∨ ∃ a ∈ v.toList, v.maxNorm = |a| := by
  unfold maxNorm
  split
  · exact .inl real_zero
  · rename_i a rest hv
    rw [hv]
    refine .inr ?_
    rcases foldl_larger_abs rest (Scalar.abs a) with hc | ⟨b, hb, hbc⟩
    · exact ⟨a, List.mem_cons_self, hc⟩
    · exact ⟨b, List.mem_cons_of_mem a hb, hbc⟩

theorem maxNorm_nonneg (v : Vec ℝ) : 0 ≤ v.maxNorm := by
  rcases v.maxNorm_eq with hzero | ⟨a, -, ha⟩
  · exact hzero.ge
  · exact ha ▸ abs_nonneg a

end Vec

namespace LineSearch

variable {m : LineSearch ℝ σ} {s s' : State ℝ}

/-- Every ray leads down or is level. -/
theorem ray_slope_nonpos : (m.ray s).slope ≤ 0 := by
  rw [ray_eq]
  simp only [real_lt, real_zero]
  split
  · rename_i hlt
    exact hlt.le
  · exact neg_nonpos.mpr s.gradient.normSq_nonneg

/-- The first length of a search. -/
theorem firstLength_cases : Scalar.epsilon ≤ m.firstLength s ∨
    m.firstLength s = min (1 / s.gradient.maxNorm) 1 := by
  have hepsilon : (Scalar.epsilon : ℝ) ≤ 1 := by
    show (2.220446049250313e-16 : ℝ) ≤ 1
    norm_num
  unfold firstLength initialStep
  split
  · exact .inl (real_one ▸ hepsilon)
  · exact .inl (clamp_mem _ (real_one ▸ hepsilon)).1
  · refine .inr ?_
    rw [real_min, real_one, real_div]

theorem firstLength_nonneg : 0 ≤ m.firstLength s := by
  rcases m.firstLength_cases (s := s) with hle | heq
  · exact real_epsilon_pos.le.trans hle
  · rw [heq]
    exact le_min (div_nonneg zero_le_one s.gradient.maxNorm_nonneg) zero_le_one

/-- The next length is at least a tenth and at most half of the last one. -/
theorem shorten_mem {step : ℝ} (h : 0 ≤ step) (cost slope : ℝ) (trialCost : Option ℝ) :
    0.1 * step ≤ shorten cost slope step trialCost ∧
      shorten cost slope step trialCost ≤ 0.5 * step := by
  have hle : 0.1 * step ≤ 0.5 * step := mul_le_mul_of_nonneg_right (by norm_num) h
  unfold shorten
  split
  · exact clamp_mem _ hle
  · exact ⟨hle, le_refl _⟩

/-- A search ends where the cost is low enough. -/
theorem Moves.decrease (h : m.Moves s s') (he : m.evaluator.Pure) (u : σ) : s'.cost ≤
    s.cost + m.options.sufficientDecrease * s'.record.stepSize * (m.ray s).slope := by
  obtain ⟨_, _, _, _, -, -, ⟨trialCost, hfound, hlow⟩, -⟩ := h.ends
  cases trialCost with
  | none => cases hlow
  | some c =>
      rw [h.linked.found.unique he u (hfound c rfl)]
      exact (real_le _ _).mp (of_decide_eq_true hlow)

/-- A search does not raise the cost. -/
theorem Moves.cost_le (h : m.Moves s s') (he : m.evaluator.Pure)
    (hdecrease : 0 ≤ m.options.sufficientDecrease) (u : σ) : s'.cost ≤ s.cost := by
  obtain ⟨_, lengths, _, _, hsearches, hmem, -⟩ := h.ends
  have hlengths : ∀ t ∈ lengths, 0 ≤ t :=
    (hsearches.trials.shortened (R := fun _ _ => True) m.firstLength_nonneg fun t c ht =>
      ⟨(mul_nonneg (by norm_num) ht).trans (shorten_mem ht _ _ c).1, trivial⟩).1
  have hsmall : m.options.sufficientDecrease * s'.record.stepSize * (m.ray s).slope ≤ 0 :=
    mul_nonpos_of_nonneg_of_nonpos (mul_nonneg hdecrease (hlengths _ hmem)) m.ray_slope_nonpos
  linarith [h.decrease he u]

/-- Along reported states that lead from one to the next, the last cost is the
lowest. -/
theorem lowestFrom_eq_getLast (he : m.evaluator.Pure)
    (hdecrease : 0 ≤ m.options.sufficientDecrease) (u : σ)
    {entry last : IterationRecord ℝ × Vec ℝ} (h : (entry :: trace).IsChain m.Leads)
    (hlast : (entry :: trace).getLast? = some last) :
    lowestFrom entry.1.cost (trace.map Prod.fst) = last.1.cost := by
  induction trace generalizing entry with
  | nil =>
      cases hlast
      rfl
  | cons next trace ih =>
      obtain ⟨⟨s, s', -, hmove, hs, hs'⟩, hchain⟩ := List.isChain_cons_cons.mp h
      have hle : next.1.cost ≤ entry.1.cost := hs ▸ hs' ▸ hmove.cost_le he hdecrease u
      rw [List.getLast?_cons_cons] at hlast
      rw [List.map_cons, lowestFrom_cons, min_eq_right hle]
      exact ih hchain hlast

theorem Ran.improved {result : MinimizerSummary ℝ} (h : m.Ran x result trace)
    (hrecords : result.history.records = trace.map Prod.fst)
    (hfound : ∀ entry ∈ trace, m.evaluator.Finds entry.2 entry.1.cost)
    (he : m.evaluator.Pure) (hdecrease : 0 ≤ m.options.sufficientDecrease) (u : σ) :
    Improved m.evaluator x result := by
  obtain ⟨record, rest, rfl, hcost⟩ := h.first
  obtain ⟨last, hlast⟩ := h.best
  have hlowest : lowestFrom record.cost (rest.map Prod.fst) = last.cost :=
    lowestFrom_eq_getLast he hdecrease u h.chain hlast
  refine ⟨h.initial, last.cost, ?_, hfound _ (List.mem_of_getLast? hlast), ?_⟩
  · rw [MinimizerSummary.finalCost?, hrecords, List.map_cons, lowestCost?_cons, hlowest]
  · rw [← hlowest, ← hcost]
    exact lowestFrom_le _ _

end LineSearch

end LeastSquares
