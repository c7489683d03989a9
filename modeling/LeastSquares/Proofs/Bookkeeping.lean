import LeastSquares.Proofs.Minimizer
import LeastSquares.Proofs.RunCompletion

/-!
# The books of a minimization

However a run goes, its records are numbered from zero on, each was shown to
the stages once with the state whose cost it tells, and the counts of the
summary are those of the records. A record without an accepted step repeats
the state of the record before it, and there is a Jacobian for each of the
others.

Both minimizers are loops that keep their books in the same way, so this is
proved for loops, and a minimizer only adds how its first state comes about.

## Main definitions

* `Booked` — what the books of a run tell.

## Main results

* `Loop.Regular.booked` — the books of a loop.
* `bookkeeping_run` — the books of a run.
-/

namespace LeastSquares

variable {α σ τ : Type} [Scalar α]

/-! ## Records and counts -/

/-- Reports without an accepted step repeat the state of the report before. -/
theorem Trace.Steady.isChain {previous : Vec α × α} {trace : Trace α}
    (h : Trace.Steady previous trace) :
    trace.IsChain fun a b => b.1.successful = false → b.2 = a.2 := by
  induction trace generalizing previous with
  | nil => exact .nil
  | cons entry trace ih =>
      cases trace with
      | nil => exact .singleton entry
      | cons next trace =>
          exact List.isChain_cons_cons.mpr ⟨fun hno => (h.2.1 hno).1, ih h.2⟩

/-- Every record but the first one stands for a step. -/
theorem History.Accurate.steps {h : History α} (haccurate : h.Accurate)
    {first : IterationRecord α} {rest : List (IterationRecord α)}
    (hrecords : h.records = first :: rest) (hfirst : first.successful = true) :
    h.successfulSteps + h.unsuccessfulSteps = rest.length := by
  have hcount : ∀ p : IterationRecord α → Bool,
      h.newestFirst.countP p = (first :: rest).countP p := fun p => by
    rw [← hrecords, History.records, List.countP_reverse]
  have hlength : h.newestFirst.length = rest.length + 1 := by
    rw [← List.length_reverse, show h.newestFirst.reverse = first :: rest from hrecords]
    rfl
  have hnumbered := haccurate.numbered
  rw [hrecords, hlength, List.range_succ_eq_map, List.map_cons, List.cons.injEq] at hnumbered
  obtain ⟨hzero, hnumbered⟩ := hnumbered
  have hlater : ∀ r ∈ rest, 0 < r.iteration := by
    intro r hr
    have hmem := hnumbered ▸ List.mem_map_of_mem (f := IterationRecord.iteration) hr
    obtain ⟨n, -, hn⟩ := List.mem_map.mp hmem
    exact hn ▸ Nat.succ_pos n
  have hsteps : rest.countP (fun r => r.successful && decide (0 < r.iteration)) =
      rest.countP fun r => r.successful :=
    List.countP_congr fun r hr => by simp [hlater r hr]
  rw [haccurate.successful, haccurate.unsuccessful, hcount, hcount,
    List.length_eq_countP_add_countP (fun r : IterationRecord α => r.successful) (l := rest)]
  simp [hzero, hfirst, hsteps]

/-! ## Loops -/

/-- What the books of a run tell: its records are those that were reported,
each once and with the state at which its cost was found, and the counts of
its history are those of the records. -/
structure Booked [ScalarText α] (e : Evaluator α σ) (pipeline : Pipeline α σ) (limit : Nat)
    (result : MinimizerSummary α) (trace : Trace α) (w w' : World α σ) : Prop where
  reports : e.Reports pipeline trace w w'
  records : result.history.records = trace.map Prod.fst
  found : ∀ entry ∈ trace, e.Finds entry.2 entry.1.cost
  accurate : result.history.Accurate
  length : trace.length ≤ limit + 1
  first : ∀ entry ∈ trace.head?, entry.1.successful = true
  steady : trace.IsChain fun a b => b.1.successful = false → b.2 = a.2

section Loops

variable [ScalarText α] {e : Evaluator α σ} {pipeline : Pipeline α σ} {w w1 w' : World α σ}
  {limit : Nat} {reason : Reason α} {x : Vec α} {cost : α}

/-- A run that has not entered its loop. -/
theorem booked_nil {counts : EvaluationCounts} (h : e.Explores w w')
    (hcounts : counts.jacobian = 0) :
    Booked e pipeline limit ⟨reason, { counts }, x, cost⟩ [] w w' :=
  ⟨.done h, rfl, fun _ hentry => absurd hentry List.not_mem_nil, ⟨rfl, rfl, rfl, hcounts⟩,
    Nat.zero_le _, nofun, .nil⟩

/-- The books of a loop. -/
theorem Loop.Regular.booked {l : Loop α σ τ} {I : τ → Prop} (hl : l.Regular e pipeline I)
    {s last : τ} {states : List τ} (h : l.Passes s w1 states (reason, last) w') (hs : I s)
    (hbefore : e.Explores w w1) (hlength : states.length ≤ limit + 1)
    {counts : EvaluationCounts} (hhistory : l.history s = { counts })
    (hcounts : counts.jacobian = 1) (hiteration : (l.record s).iteration = 0)
    (hsuccessful : (l.record s).successful = true) :
    Booked e pipeline limit ⟨reason, l.history last, x, cost⟩ (states.map l.entry) w w' := by
  have htold := hl.told (l.x s, (l.record s).cost) h hs fun _ => ⟨rfl, rfl⟩
  have hempty : (l.history s).newestFirst = [] := by rw [hhistory]
  refine ⟨htold.reports.explore hbefore, htold.records_eq hempty, htold.finds_entry, ?_, ?_, ?_,
    htold.steady.isChain⟩
  · refine htold.accurate ?_
    rw [hhistory]
    exact History.due_first hiteration hsuccessful hcounts
  · rwa [List.length_map]
  · obtain ⟨s', rest, d, w2, rfl, shown⟩ := h.exists_cons
    rintro entry ⟨⟩
    exact (hl.report _ _ _ _ shown).1.successful.trans hsuccessful

end Loops

/-! ## Runs -/

/-- The books of a run. -/
theorem Minimizer.Visits.booked [ScalarText α] {m : Minimizer α σ} {callbacks : Pipeline α σ}
    {x : Vec α} {w w' : World α σ} {trace : Trace α} {result : MinimizerSummary α}
    (h : m.Visits callbacks x w trace result w') :
    Booked m.evaluator callbacks m.options.maxIterations result trace w w' := by
  cases h with
  | @trustRegion o e inner _ _ _ _ h =>
      have hinner := CoordinateDescent.innerExplores o e inner callbacks
      cases h with
      | none missed =>
          have hmissed := TrustRegion.returns_linearize _ _ missed
          exact booked_nil ((Evaluator.Explores.tick w).trans hmissed.explores) hmissed.counted
      | some found passes length =>
          have hfound := TrustRegion.returns_linearize _ _ found
          exact (TrustRegion.regular_loop hinner).booked passes
            (TrustRegion.linked_initial found _ _)
            ((Evaluator.Explores.tick w).trans hfound.explores) length rfl hfound.counted rfl rfl
  | lineSearch h =>
      cases h with
      | none missed =>
          have hmissed := LineSearch.returns_evaluateGradient _ _ missed
          exact booked_nil ((Evaluator.Explores.tick w).trans hmissed.explores) hmissed.counted
      | some found passes length =>
          have hfound := LineSearch.returns_evaluateGradient _ _ found
          exact (LineSearch.regular_loop _).booked passes (LineSearch.linked_initial found _)
            ((Evaluator.Explores.tick w).trans hfound.explores) length rfl hfound.counted rfl rfl

/-- The books of a run. Every record was shown to the stages once, in order and
with the state whose cost it tells; the records are numbered from zero on and
are at most one more than the limit of iterations; a record without an accepted
step repeats the state of the one before; and the counts of steps and of
Jacobians are those of the records. -/
theorem bookkeeping_run [ScalarText α] {m : Minimizer α σ} {callbacks : Pipeline α σ}
    {x : Vec α} {w w' : World α σ} {result : MinimizerSummary α} (he : m.evaluator.Pure)
    (h : m.minimize callbacks x w = .ok result w') :
    (result.history.records.map IterationRecord.iteration =
        List.range result.history.records.length ∧
      result.history.records.length ≤ m.options.maxIterations + 1) ∧
    (∃ trace : Trace α, m.evaluator.Reports callbacks trace w w' ∧
      trace.map Prod.fst = result.history.records ∧
      (∀ entry ∈ trace, m.evaluator.Finds entry.2 entry.1.cost ∧
        ∀ t, Returns (m.evaluator.evaluate entry.2 false) t fun r _ =>
          ∃ ev, r = some ev ∧ ev.cost = entry.1.cost) ∧
      (∀ entry ∈ trace.head?, entry.1.successful = true) ∧
      trace.IsChain fun a b => b.1.successful = false → b.2 = a.2) ∧
    (result.history.records ≠ [] → result.history.successfulSteps +
      result.history.unsuccessfulSteps = result.history.records.length - 1) ∧
    result.history.counts.jacobian =
      result.history.records.countP IterationRecord.successful := by
  obtain ⟨trace, hvisits⟩ := m.returns_visits _ _ h
  have hbooked := hvisits.booked
  have haccurate := hbooked.accurate
  have hlength : result.history.records.length = result.history.newestFirst.length :=
    List.length_reverse
  refine ⟨⟨?_, ?_⟩, ⟨trace, hbooked.reports, hbooked.records.symm, fun entry hentry => ?_,
    hbooked.first, hbooked.steady⟩, fun hsome => ?_, ?_⟩
  · rw [hlength]
    exact haccurate.numbered
  · rw [hbooked.records, List.length_map]
    exact hbooked.length
  · have hfound := hbooked.found entry hentry
    exact ⟨hfound, fun t => hfound.returns_evaluate he⟩
  · cases htrace : trace with
    | nil => exact absurd (hbooked.records.trans (htrace ▸ rfl)) hsome
    | cons entry rest =>
        have hrecords : result.history.records = entry.1 :: rest.map Prod.fst :=
          hbooked.records.trans (htrace ▸ rfl)
        have hfirst := hbooked.first entry (htrace ▸ rfl)
        rw [haccurate.steps hrecords hfirst, hrecords]
        rfl
  · rw [haccurate.jacobian, History.records, List.countP_reverse]

/-- The books of a trust region run with inner iterations over two blocks, and
with a callback that looks on. -/
theorem bookkeeping_run_anchored : ∃ (e : Evaluator ℝ Unit) (result : MinimizerSummary ℝ)
    (w' : World ℝ Unit) (trace : Trace ℝ),
    Evaluator.create (Gallery.anchored ℝ) (.ofProblem (Gallery.anchored ℝ)) .denseQR 0 none =
      .ok e ∧
    (Minimizer.trustRegion {} e (some ⟨[[0, 1]]⟩)
      (.levenbergMarquardt (.new CoordinateDescent.solver {}))).minimize
        { user := [fun _ _ u => (.continue, u)] } (Vec.ofList [(4 : ℝ), 7])
        (Gallery.anchoredWorld ℝ) = .ok result w' ∧
    trace.map Prod.fst = result.history.records ∧
    (∀ entry ∈ trace, e.Finds entry.2 entry.1.cost) ∧
    (result.history.records ≠ [] → result.history.successfulSteps +
      result.history.unsuccessfulSteps = result.history.records.length - 1) := by
  obtain ⟨e, hcreate, hpure, hrobust⟩ := Gallery.exists_evaluator_anchored
  have hends : Succeeds ((Minimizer.trustRegion {} e _ _).minimize _ (Vec.ofList [(4 : ℝ), 7]))
      (Gallery.anchoredWorld ℝ) fun _ _ => True :=
    (TrustRegion.Robust.ofSweep hrobust real_defaultBounds {} (some ⟨[[0, 1]]⟩)
      { user := [fun _ _ u => (.continue, u)] }).succeeds_minimize Strategy.reflects_default
  obtain ⟨result, w', hrun, -⟩ := hends
  obtain ⟨-, ⟨trace, -, hrecords, hfound, -⟩, hsteps, -⟩ :=
    bookkeeping_run (m := .trustRegion {} e _ _) hpure hrun
  exact ⟨e, result, w', trace, hcreate, hrun, hrecords, fun entry hentry =>
    (hfound entry hentry).1, hsteps⟩

end LeastSquares
