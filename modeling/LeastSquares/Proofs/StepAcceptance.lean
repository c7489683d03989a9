import LeastSquares.Proofs.RunCompletion

/-!
# How the accepted costs descend

The costs that a step is judged by are ordered: the minimum lies at or below
the current cost, this one at or below the candidate, and the candidate at or
below the reference. A step is accepted only if one of two quotients is
positive whose divisors are sums of predicted decreases, and so only if its
cost lies below the reference. That keeps the order, and the reference never
rises.

If the reference is moved at once, all four costs are one: every accepted
step is a new minimum, so that the branch that would leave the reference
behind is never taken.

## Main definitions

* `StepAcceptance.Ordered` — the order of the costs.
* `StepAcceptance.Monotone` — all costs are the current one.

## Main results

* `StepAcceptance.lt_reference`, `StepAcceptance.Ordered.accept` — one step.
* `TrustRegion.acceptance_run` — a whole run.
-/

namespace LeastSquares

/-! ## One step -/

namespace StepAcceptance

variable {a : StepAcceptance ℝ} {cost change : ℝ}

/-- The costs are in order, and no predicted decrease was taken back. -/
structure Ordered (a : StepAcceptance ℝ) : Prop where
  minimum : a.minimum ≤ a.current
  current : a.current ≤ a.candidate
  candidate : a.candidate ≤ a.reference
  referenceChange : 0 ≤ a.referenceChange
  candidateChange : 0 ≤ a.candidateChange

/-- The reference is moved at once, and all costs are the current one. -/
structure Monotone (a : StepAcceptance ℝ) : Prop where
  limit : a.limit = 0
  minimum : a.minimum = a.current
  reference : a.reference = a.current
  referenceChange : a.referenceChange = 0

theorem ordered_new (cost : ℝ) (limit : Nat) : (new cost limit).Ordered :=
  ⟨le_refl cost, le_refl cost, le_refl cost, real_zero.ge, real_zero.ge⟩

theorem monotone_new (cost : ℝ) : (new cost 0).Monotone := ⟨rfl, rfl, rfl, real_zero⟩

/-- The quality of a step to a cost. -/
theorem quality_some : a.quality (some cost) change =
    max ((a.current - cost) / change) ((a.reference - cost) / (a.referenceChange + change)) := by
  simp only [quality, real_isFinite, if_true, real_max, real_sub, real_div, real_add]

/-- A step to no usable cost is not good enough. -/
theorem quality_none_neg : a.quality none change < 0 := by
  show (-1.7976931348623157e308 : ℝ) < 0
  norm_num

/-- A step that is good enough leads below the reference. -/
theorem lt_reference (h : a.Ordered) (hchange : 0 < change)
    (hgood : 0 < a.quality (some cost) change) : cost < a.reference := by
  rw [quality_some, lt_max_iff] at hgood
  rcases hgood with hcurrent | hreference
  · have hcost : 0 < a.current - cost := (div_pos_iff_of_pos_right hchange).mp hcurrent
    linarith [h.current, h.candidate]
  · have hsum : 0 < a.referenceChange + change := by linarith [h.referenceChange]
    have hcost : 0 < a.reference - cost := (div_pos_iff_of_pos_right hsum).mp hreference
    linarith

@[simp] theorem current_accept : (a.accept cost change).current = cost := by
  unfold accept take
  dsimp only
  split <;> split <;> first | rfl | (split <;> rfl)

theorem Ordered.take (h : a.Ordered) (hcost : cost < a.reference) (hchange : 0 ≤ change) :
    (a.take cost change).Ordered ∧ (a.take cost change).reference = a.reference := by
  have hreference : 0 ≤ a.referenceChange + change := add_nonneg h.referenceChange hchange
  have hcandidate : 0 ≤ a.candidateChange + change := add_nonneg h.candidateChange hchange
  unfold StepAcceptance.take
  simp only [real_lt, real_add]
  split
  · exact ⟨⟨le_refl _, le_refl _, hcost.le, hreference, real_zero.ge⟩, rfl⟩
  · rename_i hminimum
    split
    · exact ⟨⟨not_lt.mp hminimum, le_refl _, hcost.le, hreference, real_zero.ge⟩, rfl⟩
    · rename_i hcurrent
      exact ⟨⟨not_lt.mp hminimum, not_lt.mp hcurrent, h.candidate, hreference, hcandidate⟩, rfl⟩

/-- An accepted step keeps the order, and does not raise the reference. -/
theorem Ordered.accept (h : a.Ordered) (hcost : cost < a.reference) (hchange : 0 ≤ change) :
    (a.accept cost change).Ordered ∧ (a.accept cost change).reference ≤ a.reference := by
  obtain ⟨htake, hsame⟩ := h.take hcost hchange
  unfold StepAcceptance.accept
  dsimp only
  split
  · refine ⟨⟨htake.minimum, htake.current, le_refl _, htake.candidateChange,
      htake.candidateChange⟩, ?_⟩
    exact hsame ▸ htake.candidate
  · exact ⟨htake, hsame.le⟩

/-- If the reference is moved at once, the quality is measured from the current
cost alone. -/
theorem Monotone.quality (h : a.Monotone) :
    a.quality (some cost) change = (a.current - cost) / change := by
  rw [quality_some, h.reference, h.referenceChange, zero_add, max_self]

/-- Every step that is accepted is then a new minimum. -/
theorem Monotone.accept (h : a.Monotone) (hcost : cost < a.current) :
    (a.accept cost change).Monotone := by
  have hless : Scalar.lt cost a.minimum = true := (real_lt _ _).mpr (h.minimum ▸ hcost)
  unfold StepAcceptance.accept take
  dsimp only
  rw [if_pos (show @LT.lt ℝ instLTOfScalar cost a.minimum from hless), if_pos h.limit.symm]
  exact ⟨h.limit, rfl, rfl, real_zero⟩

end StepAcceptance

namespace TrustRegion

variable {σ : Type} {m : TrustRegion ℝ σ} {s s' : State ℝ} {trial : Trial ℝ}

/-! ## One iteration -/

theorem predictedDecrease?_pos {linear : Linearization ℝ} {step : Vec ℝ} {d : ℝ}
    (h : predictedDecrease? linear step = some d) : 0 < d := by
  unfold predictedDecrease? at h
  dsimp only at h
  split at h
  · rename_i hpos
    cases h
    have hlt := of_decide_eq_true (Bool.and_eq_true_iff.mp hpos).2
    rwa [real_lt, real_zero] at hlt
  · cases h

/-- Every trial that is judged promises a decrease. -/
theorem Offered.decrease_pos (h : m.Offered s trial) : 0 < trial.decrease := by
  cases h with
  | proposed h =>
      obtain ⟨step, hstep⟩ := h.predicted
      exact predictedDecrease?_pos hstep
  | @improved trial h c lower y _ less _ _ _ _ _ _ _ =>
      obtain ⟨step, hstep⟩ := h.predicted
      have hpos := predictedDecrease?_pos hstep
      have hless : lower < c := (real_lt _ _).mp less
      show 0 < trial.decrease + (c - lower)
      linarith

/-- What an iteration finds and leaves: the costs are in order, the current one
is that of the state, and none lies above a bound. -/
structure Descending (m : TrustRegion ℝ σ) (bound : ℝ) (s : State ℝ) : Prop where
  linked : m.Linked s
  ordered : s.acceptance.Ordered
  current : s.acceptance.current = s.linear.cost
  bounded : s.acceptance.reference ≤ bound

/-- What an accepted step does to the costs. -/
structure Descends (s s' : State ℝ) : Prop where
  reference : s'.acceptance.reference ≤ s.acceptance.reference
  accepted : s'.record.successful = true → s'.record.cost < s.acceptance.reference

/-- The costs of a state are its current cost alone, and its step did not raise
it. -/
structure Monotone (s : State ℝ) : Prop where
  acceptance : s.acceptance.Monotone
  nonmonotonic : s.record.nonmonotonic = false

/-- A trial that is accepted has a cost, which is that of the next state. -/
theorem exists_cost_of_good (he : m.evaluator.Pure) (u : σ)
    (ho : 0 ≤ m.options.minRelativeDecrease) (hoffered : m.Offered s trial)
    (hgood : m.options.minRelativeDecrease < s.acceptance.quality trial.cost trial.decrease)
    {cost : ℝ} (hfound : m.evaluator.Finds trial.x cost) : trial.cost = some cost := by
  cases htrial : trial.cost with
  | none =>
      rw [htrial] at hgood
      exact absurd (ho.trans_lt hgood) StepAcceptance.quality_none_neg.not_gt
  | some c => rw [(hoffered.found htrial).unique he u hfound]

variable {bound : ℝ}

theorem Turn.descending (h : m.Turn s (.next s')) (hs : m.Descending bound s)
    (he : m.evaluator.Pure) (u : σ) (ho : 0 ≤ m.options.minRelativeDecrease) :
    m.Descending bound s' ∧ Descends s s' := by
  have hlinked := h.linked hs.linked
  cases h with
  | keep standing =>
      have hacceptance : s'.acceptance = s.acceptance := congrArg Standing.acceptance standing
      have hlinear : s'.linear = s.linear := congrArg Standing.linear standing
      have hno : s'.record.successful = false := congrArg Standing.successful standing
      refine ⟨⟨hlinked, hacceptance ▸ hs.ordered, ?_, hacceptance ▸ hs.bounded⟩,
        ⟨(congrArg StepAcceptance.reference hacceptance).le, fun hyes => ?_⟩⟩
      · rw [hacceptance, hlinear, hs.current]
      · exact absurd (hno.symm.trans hyes) nofun
  | @accept _ trial linear _ offered _ good found standing =>
      rw [real_lt] at good
      have hacceptance : s'.acceptance = s.acceptance.accept linear.cost trial.decrease :=
        congrArg Standing.acceptance standing
      have hlinear : s'.linear = linear := congrArg Standing.linear standing
      have hcost := exists_cost_of_good he u ho offered good found
      have hpos := offered.decrease_pos
      have hless : linear.cost < s.acceptance.reference := by
        rw [hcost] at good
        exact StepAcceptance.lt_reference hs.ordered hpos (ho.trans_lt good)
      obtain ⟨hordered, hle⟩ := hs.ordered.accept hless hpos.le
      refine ⟨⟨hlinked, hacceptance ▸ hordered, ?_, ?_⟩, ?_, fun _ => ?_⟩
      · rw [hacceptance, hlinear, StepAcceptance.current_accept]
      · rw [hacceptance]
        exact hle.trans hs.bounded
      · rw [hacceptance]
        exact hle
      · rw [hlinked.record, hlinear]
        exact hless

/-- Without a lagging reference an accepted step lowers the cost. -/
theorem Turn.monotone (h : m.Turn s (.next s')) (hs : m.Descending bound s) (hmonotone : Monotone s)
    (he : m.evaluator.Pure) (u : σ) (ho : 0 ≤ m.options.minRelativeDecrease) :
    Monotone s' ∧ (s'.record.successful = true → s'.record.cost < s.record.cost) := by
  have hlinked := h.linked hs.linked
  cases h with
  | keep standing =>
      have hacceptance : s'.acceptance = s.acceptance := congrArg Standing.acceptance standing
      have hno : s'.record.successful = false := congrArg Standing.successful standing
      refine ⟨⟨hacceptance ▸ hmonotone.acceptance, congrArg Standing.nonmonotonic standing⟩,
        fun hyes => ?_⟩
      exact absurd (hno.symm.trans hyes) nofun
  | @accept _ trial linear costChange offered change good found standing =>
      rw [real_lt] at good
      have hacceptance : s'.acceptance = s.acceptance.accept linear.cost trial.decrease :=
        congrArg Standing.acceptance standing
      have hlinear : s'.linear = linear := congrArg Standing.linear standing
      have hnonmonotonic := congrArg Standing.nonmonotonic standing
      have hcost := exists_cost_of_good he u ho offered good found
      rw [hcost, hmonotone.acceptance.quality, hs.current] at good
      have hchange : costChange = s.linear.cost - linear.cost := change _ hcost
      have hgood : m.options.minRelativeDecrease < costChange / trial.decrease :=
        hchange.symm ▸ good
      have hless : linear.cost < s.linear.cost := by
        have hdecrease := (div_pos_iff_of_pos_right offered.decrease_pos).mp (ho.trans_lt good)
        linarith
      refine ⟨⟨?_, ?_⟩, fun _ => ?_⟩
      · rw [hacceptance]
        exact hmonotone.acceptance.accept (hs.current.symm ▸ hless)
      · refine hnonmonotonic.trans (decide_eq_false ?_)
        rw [real_lt, real_div]
        exact hgood.not_gt
      · rw [hlinked.record, hlinear, hs.linked.record]
        exact hless

/-! ## All iterations -/

section Runs

variable [ScalarText ℝ] {w w' : World ℝ σ} {states : List (State ℝ)}
  {result : Reason ℝ × State ℝ}

theorem Reviewed.descending (h : m.Reviewed s s') (hs : m.Descending bound s) :
    m.Descending bound s' := by
  refine ⟨h.linked hs.linked, h.acceptance ▸ hs.ordered, ?_, h.acceptance ▸ hs.bounded⟩
  rw [h.acceptance, h.linear, hs.current]

theorem Reviewed.monotone (h : m.Reviewed s s') (hs : Monotone s) : Monotone s' :=
  ⟨h.acceptance ▸ hs.acceptance, h.nonmonotonic.trans hs.nonmonotonic⟩

/-- The costs of every state are in order, and descend from each to the
next. -/
theorem descending_of_passes (hinner : m.InnerExplores) (he : m.evaluator.Pure) (u : σ)
    (ho : 0 ≤ m.options.minRelativeDecrease) (h : m.loop.Passes s w states result w')
    (hs : m.Descending bound s) :
    (∀ s' ∈ states, m.Descending bound s') ∧ states.IsChain Descends := by
  have hall : ∀ s' ∈ states, m.Descending bound s' :=
    h.invariant (fun s w hs => returns_report.mono fun r w' hr => hr.1.descending hs)
      (fun s w hs => (returns_step hinner).mono fun r w' hr => by
        rintro s' rfl
        exact (hr.2.descending hs he u ho).1) hs
  refine ⟨hall, h.isChain.imp_of_mem_imp fun a b ha _ hleads => ?_⟩
  obtain ⟨s', hturn, hreviewed⟩ := exists_turn_of_leads hinner hleads
  obtain ⟨-, hdescends⟩ := hturn.descending (hall a ha) he u ho
  have hcost : b.record.cost = s'.record.cost := hreviewed.shown.cost
  have hsuccessful : b.record.successful = s'.record.successful := hreviewed.shown.successful
  refine ⟨hreviewed.acceptance ▸ hdescends.reference, fun hyes => ?_⟩
  rw [hcost]
  exact hdescends.accepted (hsuccessful ▸ hyes)

/-- Without a lagging reference every accepted step lowers the cost. -/
theorem monotone_of_passes (hinner : m.InnerExplores) (he : m.evaluator.Pure) (u : σ)
    (ho : 0 ≤ m.options.minRelativeDecrease) (h : m.loop.Passes s w states result w')
    (hs : m.Descending bound s) (hmonotone : Monotone s) :
    (∀ s' ∈ states, Monotone s') ∧ states.IsChain fun a b =>
      b.record.successful = true → b.record.cost < a.record.cost := by
  have hall : ∀ s' ∈ states, m.Descending bound s' ∧ Monotone s' :=
    h.invariant (fun s w hs => returns_report.mono fun r w' hr =>
        ⟨hr.1.descending hs.1, hr.1.monotone hs.2⟩)
      (fun s w hs => (returns_step hinner).mono fun r w' hr => by
        rintro s' rfl
        exact ⟨(hr.2.descending hs.1 he u ho).1, (hr.2.monotone hs.1 hs.2 he u ho).1⟩)
      ⟨hs, hmonotone⟩
  refine ⟨fun s' hs' => (hall s' hs').2, h.isChain.imp_of_mem_imp fun a b ha _ hleads => ?_⟩
  obtain ⟨s', hturn, hreviewed⟩ := exists_turn_of_leads hinner hleads
  obtain ⟨hdescending, hmono⟩ := hall a ha
  have hlower := (hturn.monotone hdescending hmono he u ho).2
  have hcost : b.record.cost = s'.record.cost := hreviewed.shown.cost
  have hsuccessful : b.record.successful = s'.record.successful := hreviewed.shown.successful
  intro hyes
  rw [hcost]
  exact hlower (hsuccessful ▸ hyes)

variable {strategy : Strategy ℝ} {counts : EvaluationCounts} {x : Vec ℝ}
  {summary : MinimizerSummary ℝ}

omit [ScalarText ℝ] in
theorem descending_initial {linear : Linearization ℝ} {counts' : EvaluationCounts} {start : Nat}
    (h : m.Linked (m.initial strategy x linear counts' start)) :
    m.Descending linear.cost (m.initial strategy x linear counts' start) :=
  ⟨h, StepAcceptance.ordered_new _ _, rfl, le_refl _⟩

/-- The costs of a run descend from the initial cost. -/
theorem Visits.descending (h : m.Visits strategy counts x w states summary w')
    (hinner : m.InnerExplores) (he : m.evaluator.Pure) (ho : 0 ≤ m.options.minRelativeDecrease) :
    (∀ s ∈ states, m.Descending summary.initialCost s) ∧ states.IsChain Descends := by
  cases h with
  | none _ => exact ⟨fun _ hs => absurd hs List.not_mem_nil, .nil⟩
  | some found passes _ =>
      exact descending_of_passes hinner he w.tally.user ho passes
        (descending_initial (linked_initial found _ _))

/-- If the cost may not rise for a while, it falls with every accepted step. -/
theorem Visits.monotone (h : m.Visits strategy counts x w states summary w')
    (hinner : m.InnerExplores) (he : m.evaluator.Pure) (ho : 0 ≤ m.options.minRelativeDecrease)
    (hlimit : m.options.useNonmonotonicSteps = false ∨ m.options.maxNonmonotonicSteps = 0) :
    (∀ s ∈ states, Monotone s) ∧ states.IsChain fun a b =>
      b.record.successful = true → b.record.cost < a.record.cost := by
  have hzero : (if m.options.useNonmonotonicSteps then m.options.maxNonmonotonicSteps
      else 0) = 0 := by
    rcases hlimit with hoff | hnone
    · rw [hoff]
      rfl
    · rw [hnone, ite_self]
  cases h with
  | none _ => exact ⟨fun _ hs => absurd hs List.not_mem_nil, .nil⟩
  | @some linear _ _ _ _ _ _ found passes _ =>
      refine monotone_of_passes hinner he w.tally.user ho passes
        (descending_initial (linked_initial found _ _)) ⟨?_, rfl⟩
      show (StepAcceptance.new linear.cost _).Monotone
      rw [hzero]
      exact StepAcceptance.monotone_new _

theorem Visits.records_eq (h : m.Visits strategy counts x w states summary w')
    (hinner : m.InnerExplores) : summary.history.records = states.map State.record := by
  rw [(h.minimized hinner).1.records, List.map_map]
  rfl

/-- What a run does to the costs that its steps are judged by. They are in
order at every state that is reported, the reference never rises, every
accepted step leads below it, and no cost on record exceeds the initial one.
If the cost may not rise for a while, the reference is the current cost,
every accepted step lowers the cost, and none is marked as one that raised
it. -/
theorem acceptance_run {o : MinimizerOptions ℝ} {e : Evaluator ℝ σ}
    {inner : Option CoordinateDescent} {callbacks : Pipeline ℝ σ} (he : e.Pure)
    (ho : 0 ≤ o.minRelativeDecrease)
    (h : minimize ⟨o, e, inner.map fun c => c.sweep e, callbacks⟩ strategy counts x w =
      .ok summary w') :
    ∃ states : List (State ℝ),
      Visits ⟨o, e, inner.map fun c => c.sweep e, callbacks⟩ strategy counts x w states summary
        w' ∧
      summary.history.records = states.map State.record ∧
      (∀ s ∈ states, s.acceptance.Ordered ∧ s.acceptance.current = s.record.cost ∧
        s.record.cost ≤ summary.initialCost) ∧
      states.IsChain (fun s s' => s'.acceptance.reference ≤ s.acceptance.reference ∧
        (s'.record.successful = true → s'.record.cost < s.acceptance.reference)) ∧
      (o.useNonmonotonicSteps = false ∨ o.maxNonmonotonicSteps = 0 →
        (∀ s ∈ states, s.acceptance.reference = s.acceptance.current ∧
          s.record.nonmonotonic = false) ∧
        states.IsChain fun s s' =>
          s'.record.successful = true → s'.record.cost < s.record.cost) := by
  have hinner := CoordinateDescent.innerExplores o e inner callbacks
  obtain ⟨states, hvisits⟩ := returns_visits _ _ h
  obtain ⟨hall, hchain⟩ := hvisits.descending hinner he ho
  refine ⟨states, hvisits, hvisits.records_eq hinner, fun s hs => ?_,
    hchain.imp fun a b hab => ⟨hab.reference, hab.accepted⟩, fun hlimit => ?_⟩
  · have hs := hall s hs
    refine ⟨hs.ordered, hs.current.trans hs.linked.record.symm, ?_⟩
    rw [hs.linked.record, ← hs.current]
    linarith [hs.ordered.current, hs.ordered.candidate, hs.bounded]
  · obtain ⟨hmonotone, hlower⟩ := hvisits.monotone hinner he ho hlimit
    exact ⟨fun s hs => ⟨(hmonotone s hs).acceptance.reference, (hmonotone s hs).nonmonotonic⟩,
      hlower⟩

end Runs

/-- A run with inner iterations over two blocks, in which the cost may not
rise. -/
theorem acceptance_run_anchored : ∃ (e : Evaluator ℝ Unit) (summary : MinimizerSummary ℝ)
    (w' : World ℝ Unit) (states : List (State ℝ)),
    Evaluator.create (Gallery.anchored ℝ) (.ofProblem (Gallery.anchored ℝ)) .denseQR 0 none =
      .ok e ∧
    minimize ⟨{}, e, some fun x => CoordinateDescent.sweep ⟨[[0, 1]]⟩ e x, {}⟩
      (.levenbergMarquardt (.new CoordinateDescent.solver {})) {} (Vec.ofList [(4 : ℝ), 7])
      (Gallery.anchoredWorld ℝ) = .ok summary w' ∧
    summary.history.records = states.map State.record ∧
    (∀ s ∈ states, s.acceptance.Ordered ∧ s.record.cost ≤ summary.initialCost ∧
      s.acceptance.reference = s.acceptance.current ∧ s.record.nonmonotonic = false) ∧
    states.IsChain fun s s' => s'.record.successful = true → s'.record.cost < s.record.cost := by
  obtain ⟨e, hcreate, hpure, hrobust⟩ := Gallery.exists_evaluator_anchored
  have hdecrease : (0 : ℝ) ≤ (({} : MinimizerOptions ℝ).minRelativeDecrease) := by
    show (0 : ℝ) ≤ 1e-3
    norm_num
  have hends : Succeeds (minimize _ _ {} (Vec.ofList [(4 : ℝ), 7])) (Gallery.anchoredWorld ℝ)
      fun _ _ => True :=
    (Robust.ofSweep hrobust real_defaultBounds {} (some ⟨[[0, 1]]⟩) {}).succeeds_minimize
      Strategy.reflects_default
  obtain ⟨summary, w', hrun, -⟩ := hends
  obtain ⟨states, -, hrecords, hall, -, hmonotone⟩ :=
    acceptance_run hpure hdecrease hrun
  obtain ⟨hreference, hlower⟩ := hmonotone (.inl rfl)
  refine ⟨e, summary, w', states, hcreate, hrun, hrecords, fun s hs => ?_, hlower⟩
  obtain ⟨hordered, -, hle⟩ := hall s hs
  exact ⟨hordered, hle, hreference s hs⟩

end TrustRegion

end LeastSquares
