import LeastSquares.Minimizer.TrustRegion
import LeastSquares.Proofs.Loop

/-!
# Runs of the trust region minimizer

An iteration ends the run, keeps its state, or accepts a trial, and then it
moves on to a state at which a cost was found. What it leaves alone until
then is one value, the standing of a state, so that every way through an
iteration is told by what has become of it. So every record that is reported
has the cost of the state it is reported with, and a record without a
successful step repeats the one before. The recommended state is the best of
those that were reported.

## Main definitions

* `TrustRegion.Standing` — what only an accepted step changes.
* `TrustRegion.Offered` — where a trial comes from and what it promises.
* `TrustRegion.Turn` — what an iteration can come to.
* `TrustRegion.Visits` — the states of a run.
* `Trace.better` — the better of a state and a reported one.

## Main results

* `TrustRegion.returns_step` — one iteration.
* `TrustRegion.regular_loop` — what all iterations keep.
* `TrustRegion.returns_visits`, `TrustRegion.Visits.minimized` — a run.
-/

namespace LeastSquares

variable {α σ : Type} [Scalar α]

/-! ## Traces -/

namespace Trace

/-- The better one of a state and a reported one, with their costs. Only
accepted steps count. -/
def better (best : Vec α × α) (entry : IterationRecord α × Vec α) : Vec α × α :=
  if entry.1.successful && entry.1.cost < best.2 then (entry.2, entry.1.cost) else best

/-- The best is one of those that were compared. -/
theorem best_of_forall {P : Vec α → α → Prop} {trace : Trace α} (best : Vec α × α)
    (h : ∀ entry ∈ trace, P entry.2 entry.1.cost) (hbest : P best.1 best.2) :
    P (trace.foldl better best).1 (trace.foldl better best).2 := by
  induction trace generalizing best with
  | nil => exact hbest
  | cons entry trace ih =>
      refine ih _ (fun entry' hentry => h entry' (List.mem_cons_of_mem entry hentry)) ?_
      unfold better
      split
      · exact h entry (by simp)
      · exact hbest

end Trace

namespace TrustRegion

variable {m : TrustRegion α σ} {s s' : State α} {w w' : World α σ} {x : Vec α} {trial : Trial α}

/-! ## What an iteration can come to -/

/-- What of a state and its record only an accepted step changes, once an
iteration has begun. -/
structure Standing (α : Type) [Scalar α] where
  x : Vec α
  linear : Linearization α
  best : Vec α
  bestCost : α
  acceptance : StepAcceptance α
  records : List (IterationRecord α)
  successfulSteps : Nat
  unsuccessfulSteps : Nat
  jacobianEvaluations : Nat
  iteration : Nat
  cost : α
  successful : Bool
  nonmonotonic : Bool

/-- The standing of a state. -/
def State.standing (s : State α) : Standing α where
  x := s.x
  linear := s.linear
  best := s.best
  bestCost := s.bestCost
  acceptance := s.acceptance
  records := s.history.newestFirst
  successfulSteps := s.history.successfulSteps
  unsuccessfulSteps := s.history.unsuccessfulSteps
  jacobianEvaluations := s.history.counts.jacobian
  iteration := s.record.iteration
  cost := s.record.cost
  successful := s.record.successful
  nonmonotonic := s.record.nonmonotonic

/-- The standing with which the next iteration begins. -/
def State.opened (s : State α) : Standing α := (begin s s.iterationStart).standing

/-- The standing after a trial was accepted. -/
def Standing.accept (t : Standing α) (trial : Trial α) (linear : Linearization α)
    (nonmonotonic : Bool) : Standing α :=
  { t with
    x := trial.x
    linear
    acceptance := t.acceptance.accept linear.cost trial.decrease
    jacobianEvaluations := t.jacobianEvaluations + 1
    cost := linear.cost
    successful := true
    nonmonotonic }

/-- A trial to which a step leads. The linear model predicts its decrease. -/
structure Proposed (m : TrustRegion α σ) (s : State α) (trial : Trial α) : Prop where
  found : ∀ c, trial.cost = some c → m.evaluator.Finds trial.x c
  predicted : ∃ step, predictedDecrease? s.linear step = some trial.decrease
  origin : ∃ delta, m.evaluator.plus s.x delta = .ok trial.x

/-- The trials that are judged: those that steps lead to, and those to which
inner iterations lead from there. What these gain comes on top of the decrease
that was predicted. -/
inductive Offered (m : TrustRegion α σ) (s : State α) : Trial α → Prop
  | proposed {trial : Trial α} (h : m.Proposed s trial) : Offered m s trial
  | improved {trial : Trial α} (h : m.Proposed s trial) {c lower : α} {y : Vec α}
      (cost : trial.cost = some c) (less : lower < c) (found : m.evaluator.Finds y lower)
      {sweep : Vec α → Run α σ (Nat × Vec α)} {n : Nat} {v v' : World α σ}
      (inner : m.inner = some sweep) (swept : sweep trial.x v = .ok (n, y) v') :
      Offered m s ⟨y, some lower, trial.decrease + (c - lower)⟩

theorem Offered.found (h : m.Offered s trial) {c : α} (hc : trial.cost = some c) :
    m.evaluator.Finds trial.x c := by
  cases h with
  | proposed h => exact h.found c hc
  | improved h cost less found inner swept =>
      cases hc
      exact found

/-- What an iteration can come to: the run ends, the state is kept, or a trial
is accepted that is good enough and at which a cost was found. -/
inductive Turn (m : TrustRegion α σ) (s : State α) : StepResult α → Prop
  | stop {reason : Reason α} {s' : State α} (y : Vec α)
      (standing : s'.standing = { s.opened with x := y }) : Turn m s (.stop (reason, s'))
  | keep {s' : State α} (standing : s'.standing = s.opened) : Turn m s (.next s')
  | accept {s' : State α} {trial : Trial α} {linear : Linearization α} {costChange : α}
      (offered : m.Offered s trial)
      (change : ∀ c, trial.cost = some c → costChange = s.linear.cost - c)
      (good : m.options.minRelativeDecrease < s.acceptance.quality trial.cost trial.decrease)
      (found : m.evaluator.Finds trial.x linear.cost)
      (standing : s'.standing = s.opened.accept trial linear
        (costChange / trial.decrease < m.options.minRelativeDecrease)) : Turn m s (.next s')

theorem Turn.kept (h : s'.standing = s.opened) {reason : Reason α} :
    m.Turn s (.stop (reason, s')) := .stop s.x h

/-- Inner iterations only evaluate. -/
def InnerExplores (m : TrustRegion α σ) : Prop :=
  ∀ sweep, m.inner = some sweep → ∀ x w, Returns (sweep x) w fun _ w' => m.evaluator.Explores w w'

/-! ## One iteration -/

/-- What a linearization comes to. -/
structure Linearizes (m : TrustRegion α σ) (counts : EvaluationCounts) (x : Vec α)
    (w : World α σ) (r : Option (Linearization α) × EvaluationCounts) (w' : World α σ) :
    Prop where
  explores : m.evaluator.Explores w w'
  found : ∀ linear, r.1 = some linear → m.evaluator.Finds x linear.cost
  counted : r.2.jacobian = counts.jacobian + if r.1.isSome then 1 else 0

theorem returns_linearize {counts : EvaluationCounts} {scale : Option (Vec α)} :
    Returns (m.linearize counts x scale) w (m.Linearizes counts x w) := by
  rw [linearize, returns_bind]
  refine m.evaluator.returns_measured.mono ?_
  rintro ⟨_ | ev, counts'⟩ w1 hmeasures
  · exact returns_pure.mpr ⟨hmeasures.explores, nofun, hmeasures.counted⟩
  · obtain ⟨gradient, jacobian, hev⟩ := hmeasures.full rfl ev rfl
    rw [hev]
    refine returns_pure.mpr ⟨hmeasures.explores, fun linear hlinear => ?_, hmeasures.counted⟩
    cases hlinear
    exact hmeasures.found ev rfl

theorem discard_turn (h : s'.standing = s.opened) : m.Turn s (m.discard s') := by
  unfold discard
  dsimp only
  split
  · refine .kept ?_
    exact h
  · refine .keep ?_
    exact h

/-- An accepted trial. -/
theorem returns_accept (h : s'.standing = s.opened) (hoffered : m.Offered s trial)
    {costChange quality : α} (hchange : ∀ c, trial.cost = some c → costChange = s.linear.cost - c)
    (hgood : m.options.minRelativeDecrease < s.acceptance.quality trial.cost trial.decrease) :
    Returns (m.accept s' trial costChange quality) w fun r w' =>
      m.evaluator.Explores w w' ∧ m.Turn s r := by
  rw [accept, returns_bind]
  refine returns_linearize.mono ?_
  rintro ⟨_ | linear, counts⟩ w1 hlinear
  · have hcounted : counts.jacobian = s'.history.counts.jacobian := hlinear.counted
    refine returns_pure.mpr ⟨hlinear.explores, .stop trial.x ?_⟩
    show { s'.standing with x := trial.x, jacobianEvaluations := counts.jacobian } = _
    rw [hcounted, ← h]
    rfl
  · have hcounted : counts.jacobian = s'.history.counts.jacobian + 1 := hlinear.counted
    refine returns_pure.mpr ⟨hlinear.explores, .accept hoffered hchange hgood
      (hlinear.found linear rfl) ?_⟩
    rw [← h, Standing.accept]
    show Standing.mk _ _ _ _ _ _ _ _ counts.jacobian _ _ _ _ = _
    rw [hcounted]
    rfl

theorem returns_judge (h : s'.standing = s.opened) (hoffered : m.Offered s trial) :
    Returns (m.judge s' trial) w fun r w' => m.evaluator.Explores w w' ∧ m.Turn s r := by
  have hacceptance : s'.acceptance = s.acceptance := congrArg Standing.acceptance h
  have hlinear : s'.linear = s.linear := congrArg Standing.linear h
  unfold judge
  dsimp only
  split
  · refine returns_pure.mpr ⟨.rest, .kept ?_⟩
    exact h
  · split
    · refine returns_pure.mpr ⟨.rest, .kept ?_⟩
      exact h
    · split
      · rename_i hgood
        refine returns_accept ?_ hoffered (fun c hc => ?_) (hacceptance ▸ hgood)
        · exact h
        · rw [hc, hlinear]
      · refine returns_pure.mpr ⟨.rest, .keep ?_⟩
        exact h

theorem returns_improve (hinner : m.InnerExplores) (h : s'.standing = s.opened)
    (hproposed : m.Proposed s trial) :
    Returns (m.improve s' trial) w fun r w' =>
      m.evaluator.Explores w w' ∧ m.Offered s r.1 ∧ r.2.standing = s.opened := by
  unfold improve
  split
  · rename_i sweep cost hsweep _ hcost
    simp only [returns_bind, Run.returns_now, Run.returns_since]
    rintro ⟨updated, y⟩ w1 hy
    have hw1 := hinner sweep hsweep _ _ _ _ hy
    refine m.evaluator.returns_measured.mono ?_
    rintro ⟨evaluation, counts⟩ w2 hmeasures
    have hcounted : counts.jacobian = s'.history.counts.jacobian := hmeasures.counted
    refine returns_pure.mpr
      ⟨(Evaluator.Explores.tick w).trans (hw1.trans hmeasures.explores.look), ?_, ?_⟩
    · dsimp only
      split
      · rename_i lower hlower
        split
        · rename_i hless
          obtain ⟨ev, hev, rfl⟩ := Option.map_eq_some_iff.mp hlower
          exact .improved hproposed hcost hless (hmeasures.found ev hev) hsweep hy
        · exact .proposed hproposed
      · exact .proposed hproposed
    · rw [← h]
      show Standing.mk _ _ _ _ _ _ _ _ counts.jacobian _ _ _ _ = _
      rw [hcounted]
      rfl
  · exact returns_pure.mpr ⟨.rest, .proposed hproposed, h⟩

theorem returns_attempt (hinner : m.InnerExplores) (h : s'.standing = s.opened) {step : Vec α}
    {delta : Vec α} {decrease : α} (hdecrease : predictedDecrease? s.linear step = some decrease) :
    Returns (m.attempt s' delta decrease) w fun r w' =>
      m.evaluator.Explores w w' ∧ m.Turn s r := by
  have hx : s'.x = s.x := congrArg Standing.x h
  unfold attempt
  dsimp only
  rw [returns_bind, Run.returns_since]
  split
  · refine returns_pure.mpr ⟨.tick w, .kept ?_⟩
    exact h
  · simp only [returns_bind, Run.returns_ofFault]
    intro y hy
    refine m.evaluator.returns_measured.mono ?_
    rintro ⟨evaluation, counts⟩ w1 hmeasures
    have hcounted : counts.jacobian = s'.history.counts.jacobian := hmeasures.counted
    refine (returns_improve hinner ?_ ⟨Evaluator.finds_of_map hmeasures.found, ⟨step, hdecrease⟩,
      delta, hx ▸ hy⟩).mono ?_
    · rw [← h]
      show Standing.mk _ _ _ _ _ _ _ _ counts.jacobian _ _ _ _ = _
      rw [hcounted]
      rfl
    rintro ⟨trial, s2⟩ w2 ⟨hw2, hoffered, hstanding⟩
    refine (returns_judge hstanding hoffered).mono fun r w3 hr => ⟨?_, hr.2⟩
    exact (Evaluator.Explores.tick w).trans (hmeasures.explores.trans (hw2.trans hr.1))

theorem returns_pursue (hinner : m.InnerExplores) (h : s'.standing = s.opened)
    {answer : Outcome LinearError (TrustRegionStep α)} :
    Returns (m.pursue s' answer) w fun r w' => m.evaluator.Explores w w' ∧ m.Turn s r := by
  have hlinear : s'.linear = s.linear := congrArg Standing.linear h
  unfold pursue
  split
  · exact returns_throw
  · split
    · exact returns_pure.mpr ⟨.rest, .kept h⟩
    · exact returns_pure.mpr ⟨.rest, discard_turn h⟩
  · dsimp only
    split
    · refine returns_pure.mpr ⟨.rest, discard_turn ?_⟩
      exact h
    · rename_i decrease hdecrease
      refine returns_attempt hinner ?_ (hlinear ▸ hdecrease)
      exact h

/-- One iteration. -/
theorem returns_step (hinner : m.InnerExplores) :
    Returns (m.step s) w fun r w' => m.evaluator.Explores w w' ∧ m.Turn s r := by
  unfold step
  simp only [returns_bind, Run.returns_now, Run.returns_since]
  refine (returns_pursue hinner (s := s) ?_).mono ?_
  · rfl
  rintro r w' ⟨hw', hr⟩
  exact ⟨(((Evaluator.Explores.tick w).look).look).trans hw', hr⟩

/-! ## All iterations -/

/-- The minimizer as a loop. -/
def loop [ScalarText α] (m : TrustRegion α σ) : Loop α σ (State α) where
  report := m.report
  stop? s elapsed := m.stop? s.record elapsed
  step := m.step
  start := State.start
  x := State.x
  record := State.record
  history := State.history

theorem iterate_eq [ScalarText α] (m : TrustRegion α σ) (left : Nat) (s : State α) :
    m.iterate left s = m.loop.iterate left s := by
  induction left generalizing s with
  | zero => rfl
  | succ left ih =>
      rw [iterate, Loop.iterate, show m.iterate left = m.loop.iterate left from funext ih]
      refine bind_congr fun r => ?_
      obtain ⟨d, s'⟩ := r
      dsimp only
      cases d.reason? with
      | some reason => rfl
      | none =>
          refine bind_congr fun elapsed => ?_
          have hstop : m.loop.stop? s' elapsed = m.stop? s'.record elapsed := rfl
          rw [hstop]
          cases m.stop? s'.record elapsed with
          | some reason => rfl
          | none =>
              refine bind_congr fun r => ?_
              cases r <;> rfl

/-- The state after its report. The best state so far takes it into account. -/
structure Reviewed [ScalarText α] (m : TrustRegion α σ) (s s' : State α) : Prop where
  shown : m.loop.Shown s s'
  linear : s'.linear = s.linear
  acceptance : s'.acceptance = s.acceptance
  nonmonotonic : s'.record.nonmonotonic = s.record.nonmonotonic
  best : (s'.best, s'.bestCost) =
    if s.record.successful && s.linear.cost < s.bestCost then (s.x, s.linear.cost)
    else (s.best, s.bestCost)

variable [ScalarText α]

theorem returns_report : Returns (m.report s) w fun r w' => m.Reviewed s r.2 ∧
    ∃ w1, m.evaluator.Explores w w1 ∧ m.callbacks.run r.2.record r.2.x w1 = .ok r.1 w' := by
  unfold report
  simp only [returns_bind, Run.returns_since]
  intro d w' hd
  refine returns_pure.mpr ?_
  by_cases hbetter : (s.record.successful && decide (s.linear.cost < s.bestCost)) = true
  · simp only [if_pos hbetter] at hd ⊢
    exact ⟨⟨⟨rfl, rfl, rfl, rfl, rfl⟩, rfl, rfl, rfl, (if_pos hbetter).symm⟩, _,
      (Evaluator.Explores.tick w).look, hd⟩
  · simp only [if_neg hbetter] at hd ⊢
    exact ⟨⟨⟨rfl, rfl, rfl, rfl, rfl⟩, rfl, rfl, rfl, (if_neg hbetter).symm⟩, _,
      (Evaluator.Explores.tick w).look, hd⟩

/-- The cost of the linear model was found at the state, and is on the
record. -/
structure Linked (m : TrustRegion α σ) (s : State α) : Prop where
  found : m.evaluator.Finds s.x s.linear.cost
  record : s.record.cost = s.linear.cost

omit [ScalarText α] in
/-- An iteration leads to a state at which a cost was found. -/
theorem Turn.linked (h : m.Turn s (.next s')) (hs : m.Linked s) : m.Linked s' := by
  cases h with
  | keep standing =>
      have hx : s'.x = s.x := congrArg Standing.x standing
      have hlinear : s'.linear = s.linear := congrArg Standing.linear standing
      have hcost : s'.record.cost = s.linear.cost := congrArg Standing.cost standing
      exact ⟨hx ▸ hlinear ▸ hs.found, hlinear ▸ hcost⟩
  | @accept _ trial linear _ _ _ _ found standing =>
      have hx : s'.x = trial.x := congrArg Standing.x standing
      have hlinear : s'.linear = linear := congrArg Standing.linear standing
      have hcost : s'.record.cost = linear.cost := congrArg Standing.cost standing
      exact ⟨hx ▸ hlinear ▸ found, hlinear ▸ hcost⟩

theorem Turn.follows (h : m.Turn s (.next s')) (hs : m.Linked s) : m.loop.Follows s s' := by
  cases h with
  | keep standing =>
      have hsuccessful : s'.record.successful = false := congrArg Standing.successful standing
      refine ⟨congrArg Standing.iteration standing, fun _ => ⟨congrArg Standing.x standing,
        (congrArg Standing.cost standing).trans hs.record.symm⟩, ?_⟩
      show History.Level (if s'.record.successful then 1 else 0) s.history s'.history
      rw [hsuccessful]
      exact ⟨congrArg Standing.records standing, congrArg Standing.successfulSteps standing,
        congrArg Standing.unsuccessfulSteps standing,
        congrArg Standing.jacobianEvaluations standing⟩
  | accept _ _ _ _ standing =>
      have hsuccessful : s'.record.successful = true := congrArg Standing.successful standing
      refine ⟨congrArg Standing.iteration standing,
        fun hno => absurd (hsuccessful.symm.trans hno) nofun, ?_⟩
      show History.Level (if s'.record.successful then 1 else 0) s.history s'.history
      rw [hsuccessful]
      exact ⟨congrArg Standing.records standing, congrArg Standing.successfulSteps standing,
        congrArg Standing.unsuccessfulSteps standing,
        congrArg Standing.jacobianEvaluations standing⟩

omit [ScalarText α] in
/-- When a run ends in an iteration, all but the state itself is left as it
was. -/
theorem Turn.level {reason : Reason α} (h : m.Turn s (.stop (reason, s'))) :
    History.Level 0 s.history s'.history ∧ (s'.best, s'.bestCost) = (s.best, s.bestCost) := by
  cases h with
  | stop y standing =>
      refine ⟨⟨congrArg Standing.records standing, congrArg Standing.successfulSteps standing,
        congrArg Standing.unsuccessfulSteps standing,
        congrArg Standing.jacobianEvaluations standing⟩, ?_⟩
      exact congrArg (fun t => (t.best, t.bestCost)) standing

omit [ScalarText α] in
theorem Turn.best (h : m.Turn s (.next s')) : (s'.best, s'.bestCost) = (s.best, s.bestCost) := by
  cases h with
  | keep standing => exact congrArg (fun t => (t.best, t.bestCost)) standing
  | accept _ _ _ _ standing => exact congrArg (fun t => (t.best, t.bestCost)) standing

theorem Reviewed.linked (h : m.Reviewed s s') (hs : m.Linked s) : m.Linked s' := by
  have hx : s'.x = s.x := h.shown.x
  have hcost : s'.record.cost = s.record.cost := h.shown.cost
  exact ⟨hx ▸ h.linear ▸ hs.found, h.linear ▸ hcost.trans hs.record⟩

theorem regular_loop (hinner : m.InnerExplores) :
    m.loop.Regular m.evaluator m.callbacks m.Linked where
  found s hs := hs.record ▸ hs.found
  report s w := returns_report.mono fun r w' hr => ⟨hr.1.shown, hr.1.linked, hr.2⟩
  step s w hs := (returns_step hinner).mono fun r w' hr => by
    refine ⟨hr.1, ?_, ?_⟩
    · rintro reason s' rfl
      exact hr.2.level.1
    · rintro s' rfl
      exact ⟨hr.2.linked hs, hr.2.follows hs⟩

/-- From each reported state to the next there is an iteration and a report. -/
theorem exists_turn_of_leads (hinner : m.InnerExplores) (h : m.loop.Leads s s') :
    ∃ s'', m.Turn s (.next s'') ∧ m.Reviewed s'' s' := by
  obtain ⟨s'', w1, w2, d, w3, htaken, hshown⟩ := h
  exact ⟨s'', (returns_step hinner _ _ htaken).2, (returns_report _ _ hshown).1⟩

/-- The best state is the best of those that were reported. -/
theorem best_of_passes (hinner : m.InnerExplores) {states : List (State α)}
    {result : Reason α × State α} (h : m.loop.Passes s w states result w') (hs : m.Linked s) :
    (result.2.best, result.2.bestCost) =
      (states.map m.loop.entry).foldl Trace.better (s.best, s.bestCost) := by
  have hreport : ∀ {s s' : State α} {d : Decision} {w w1 : World α σ}, m.Linked s →
      m.report s w = .ok (d, s') w1 → m.Linked s' ∧
        (s'.best, s'.bestCost) = Trace.better (s.best, s.bestCost) (m.loop.entry s') := by
    intro s s' d w w1 hs hshown
    have hreviewed := (returns_report _ _ hshown).1
    refine ⟨hreviewed.linked hs, ?_⟩
    have hx : s'.x = s.x := hreviewed.shown.x
    have hsuccessful : s'.record.successful = s.record.successful := hreviewed.shown.successful
    rw [hreviewed.best, Trace.better]
    show _ = if (s'.record.successful && decide (s'.record.cost < s.bestCost)) = true
      then (s'.x, s'.record.cost) else _
    rw [hsuccessful, (hreviewed.linked hs).record, hreviewed.linear, hx]
  induction h with
  | halt shown _ => exact (hreport hs shown).2
  | stop shown taken =>
      obtain ⟨-, hbest⟩ := hreport hs shown
      rw [List.map_singleton, List.foldl_cons, List.foldl_nil, ← hbest]
      exact ((returns_step hinner _ _ taken).2.level).2
  | next shown taken _ ih =>
      obtain ⟨hs', hbest⟩ := hreport hs shown
      have hturn := (returns_step hinner _ _ taken).2
      rw [ih (hturn.linked hs'), List.map_cons, List.foldl_cons, ← hbest, hturn.best]

/-! ## Runs -/

/-- The states of a run after their reports. There are none if the initial
point has no usable evaluation. -/
inductive Visits (m : TrustRegion α σ) (strategy : Strategy α) (counts : EvaluationCounts)
    (x : Vec α) (w : World α σ) : List (State α) → MinimizerSummary α → World α σ → Prop
  | none {counts' : EvaluationCounts} {w' : World α σ}
      (missed : m.linearize counts x none (Run.tick w) = .ok (none, counts') w') :
      Visits m strategy counts x w [] ⟨.noInitialEvaluation, { counts := counts' }, x, 0⟩ w'
  | some {linear : Linearization α} {counts' : EvaluationCounts} {states : List (State α)}
      {reason : Reason α} {s : State α} {w1 w' : World α σ}
      (found : m.linearize counts x none (Run.tick w) = .ok (some linear, counts') w1)
      (passes : m.loop.Passes (m.initial strategy x linear counts' (w.clock w.ticks)) w1 states
        (reason, s) w') (length : states.length ≤ m.options.maxIterations + 1) :
      Visits m strategy counts x w states ⟨reason, s.history, s.best, linear.cost⟩ w'

omit [ScalarText α] in
theorem linked_initial {linear : Linearization α} {counts counts' : EvaluationCounts}
    (h : m.linearize counts x none w = .ok (some linear, counts') w') (strategy : Strategy α)
    (start : Nat) : m.Linked (m.initial strategy x linear counts' start) :=
  ⟨(returns_linearize _ _ h).found linear rfl, rfl⟩

theorem returns_visits {strategy : Strategy α} {counts : EvaluationCounts} :
    Returns (m.minimize strategy counts x) w fun result w' =>
      ∃ states, m.Visits strategy counts x w states result w' := by
  rw [minimize, returns_bind, Run.returns_now, returns_bind]
  rintro ⟨_ | linear, counts'⟩ w1 hlinear
  · exact returns_pure.mpr ⟨[], .none hlinear⟩
  · dsimp only
    rw [iterate_eq, returns_bind]
    refine (Loop.returns_iterate _).mono ?_
    rintro ⟨reason, s⟩ w2 ⟨states, hpasses, hlen⟩
    exact returns_pure.mpr ⟨states, .some hlinear hpasses hlen⟩

/-- What a run comes to that finds a cost at the initial point: the first
report is about this point, and the best of the reported states is
recommended. -/
structure Ran (m : TrustRegion α σ) (x : Vec α) (result : MinimizerSummary α) (trace : Trace α) :
    Prop where
  initial : m.evaluator.Finds x result.initialCost
  first : ∃ record rest, trace = (record, x) :: rest ∧ record.cost = result.initialCost
  steady : Trace.Steady (x, result.initialCost) trace
  best : result.best = (trace.foldl Trace.better (x, result.initialCost)).1

theorem Visits.minimized (hinner : m.InnerExplores) {strategy : Strategy α}
    {counts : EvaluationCounts} {states : List (State α)} {result : MinimizerSummary α}
    (h : m.Visits strategy counts x w states result w') :
    Minimized m.evaluator m.callbacks result (states.map m.loop.entry) w w' ∧
      (result.termination.writesBack = true → m.Ran x result (states.map m.loop.entry)) := by
  cases h with
  | none missed =>
      have hexplores := (Evaluator.Explores.tick w).trans (returns_linearize _ _ missed).explores
      exact ⟨⟨.done hexplores, rfl, nofun, nofun⟩, nofun⟩
  | @some linear counts' states reason s w1 w' found passes length =>
      have hlinear := returns_linearize _ _ found
      have hx := hlinear.found linear rfl
      have hlinked := linked_initial found strategy (w.clock w.ticks)
      have htold := (regular_loop hinner).told (x, linear.cost) passes hlinked nofun
      have hbest : (s.best, s.bestCost) = (states.map m.loop.entry).foldl Trace.better
          (x, linear.cost) := best_of_passes hinner passes hlinked
      have hfoundBest := Trace.best_of_forall (x, linear.cost) htold.finds_entry hx
      rw [← hbest] at hfoundBest
      have hexplores := (Evaluator.Explores.tick w).trans hlinear.explores
      exact ⟨htold.minimized hexplores rfl hfoundBest, fun _ => ⟨hx,
        (regular_loop hinner).exists_first passes, htold.steady, congrArg Prod.fst hbest⟩⟩

end TrustRegion

end LeastSquares
