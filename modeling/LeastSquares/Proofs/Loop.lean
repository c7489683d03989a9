import LeastSquares.Proofs.Measured

/-!
# Minimizers as loops

Both minimizers go through the same loop. A state is reported, the run may
end there, and otherwise a step ends the run or leads to the next state. What
a run does is therefore told by the states after their reports: each is
reached from the one before by a step and a report, and the result is the
last of them or what the last step made of it.

What both loops keep is proved once. The records are numbered, each report
shows a state with the cost that was found there, and the history counts
what its records say.

## Main definitions

* `Loop` — reports, stops and steps over a type of states.
* `Loop.Passes` — the passes of a run, with the states after their reports.
* `Loop.Proceeds`, `Loop.Ends` — a state after which the run goes on, and how
  it ends at one.
* `Loop.Runs` — what a run comes to.
* `Loop.Regular` — what reports and steps of a loop keep.
* `History.Accurate` — a history whose counts are those of its records.

## Main results

* `Loop.returns_iterate_runs`, `Loop.returns_iterate` — a run is made of passes,
  one more than the limit of iterations at most.
* `Loop.succeeds_iterate` — runs that cannot break.
* `Loop.Passes.invariant`, `Loop.Passes.isChain` — what holds at every state,
  and from each state to the next.
* `Loop.Regular.told` — what the passes of a regular loop tell.
-/

namespace LeastSquares

variable {α σ τ : Type} [Scalar α]

/-! ## Traces -/

/-- Reports without an accepted step repeat state and cost of the report
before. -/
def Trace.Steady : Vec α × α → Trace α → Prop
  | _, [] => True
  | previous, entry :: rest =>
      (entry.1.successful = false → entry.2 = previous.1 ∧ entry.1.cost = previous.2) ∧
        Trace.Steady (entry.2, entry.1.cost) rest

/-! ## Histories -/

namespace History

variable {past h : History α} {r : IterationRecord α}

/-- Records are numbered from zero, and the counts are those of the
records. -/
structure Accurate (h : History α) : Prop where
  numbered : h.records.map IterationRecord.iteration = List.range h.newestFirst.length
  successful : h.successfulSteps =
    h.newestFirst.countP fun r => r.successful && decide (0 < r.iteration)
  unsuccessful : h.unsuccessfulSteps = h.newestFirst.countP fun r => !r.successful
  jacobian : h.counts.jacobian = h.newestFirst.countP fun r => r.successful

/-- The same records and steps, with a number of further Jacobians. -/
structure Level (n : Nat) (past h : History α) : Prop where
  records : h.newestFirst = past.newestFirst
  successful : h.successfulSteps = past.successfulSteps
  unsuccessful : h.unsuccessfulSteps = past.unsuccessfulSteps
  jacobian : h.counts.jacobian = past.counts.jacobian + n

theorem Accurate.level (hpast : past.Accurate) (hl : Level 0 past h) : h.Accurate where
  numbered := by
    rw [History.records, hl.records]
    exact hpast.numbered
  successful := by rw [hl.successful, hl.records, hpast.successful]
  unsuccessful := by rw [hl.unsuccessful, hl.records, hpast.unsuccessful]
  jacobian := by rw [hl.jacobian, hl.records, hpast.jacobian, Nat.add_zero]

/-- The history is accurate once the next record is in it. A Jacobian for the
record has been counted if its step was accepted. -/
def Due (h : History α) (r : IterationRecord α) : Prop :=
  ∃ past : History α, past.Accurate ∧ r.iteration = past.newestFirst.length ∧
    Level (if r.successful then 1 else 0) past h

theorem due_first {counts : EvaluationCounts} (hr : r.iteration = 0)
    (hsuccessful : r.successful = true) (hcounts : counts.jacobian = 1) :
    Due ({ counts } : History α) r := by
  refine ⟨{ counts := {} }, ⟨rfl, rfl, rfl, rfl⟩, hr, ?_⟩
  rw [if_pos hsuccessful]
  exact ⟨rfl, rfl, rfl, hcounts⟩

theorem Due.add (hdue : h.Due r) : (h.add r).Accurate := by
  obtain ⟨past, haccurate, hiteration, hlevel⟩ := hdue
  refine ⟨?_, ?_, ?_, ?_⟩
  · have hnumbered : past.newestFirst.reverse.map IterationRecord.iteration =
        List.range past.newestFirst.length := haccurate.numbered
    show (r :: h.newestFirst).reverse.map IterationRecord.iteration =
      List.range (h.newestFirst.length + 1)
    rw [hlevel.records, List.range_succ, List.reverse_cons, List.map_append, hnumbered,
      List.map_singleton, hiteration]
  · show (if r.successful && 0 < r.iteration then h.successfulSteps + 1
      else h.successfulSteps) = List.countP _ (r :: h.newestFirst)
    rw [List.countP_cons, hlevel.successful, hlevel.records, haccurate.successful]
    split <;> rfl
  · show (if r.successful then h.unsuccessfulSteps else h.unsuccessfulSteps + 1) =
      List.countP _ (r :: h.newestFirst)
    rw [List.countP_cons, hlevel.unsuccessful, hlevel.records, haccurate.unsuccessful]
    cases r.successful <;> rfl
  · show h.counts.jacobian = List.countP _ (r :: h.newestFirst)
    rw [List.countP_cons, hlevel.jacobian, hlevel.records, haccurate.jacobian]

end History

/-! ## Loops -/

/-- A minimizer as a loop over states. -/
structure Loop (α σ τ : Type) [Scalar α] where
  /-- Completes the record of a state and shows it. -/
  report : τ → Run α σ (Decision × τ)
  /-- Why the run ends after a report, given the time that has passed. -/
  stop? : τ → Nat → Option (Reason α)
  step : τ → Run α σ (Progress (Reason α × τ) τ)
  /-- The reading of the clock at the start of the run. -/
  start : τ → Nat
  x : τ → Vec α
  record : τ → IterationRecord α
  history : τ → History α

namespace Loop

/-- The iterations that are left, from the report on. -/
def iterate (l : Loop α σ τ) : Nat → τ → Run α σ (Reason α × τ)
  | 0, s => do
      let (decision, s) ← l.report s
      match decision.reason? with
      | some reason => pure (reason, s)
      | none => pure (.iterationLimit (l.record s).iteration, s)
  | left + 1, s => do
      let (decision, s) ← l.report s
      match decision.reason? with
      | some reason => pure (reason, s)
      | none =>
          let elapsed ← Run.since (l.start s)
          match l.stop? s elapsed with
          | some reason => pure (reason, s)
          | none =>
              match ← l.step s with
              | .stop result => pure result
              | .next s => l.iterate left s

/-- Passes through the loop, with the states after their reports. A pass ends
the run after the report, or in the step after it, or is followed by further
passes. -/
inductive Passes (l : Loop α σ τ) :
    τ → World α σ → List τ → Reason α × τ → World α σ → Prop
  | halt {s s' : τ} {w w1 w' : World α σ} {d : Decision} {reason : Reason α}
      (shown : l.report s w = .ok (d, s') w1) (rest : w' = w1 ∨ w' = Run.tick w1) :
      Passes l s w [s'] (reason, s') w'
  | stop {s s' : τ} {w w1 w' : World α σ} {d : Decision} {result : Reason α × τ}
      (shown : l.report s w = .ok (d, s') w1)
      (taken : l.step s' (Run.tick w1) = .ok (.stop result) w') : Passes l s w [s'] result w'
  | next {s s' s'' : τ} {w w1 w2 w' : World α σ} {d : Decision} {states : List τ}
      {result : Reason α × τ} (shown : l.report s w = .ok (d, s') w1)
      (taken : l.step s' (Run.tick w1) = .ok (.next s'') w2)
      (rest : Passes l s'' w2 states result w') : Passes l s w (s' :: states) result w'

variable {l : Loop α σ τ} {s s' : τ} {w w' : World α σ} {states : List τ}
  {result : Reason α × τ}

/-- Nothing ends the run after the report of a state, at some time. -/
def Proceeds (l : Loop α σ τ) (s : τ) : Prop := ∃ elapsed, l.stop? s elapsed = none

/-- How a run ends after the report of a state: the callbacks want it to, it is
at the limit of iterations, the state has come far enough, or the step from
there ends it. -/
inductive Ends (l : Loop α σ τ) (s : τ) : Reason α × τ → Prop
  | decided {d : Decision} {reason : Reason α} (h : d.reason? = some reason) : Ends l s (reason, s)
  | limit : Ends l s (.iterationLimit (l.record s).iteration, s)
  | stopped {elapsed : Nat} {reason : Reason α} (h : l.stop? s elapsed = some reason) :
      Ends l s (reason, s)
  | broken {result : Reason α × τ} {w w' : World α σ} (proceeds : l.Proceeds s)
      (taken : l.step s w = .ok (.stop result) w') : Ends l s result

/-- What a run comes to: it is made of passes, one more than the limit of
iterations at most, goes on after each state but the last one, and ends there. -/
def Runs (l : Loop α σ τ) (left : Nat) (s : τ) (w : World α σ) (result : Reason α × τ)
    (w' : World α σ) : Prop :=
  ∃ states last, l.Passes s w states result w' ∧ states.length ≤ left + 1 ∧
    (states.IsChain fun a _ => l.Proceeds a) ∧ states.getLast? = some last ∧ l.Ends last result

theorem runs_one {left : Nat} (hpasses : l.Passes s w [s'] result w') (hends : l.Ends s' result) :
    l.Runs left s w result w' :=
  ⟨[s'], s', hpasses, Nat.succ_le_succ (Nat.zero_le left), .singleton _, rfl, hends⟩

theorem Runs.next {left : Nat} {s'' : τ} {w1 w2 : World α σ} {d : Decision}
    (h : l.Runs left s'' w2 result w') (hgo : l.Proceeds s')
    (hshown : l.report s w = .ok (d, s') w1)
    (htaken : l.step s' (Run.tick w1) = .ok (.next s'') w2) :
    l.Runs (left + 1) s w result w' := by
  obtain ⟨states, last, hrest, hlen, hchain, hlast, hends⟩ := h
  refine ⟨s' :: states, last, .next hshown htaken hrest, Nat.succ_le_succ hlen, ?_⟩
  cases states with
  | nil => cases hlast
  | cons b states =>
      refine ⟨List.isChain_cons_cons.mpr ⟨hgo, hchain⟩, ?_, hends⟩
      rwa [List.getLast?_cons_cons]

theorem returns_iterate_runs (left : Nat) : Returns (l.iterate left s) w (l.Runs left s w) := by
  induction left generalizing s w with
  | zero =>
      rw [iterate, returns_bind]
      rintro ⟨d, s'⟩ w1 hshown
      dsimp only
      split
      · rename_i hreason
        exact returns_pure.mpr (runs_one (.halt hshown (.inl rfl)) (.decided hreason))
      · exact returns_pure.mpr (runs_one (.halt hshown (.inl rfl)) .limit)
  | succ left ih =>
      rw [iterate, returns_bind]
      rintro ⟨d, s'⟩ w1 hshown
      dsimp only
      split
      · rename_i hreason
        exact returns_pure.mpr (runs_one (.halt hshown (.inl rfl)) (.decided hreason))
      · rw [returns_bind, Run.returns_since]
        split
        · rename_i hreason
          exact returns_pure.mpr (runs_one (.halt hshown (.inr rfl)) (.stopped hreason))
        · rename_i hgo
          rw [returns_bind]
          intro r w2 htaken
          cases r with
          | stop result =>
              exact returns_pure.mpr (runs_one (.stop hshown htaken) (.broken ⟨_, hgo⟩ htaken))
          | next s'' => exact ih.mono fun _ _ hruns => hruns.next ⟨_, hgo⟩ hshown htaken

theorem returns_iterate (left : Nat) : Returns (l.iterate left s) w fun result w' =>
    ∃ states, l.Passes s w states result w' ∧ states.length ≤ left + 1 :=
  (returns_iterate_runs left).mono fun _ _ ⟨states, _, hpasses, hlen, _⟩ =>
    ⟨states, hpasses, hlen⟩

/-- A loop comes to an end if no report and no step can break, in all states
that they lead to. -/
theorem succeeds_iterate {I : τ → Prop} (left : Nat)
    (hreport : ∀ s w, I s → Succeeds (l.report s) w fun r _ => I r.2)
    (hstep : ∀ s w, I s → Succeeds (l.step s) w fun r _ => ∀ s', r = .next s' → I s')
    (hs : I s) : Succeeds (l.iterate left s) w fun _ _ => True := by
  induction left generalizing s w with
  | zero =>
      rw [iterate, succeeds_bind]
      refine (hreport s w hs).mono ?_
      rintro ⟨d, s'⟩ w1 -
      dsimp only
      split <;> exact succeeds_pure.mpr trivial
  | succ left ih =>
      rw [iterate, succeeds_bind]
      refine (hreport s w hs).mono ?_
      rintro ⟨d, s'⟩ w1 hs'
      dsimp only
      split
      · exact succeeds_pure.mpr trivial
      · rw [succeeds_bind]
        refine Run.succeeds_since ?_
        split
        · exact succeeds_pure.mpr trivial
        · rw [succeeds_bind]
          refine (hstep s' _ hs').mono ?_
          rintro (result | s'') w2 hnext
          · exact succeeds_pure.mpr trivial
          · exact ih (hnext s'' rfl)

/-- One state after its report leads to the next: a step was taken from it,
and the state it led to was reported. -/
def Leads (l : Loop α σ τ) (a b : τ) : Prop :=
  ∃ s w w1 d w2, l.step a w = .ok (.next s) w1 ∧ l.report s w1 = .ok (d, b) w2

theorem Passes.exists_cons (h : l.Passes s w states result w') :
    ∃ s' rest d w1, states = s' :: rest ∧ l.report s w = .ok (d, s') w1 := by
  cases h with
  | halt shown _ => exact ⟨_, [], _, _, rfl, shown⟩
  | stop shown _ => exact ⟨_, [], _, _, rfl, shown⟩
  | next shown _ _ => exact ⟨_, _, _, _, rfl, shown⟩

theorem Passes.isChain (h : l.Passes s w states result w') : states.IsChain l.Leads := by
  induction h with
  | halt _ _ => exact .singleton _
  | stop _ _ => exact .singleton _
  | next _ taken rest ih =>
      obtain ⟨s', more, d, w1, rfl, shown⟩ := rest.exists_cons
      exact List.isChain_cons_cons.mpr ⟨⟨_, _, _, d, w1, taken, shown⟩, ih⟩

/-- What holds at the start, and is kept by reports and steps, holds at every
state. -/
theorem Passes.invariant {I : τ → Prop} (h : l.Passes s w states result w')
    (hreport : ∀ s w, I s → Returns (l.report s) w fun r _ => I r.2)
    (hstep : ∀ s w, I s → Returns (l.step s) w fun r _ => ∀ s', r = .next s' → I s')
    (hs : I s) : ∀ s' ∈ states, I s' := by
  induction h with
  | halt shown _ =>
      intro s' hs'
      obtain rfl := List.mem_singleton.mp hs'
      exact hreport _ _ hs _ _ shown
  | stop shown _ =>
      intro s' hs'
      obtain rfl := List.mem_singleton.mp hs'
      exact hreport _ _ hs _ _ shown
  | next shown taken _ ih =>
      have hshown := hreport _ _ hs _ _ shown
      intro s' hs'
      rcases List.mem_cons.mp hs' with rfl | hs'
      · exact hshown
      · exact ih (hstep _ _ hshown _ _ taken _ rfl) s' hs'

/-! ## Regular loops -/

/-- What callbacks see of a state. -/
def entry (l : Loop α σ τ) (s : τ) : IterationRecord α × Vec α := (l.record s, l.x s)

/-- The state after its report: the record is complete and in the history. -/
structure Shown (l : Loop α σ τ) (s s' : τ) : Prop where
  x : l.x s' = l.x s
  iteration : (l.record s').iteration = (l.record s).iteration
  cost : (l.record s').cost = (l.record s).cost
  successful : (l.record s').successful = (l.record s).successful
  history : l.history s' = (l.history s).add (l.record s')

/-- The state after a step with which the run goes on: it is the same, unless
the step was accepted. -/
structure Follows (l : Loop α σ τ) (s s' : τ) : Prop where
  iteration : (l.record s').iteration = (l.record s).iteration + 1
  steady : (l.record s').successful = false →
    l.x s' = l.x s ∧ (l.record s').cost = (l.record s).cost
  level : History.Level (if (l.record s').successful then 1 else 0) (l.history s) (l.history s')

theorem Shown.due (h : l.Shown s s') (hdue : (l.history s).Due (l.record s)) :
    (l.history s').Accurate := by
  rw [h.history]
  obtain ⟨past, haccurate, hiteration, hlevel⟩ := hdue
  refine History.Due.add ⟨past, haccurate, h.iteration.trans hiteration, ?_⟩
  rwa [h.successful]

/-- The next record is due after a step from an accurate state. -/
theorem Follows.due {s'' : τ} (h : l.Follows s' s'') (hshown : l.Shown s s')
    (hdue : (l.history s).Due (l.record s)) : (l.history s'').Due (l.record s'') := by
  refine ⟨l.history s', hshown.due hdue, ?_, h.level⟩
  obtain ⟨past, -, hiteration, hlevel⟩ := hdue
  rw [h.iteration, hshown.iteration, hiteration, hshown.history, ← hlevel.records]
  rfl

/-- Reports show the states to the stages, and otherwise there are only
evaluations. The invariant says that the cost on record was found at the
state. -/
structure Regular (l : Loop α σ τ) (e : Evaluator α σ) (pipeline : Pipeline α σ)
    (I : τ → Prop) [ScalarText α] : Prop where
  found : ∀ s, I s → e.Finds (l.x s) (l.record s).cost
  report : ∀ s w, Returns (l.report s) w fun r w' => l.Shown s r.2 ∧ (I s → I r.2) ∧
    ∃ w1, e.Explores w w1 ∧ pipeline.run (l.record r.2) (l.x r.2) w1 = .ok r.1 w'
  step : ∀ s w, I s → Returns (l.step s) w fun r w' => e.Explores w w' ∧
    (∀ reason s', r = .stop (reason, s') → History.Level 0 (l.history s) (l.history s')) ∧
    ∀ s', r = .next s' → I s' ∧ l.Follows s s'

/-- What the passes of a run tell: the records are those that were reported,
with the states at which their costs were found. -/
structure Told [ScalarText α] (l : Loop α σ τ) (e : Evaluator α σ) (pipeline : Pipeline α σ)
    (previous : Vec α × α) (s : τ) (states : List τ) (result : Reason α × τ)
    (w w' : World α σ) : Prop where
  reports : e.Reports pipeline (states.map l.entry) w w'
  records : (l.history result.2).newestFirst =
    (states.map l.record).reverse ++ (l.history s).newestFirst
  found : ∀ s' ∈ states, e.Finds (l.x s') (l.record s').cost
  steady : Trace.Steady previous (states.map l.entry)
  accurate : (l.history s).Due (l.record s) → (l.history result.2).Accurate

section Regular

variable [ScalarText α] {e : Evaluator α σ} {pipeline : Pipeline α σ} {I : τ → Prop}
  {previous : Vec α × α}

/-- What the report of a state tells about it. -/
theorem Regular.first (hl : l.Regular e pipeline I) {d : Decision} {w1 : World α σ}
    (shown : l.report s w = .ok (d, s') w1) (hs : I s)
    (hprevious : (l.record s).successful = false →
      l.x s = previous.1 ∧ (l.record s).cost = previous.2) :
    l.Shown s s' ∧ I s' ∧
      ((l.record s').successful = false →
        l.x s' = previous.1 ∧ (l.record s').cost = previous.2) ∧
      ∃ w0, e.Explores w w0 ∧ pipeline.run (l.record s') (l.x s') w0 = .ok d w1 := by
  obtain ⟨hshown, hI, hrun⟩ := hl.report _ _ _ _ shown
  refine ⟨hshown, hI hs, fun hno => ?_, hrun⟩
  have hsame := hprevious (hshown.successful.symm.trans hno)
  exact ⟨hshown.x.trans hsame.1, hshown.cost.trans hsame.2⟩

/-- The last pass of a run. -/
theorem Regular.last (hl : l.Regular e pipeline I) {d : Decision} {w1 : World α σ}
    (shown : l.report s w = .ok (d, s') w1) (hs : I s)
    (hprevious : (l.record s).successful = false →
      l.x s = previous.1 ∧ (l.record s).cost = previous.2)
    (hexplores : e.Explores w1 w')
    (hlevel : History.Level 0 (l.history s') (l.history result.2)) :
    l.Told e pipeline previous s [s'] result w w' := by
  obtain ⟨hshown, hs', hsame, w0, hw0, hrun⟩ := hl.first shown hs hprevious
  refine ⟨.report hw0 hrun (.done hexplores), ?_, ?_, ⟨hsame, trivial⟩,
    fun hdue => (hshown.due hdue).level hlevel⟩
  · rw [hlevel.records, hshown.history]
    rfl
  · intro a ha
    obtain rfl := List.mem_singleton.mp ha
    exact hl.found _ hs'

/-- The passes of a regular loop. -/
theorem Regular.told (hl : l.Regular e pipeline I) (previous : Vec α × α)
    (h : l.Passes s w states result w') (hs : I s) (hprevious : (l.record s).successful = false →
      l.x s = previous.1 ∧ (l.record s).cost = previous.2) :
    l.Told e pipeline previous s states result w w' := by
  induction h generalizing previous with
  | halt shown rest =>
      refine hl.last shown hs hprevious ?_ ⟨rfl, rfl, rfl, rfl⟩
      rcases rest with rfl | rfl
      · exact .rest
      · exact .tick _
  | stop shown taken =>
      obtain ⟨-, hs', -⟩ := hl.first shown hs hprevious
      obtain ⟨hexplores, hstop, -⟩ := hl.step _ _ hs' _ _ taken
      exact hl.last shown hs hprevious ((Evaluator.Explores.tick _).trans hexplores)
        (hstop _ _ rfl)
  | @next s s' s'' w w1 w2 w' d states result shown taken rest ih =>
      obtain ⟨hshown, hs', hsame, w0, hw0, hrun⟩ := hl.first shown hs hprevious
      obtain ⟨hexplores, -, hnext⟩ := hl.step _ _ hs' _ _ taken
      obtain ⟨hs'', hfollows⟩ := hnext _ rfl
      have hrest := ih (l.x s', (l.record s').cost) hs'' hfollows.steady
      refine ⟨.report hw0 hrun (hrest.reports.explore ((Evaluator.Explores.tick _).trans hexplores)),
        ?_, ?_, ⟨hsame, hrest.steady⟩, fun hdue => hrest.accurate (hfollows.due hshown hdue)⟩
      · rw [hrest.records, hfollows.level.records, hshown.history]
        simp [History.add]
      · intro a ha
        rcases List.mem_cons.mp ha with rfl | ha
        · exact hl.found _ hs'
        · exact hrest.found a ha

/-- The first report is about the state that the passes start from. -/
theorem Regular.exists_first (hl : l.Regular e pipeline I) (h : l.Passes s w states result w') :
    ∃ record rest, states.map l.entry = (record, l.x s) :: rest ∧
      record.cost = (l.record s).cost := by
  obtain ⟨s', rest, d, w1, rfl, shown⟩ := h.exists_cons
  have hshown := (hl.report _ _ _ _ shown).1
  refine ⟨l.record s', rest.map l.entry, ?_, hshown.cost⟩
  rw [List.map_cons, entry, hshown.x]

theorem Told.finds_entry (h : l.Told e pipeline previous s states result w w') :
    ∀ entry ∈ states.map l.entry, e.Finds entry.2 entry.1.cost := by
  intro entry hentry
  obtain ⟨s', hs', rfl⟩ := List.mem_map.mp hentry
  exact h.found s' hs'

theorem Told.records_eq (h : l.Told e pipeline previous s states result w w')
    (hs : (l.history s).newestFirst = []) :
    (l.history result.2).records = (states.map l.entry).map Prod.fst := by
  rw [History.records, h.records, hs, List.append_nil, List.reverse_reverse, List.map_map]
  rfl

/-- A run of a minimizer that starts its loop with no records. -/
theorem Told.minimized (h : l.Told e pipeline previous s states result w w') {w0 : World α σ}
    {best : Vec α} {initialCost c : α} (hbefore : e.Explores w0 w)
    (hs : (l.history s).newestFirst = []) (hbest : e.Finds best c) :
    Minimized e pipeline ⟨result.1, l.history result.2, best, initialCost⟩ (states.map l.entry)
      w0 w' :=
  ⟨h.reports.explore hbefore, h.records_eq hs, h.finds_entry, fun _ => ⟨c, hbest⟩⟩

end Regular

end Loop

end LeastSquares
