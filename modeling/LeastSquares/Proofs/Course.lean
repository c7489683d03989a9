import LeastSquares.Proofs.Attempt
import LeastSquares.Proofs.Minimizer
import LeastSquares.Proofs.Reduction

/-!
# The course of a solve

An attempt is turned down before any value has changed, or finds that
nothing can change, or runs a minimizer and does with its result what the
way it ended allows. There is no error once the minimizer has run: the
result has the size of the state it started from, so that it can be written.

## Main definitions

* `SolveOptions.Created` — a solve has got as far as a reduced program.
* `SolveOptions.RanBy` — a run of the minimizer that was asked for.
* `SolveOptions.Assembled` — the minimizer for a reduced program.
* `Course` — what a solve has done that ran a minimizer.
* `SolveOptions.Attempted` — what an attempt comes to.

## Main results

* `Course.Of.moved` — which values a minimizer can change.
* `SolveOptions.ends_attempt` — what an attempt comes to.
* `returns_solve` — a solve is an attempt with its places noted again.
-/

namespace LeastSquares

variable {α σ : Type} [Scalar α]

namespace SolveSummary

/-- No way of ending, no error and no records were filled in yet. -/
structure Fresh (s : SolveSummary α) : Prop where
  termination : s.termination = .didNotRun
  error : s.error = none
  records : s.records = []

/-- Fixed cost, way of ending, error and records are as before. -/
structure Keeps (s s' : SolveSummary α) : Prop where
  fixedCost : s'.fixedCost = s.fixedCost
  termination : s'.termination = s.termination
  error : s'.error = s.error
  records : s'.records = s.records

theorem Fresh.keep {s s' : SolveSummary α} (h : s.Fresh) (hs : s.Keeps s') : s'.Fresh :=
  ⟨hs.termination.trans h.termination, hs.error.trans h.error, hs.records.trans h.records⟩

end SolveSummary

/-- With the run of a minimizer values of free blocks change, if accepted
states are written into the problem, and nothing else. -/
theorem Minimized.moved [ScalarText α] {e : Evaluator α σ} {pipeline : Pipeline α σ}
    {result : MinimizerSummary α} {trace : Trace α} {w w' : World α σ} {g : Program}
    (h : Minimized e pipeline result trace w w') (he : e.MadeOf w.problem g)
    (hn : g.blocks.Nodup) (hupdate : pipeline.update = none ∨ pipeline.update = some g) :
    w.problem.Moved g w'.problem := by
  rcases hupdate with hnone | hsome
  · exact h.reported.problem_eq hnone ▸ .refl g _
  · refine (h.reported.holds hsome hn fun entry hentry => ?_).1
    rw [he.numParameters, (h.found entry hentry).size]

namespace SolveOptions

open Attempt

variable {o : SolveOptions α} {s : SolveSummary α} {w : World α σ} {p : Problem α σ}
  {reduced : ReducedProgram α} {g : Program} {x : Vec α} {result : MinimizerSummary α}

/-! ## Preparation -/

theorem ends_checkRequest : Ends (o.checkRequest p g) s w fun _ s' w' => w' = w ∧ s.Keeps s' := by
  rw [checkRequest, ends_ofModel_bind]
  refine ⟨fun size _ => ?_, fun _ _ => ⟨rfl, rfl, rfl, rfl, rfl⟩⟩
  rw [ends_note_bind]
  split
  · rw [ends_bind, ends_throw]
    exact ⟨rfl, rfl, rfl, rfl, rfl⟩
  · rw [ends_ofExcept]
    exact ⟨rfl, rfl, rfl, rfl, rfl⟩

/-- The solve has got as far as a reduced program, which comes from the order
to start from. -/
def Created (o : SolveOptions α) (w v : World α σ) (reduced : ReducedProgram α) : Prop :=
  ∃ order, o.startingOrder w.problem (.ofProblem w.problem) = .ok order ∧
    ReducedProgram.create w.problem (.ofProblem w.problem) order o.linearSolver
      o.preconditioner w.tally = .ok (.ok reduced, v.problem) v.tally

theorem wellFormed_startingOrder (ho : ∀ order, o.eliminationOrder = some order → order.Reachable)
    {order : EliminationOrder} (h : o.startingOrder p g = .ok order) : order.WellFormed := by
  unfold startingOrder at h
  split at h
  · rename_i given hgiven
    obtain ⟨-, -, rfl⟩ := except_map_eq_ok.mp h
    exact (ho _ hgiven).wellFormed
  · cases h
    exact (EliminationOrder.reachable_ofList _).wellFormed

theorem Created.exists_removal {v : World α σ} (h : o.Created w v reduced)
    (ho : ∀ order, o.eliminationOrder = some order → order.Reachable) : ∃ removal : Removal α,
      removal.Of w.problem (.ofProblem w.problem) ∧
        reduced.Of w.problem v.problem removal := by
  obtain ⟨order, horder, hcreate⟩ := h
  exact (ReducedProgram.returns_create (wellFormed_startingOrder ho horder) _ _ hcreate).2 _ rfl

/-- The reduction has rearranged the problem and left its content alone. -/
theorem Created.content {v : World α σ} (h : o.Created w v reduced)
    (ho : ∀ order, o.eliminationOrder = some order → order.Reachable) :
    w.problem.SameContent v.problem := by
  obtain ⟨removal, -, hreduced⟩ := h.exists_removal ho
  exact hreduced.content

theorem Created.nodup {v : World α σ} (h : o.Created w v reduced)
    (ho : ∀ order, o.eliminationOrder = some order → order.Reachable) :
    reduced.program.blocks.Nodup := by
  obtain ⟨removal, -, hreduced⟩ := h.exists_removal ho
  exact hreduced.nodup

/-- Reducing leaves all values alone. -/
theorem ends_reduce (ho : ∀ order, o.eliminationOrder = some order → order.Reachable)
    (hs : s.Fresh) :
    Ends (o.reduce w.problem (.ofProblem w.problem)) s w fun r s' w' =>
      s'.Fresh ∧ w.problem.SameContent w'.problem ∧
      ∀ reduced q, r = .ok (reduced, q) → q = w'.problem ∧ o.Created w w' reduced ∧
        s'.fixedCost = reduced.fixedCost := by
  rw [reduce, ends_ofModel_bind]
  refine ⟨fun order horder => ?_, fun _ _ => ⟨hs, .refl _, nofun⟩⟩
  rw [ends_bind, ends_onProblem]
  rintro ⟨e | reduced, q⟩ t hcreate
  · have hwf := wellFormed_startingOrder ho horder
    exact ⟨hs, (ReducedProgram.returns_create hwf _ _ hcreate).1, nofun⟩
  · have hcreated : o.Created w { w with problem := q, tally := t } reduced :=
      ⟨order, horder, hcreate⟩
    have hcontent := hcreated.content ho
    show Ends _ _ _ _
    rw [ends_ofRun_bind, returns_get, ends_ofModel_bind]
    refine ⟨fun size _ => ?_, fun _ _ => ⟨hs, hcontent, nofun⟩⟩
    rw [ends_note_bind]
    refine ends_pure.mpr ⟨⟨hs.termination, hs.error, hs.records⟩, hcontent, ?_⟩
    rintro _ _ hr
    cases hr
    exact ⟨rfl, hcreated, rfl⟩

/-! ## The minimizer -/

theorem pipeline_update {callbacks : List (Callback α σ)} :
    (o.pipeline g callbacks).update = none ∨ (o.pipeline g callbacks).update = some g := by
  unfold pipeline
  split
  · exact .inr rfl
  · exact .inl rfl

/-- A run of the minimizer that the options ask for. -/
inductive RanBy (o : SolveOptions α) (e : Evaluator α σ) (x : Vec α)
    (result : MinimizerSummary α) (trace : Trace α) : Prop
  | trustRegion (m : TrustRegion α σ) (evaluator : m.evaluator = e) (ran : m.Ran x result trace)
  | lineSearch (m : LineSearch α σ) (evaluator : m.evaluator = e)
      (options : m.options = o.minimizer) (ran : m.Ran x result trace)

theorem ranBy_of_visits [ScalarText α] {m : Minimizer α σ} {callbacks : Pipeline α σ}
    {w w' : World α σ} {trace : Trace α} (h : m.Visits callbacks x w trace result w')
    (hoptions : m.options = o.minimizer) (hwrites : result.termination.writesBack = true) :
    o.RanBy m.evaluator x result trace := by
  cases h with
  | @trustRegion options e inner _ _ _ _ h =>
      have hinner := CoordinateDescent.innerExplores options e inner callbacks
      exact .trustRegion _ rfl ((h.minimized hinner).2 hwrites)
  | lineSearch h => exact .lineSearch _ rfl hoptions (h.minimized.2 hwrites)

/-- The minimizer for a reduced program. -/
structure Assembled [ScalarText α] (o : SolveOptions α) (p : Problem α σ)
    (reduced : ReducedProgram α) (m : Minimizer α σ) : Prop where
  evaluator : m.evaluator.MadeOf p reduced.program
  options : m.options = o.minimizer

theorem ends_prepareInner {e : Evaluator α σ} :
    Ends (o.prepareInner p reduced e) s w fun _ s' w' => w' = w ∧ s.Keeps s' := by
  unfold prepareInner
  split
  · rw [ends_ofExcept_bind]
    refine ⟨fun found _ => ?_, fun _ _ => ⟨rfl, rfl, rfl, rfl, rfl⟩⟩
    cases found with
    | none => exact ends_pure.mpr ⟨rfl, rfl, rfl, rfl, rfl⟩
    | some inner =>
        dsimp only
        rw [ends_note_bind]
        exact ends_pure.mpr ⟨rfl, rfl, rfl, rfl, rfl⟩
  · exact ends_pure.mpr ⟨rfl, rfl, rfl, rfl, rfl⟩

theorem ends_assemble [ScalarText α] : Ends (o.assemble p reduced) s w fun r s' w' =>
    w' = w ∧ s.Keeps s' ∧ ∀ minimize, r = .ok minimize →
      ∃ m : Minimizer α σ, o.Assembled p reduced m ∧ minimize = m.minimize := by
  have hfail : ∀ {e}, w = w ∧ s.Keeps s ∧ ∀ minimize, (.error e : Except (SolveError α) _) =
      .ok minimize → ∃ m : Minimizer α σ, o.Assembled p reduced m ∧ minimize = m.minimize :=
    ⟨rfl, ⟨rfl, rfl, rfl, rfl⟩, nofun⟩
  unfold assemble
  split
  · rw [ends_ofExcept_bind]
    refine ⟨fun solver _ => ?_, fun _ _ => hfail⟩
    rw [ends_ofModel_bind]
    refine ⟨fun e he => ?_, fun _ _ => hfail⟩
    rw [ends_bind]
    refine ends_prepareInner.mono ?_
    rintro (e' | inner) s' _ ⟨rfl, hs⟩
    · exact ⟨rfl, hs, nofun⟩
    · refine ends_pure.mpr ⟨rfl, hs, ?_⟩
      rintro _ hr
      cases hr
      exact ⟨.trustRegion o.minimizer e inner (.create solver o.minimizer),
        ⟨(Evaluator.create_eq_ok he).1, rfl⟩, rfl⟩
  · rw [ends_ofModel_bind]
    refine ⟨fun e he => ?_, fun _ _ => hfail⟩
    refine ends_pure.mpr ⟨rfl, ⟨rfl, rfl, rfl, rfl⟩, ?_⟩
    rintro _ hr
    cases hr
    exact ⟨.lineSearch o.minimizer e, ⟨(Evaluator.create_eq_ok he).1, rfl⟩, rfl⟩

theorem ends_openLog : Ends (o.openLog : Attempt α σ Unit) s w fun _ s' w' =>
    s' = s ∧ w'.problem = w.problem ∧ w'.tally = w.tally := by
  unfold openLog
  split
  · exact ends_pure.mpr ⟨rfl, rfl, rfl⟩
  · rw [ends_ofRun_bind, returns_get]
    split
    · exact ends_throw.mpr ⟨rfl, rfl, rfl⟩
    · rw [ends_ofRun, returns_modify]
      exact ⟨rfl, rfl, rfl⟩

/-- The problem takes over the recommended state, if it has the right size and
the way the run ended allows it. -/
theorem ends_writeBack (hn : g.blocks.Nodup)
    (hsize : result.termination.writesBack = true →
      g.numParameters w.problem = .ok result.best.size) :
    Ends (writeBack g result x) s w fun r s' w' => r = .ok () ∧ s' = s ∧ w'.tally = w.tally ∧
      (result.termination.writesBack = true →
        g.scatter result.best w.problem = .ok w'.problem) ∧
      (result.termination.writesBack = false → w'.problem = w.problem) := by
  unfold writeBack
  split
  · rename_i hwrites
    obtain ⟨q, hq, -⟩ := Program.scatter_spec hn (hsize hwrites)
    rw [ends_ofRun_bind, returns_get, MinimizerSummary.finalState, if_pos hwrites,
      ends_ofModel_bind]
    refine ⟨fun q' hq' => ?_, fun e he => absurd (hq.symm.trans he) nofun⟩
    rw [ends_ofRun, Run.returns_setProblem]
    exact ⟨rfl, rfl, rfl, fun _ => hq', fun hno => absurd (hwrites.symm.trans hno) nofun⟩
  · rename_i hno
    exact ends_pure.mpr ⟨rfl, rfl, rfl, fun hwrites => absurd hwrites hno, fun _ => rfl⟩

end SolveOptions

/-! ## Courses -/

/-- What a solve has done that ran a minimizer: the pieces it was run with,
the worlds before and after, the reports, and the result. -/
structure Course (α σ : Type) [Scalar α] where
  reduced : ReducedProgram α
  minimizer : Minimizer α σ
  start : Vec α
  before : World α σ
  after : World α σ
  trace : Trace α
  result : MinimizerSummary α

/-- The solve has taken this course, from one world to another, and its
summary tells it. -/
structure Course.Of [ScalarText α] (c : Course α σ) (o : SolveOptions α)
    (callbacks : List (Callback α σ)) (w : World α σ) (s : SolveSummary α) (w' : World α σ) :
    Prop where
  created : o.Created w c.before c.reduced
  assembled : o.Assembled c.before.problem c.reduced c.minimizer
  start : c.reduced.program.gather c.before.problem = .ok c.start
  visits : c.minimizer.Visits (o.pipeline c.reduced.program callbacks) c.start c.before c.trace
    c.result c.after
  written : c.result.termination.writesBack = true →
    c.reduced.program.scatter c.result.best c.after.problem = .ok w'.problem
  kept : c.result.termination.writesBack = false → w'.problem = c.after.problem
  tally : w'.tally = c.after.tally
  error : s.error = none
  termination : s.termination = c.result.termination
  records : s.records = c.trace.map Prod.fst
  costs : ∀ cost, c.result.finalCost? = some cost →
    s.initialCost = c.result.initialCost + c.reduced.fixedCost ∧
      s.finalCost = cost + c.reduced.fixedCost

namespace Course.Of

variable [ScalarText α] {o : SolveOptions α} {callbacks : List (Callback α σ)}
  {s : SolveSummary α} {w w' : World α σ} {c : Course α σ}

theorem minimized (h : c.Of o callbacks w s w') : Minimized c.minimizer.evaluator
    (o.pipeline c.reduced.program callbacks) c.result c.trace c.before c.after :=
  h.visits.minimized

theorem ran (h : c.Of o callbacks w s w') (hwrites : c.result.termination.writesBack = true) :
    o.RanBy c.minimizer.evaluator c.start c.result c.trace :=
  SolveOptions.ranBy_of_visits h.visits h.assembled.options hwrites

/-- A summary tells the same course at any time. -/
theorem timed (h : c.Of o callbacks w s w') (totalTime : Nat) :
    c.Of o callbacks w { s with totalTime } w' := { h with }

/-- States that are reported have the size of the program. -/
theorem size (h : c.Of o callbacks w s w') : ∀ entry ∈ c.trace,
    c.reduced.program.numParameters c.before.problem = .ok entry.2.size := by
  intro entry hentry
  rw [h.assembled.evaluator.numParameters, (h.minimized.found entry hentry).size]

/-- The problem holds the recommended state if it was written. -/
theorem holds (h : c.Of o callbacks w s w') (hn : c.reduced.program.blocks.Nodup)
    (hwrites : c.result.termination.writesBack = true) :
    c.reduced.program.Holds w'.problem c.result.best :=
  Program.holds_of_scatter hn (h.written hwrites)

/-- The run itself has changed values of blocks of the reduced program at
most. -/
theorem moved_after (h : c.Of o callbacks w s w') (hn : c.reduced.program.blocks.Nodup) :
    c.before.problem.Moved c.reduced.program c.after.problem :=
  h.minimized.moved h.assembled.evaluator hn SolveOptions.pipeline_update

/-- Of the problem that a minimizer started with, values of blocks of the
reduced program have changed at most. -/
theorem moved (h : c.Of o callbacks w s w') (hn : c.reduced.program.blocks.Nodup) :
    c.before.problem.Moved c.reduced.program w'.problem := by
  have hmoved := h.moved_after hn
  cases hwrites : c.result.termination.writesBack with
  | true => exact hmoved.trans (Problem.moved_of_scatter (h.written hwrites))
  | false => exact h.kept hwrites ▸ hmoved

end Course.Of

namespace SolveOptions

open Attempt

variable [ScalarText α] {o : SolveOptions α} {callbacks : List (Callback α σ)}
  {s : SolveSummary α} {w w1 : World α σ} {reduced : ReducedProgram α} {start : Nat}

/-- What an attempt comes to. -/
inductive Attempted (o : SolveOptions α) (callbacks : List (Callback α σ)) (w : World α σ) :
    Except (SolveError α) Unit → SolveSummary α → World α σ → Prop
  | rejected {e : SolveError α} {s : SolveSummary α} {w' : World α σ}
      (content : w.problem.SameContent w'.problem) (termination : s.termination = .didNotRun)
      (records : s.records = []) : Attempted o callbacks w (.error e) s w'
  | settled {reduced : ReducedProgram α} {s : SolveSummary α} {w' : World α σ}
      (created : o.Created w w' reduced) (empty : reduced.program.blocks = [])
      (initialCost : s.initialCost = reduced.fixedCost)
      (finalCost : s.finalCost = reduced.fixedCost) (error : s.error = none)
      (termination : s.termination = .functionTolerance) (records : s.records = []) :
      Attempted o callbacks w (.ok ()) s w'
  | minimized {c : Course α σ} {s : SolveSummary α} {w' : World α σ}
      (course : c.Of o callbacks w s w') : Attempted o callbacks w (.ok ()) s w'

theorem tell_error {result : MinimizerSummary α} : (tell s result).error = s.error := by
  unfold tell
  cases result.finalCost? <;> rfl

theorem tell_costs {result : MinimizerSummary α} {cost : α} (h : result.finalCost? = some cost) :
    (tell s result).initialCost = result.initialCost + s.fixedCost ∧
      (tell s result).finalCost = cost + s.fixedCost := by
  unfold tell
  rw [h]
  exact ⟨rfl, rfl⟩

/-- The minimizer changes values of free blocks at most, and its result can be
written. -/
theorem ends_minimizeReduced
    (ho : ∀ order, o.eliminationOrder = some order → order.Reachable)
    (hcreated : o.Created w w1 reduced) (hcost : s.fixedCost = reduced.fixedCost)
    (hs : s.Fresh) :
    Ends (o.minimizeReduced callbacks start w1.problem reduced) s w1
      (o.Attempted callbacks w) := by
  have hcontent := hcreated.content ho
  have hnodup := hcreated.nodup ho
  rw [minimizeReduced, ends_bind]
  refine ends_assemble.mono ?_
  rintro (e | minimize) s1 w' ⟨hw', hs1, hassembled⟩
  · exact .rejected (hw' ▸ hcontent) (hs.keep hs1).termination (hs.keep hs1).records
  obtain rfl := hw'.symm
  obtain ⟨m, hm, rfl⟩ := hassembled minimize rfl
  show Ends _ _ _ _
  rw [ends_ofModel_bind]
  refine ⟨fun x hgather => ?_, fun _ _ => .rejected hcontent (hs.keep hs1).termination
    (hs.keep hs1).records⟩
  rw [ends_ofRun_bind, Run.returns_since, ends_note_bind, ends_bind]
  refine ends_openLog.mono ?_
  rintro (e | _) s2 w2 ⟨rfl, hproblem, htally⟩
  · exact .rejected (hproblem ▸ hcontent) (hs.keep hs1).termination (hs.keep hs1).records
  have hproblem : w2.problem = w1.problem := hproblem
  have htally : w2.tally = w1.tally := htally
  show Ends _ _ _ _
  rw [ends_ofRun_bind, returns_get, ends_ofRun_bind, Run.returns_now, ends_ofRun_bind]
  refine m.returns_visits.mono ?_
  rintro result w3 ⟨trace, hvisits⟩
  have hmin := hvisits.minimized
  have he := hm.evaluator
  have hmoved : w2.problem.Moved reduced.program w3.problem :=
    hmin.moved (hproblem ▸ he) hnodup pipeline_update
  rw [ends_ofRun_bind, Run.returns_since, ends_note_bind, ends_bind]
  refine (ends_writeBack hnodup fun hwrites => ?_).mono ?_
  · obtain ⟨c, hc⟩ := hmin.best hwrites
    rw [hc.size, ← he.numParameters, ← hproblem]
    exact hmoved.numParameters
  rintro _ _ w4 ⟨rfl, rfl, htally', hwritten, hkept⟩
  show Ends _ _ _ _
  rw [ends_ofRun_bind, returns_get, ends_ofRun_bind, Run.returns_since, ends_note]
  have hcreated : o.Created w (Run.tick w2) reduced := by
    obtain ⟨order, horder, hrun⟩ := hcreated
    refine ⟨order, horder, ?_⟩
    show _ = EStateM.Result.ok (Except.ok reduced, w2.problem) w2.tally
    rw [hrun, hproblem, htally]
  refine .minimized (c := ⟨reduced, m, x, Run.tick w2, w3, trace, result⟩)
    ⟨hcreated, hproblem ▸ hm, hproblem ▸ hgather, hvisits, hwritten, hkept, htally',
      tell_error.trans (hs.keep hs1).error, rfl, hmin.records,
      fun cost hfinal => ?_⟩
  rw [← hs1.fixedCost.trans hcost]
  exact tell_costs hfinal

/-- An attempt is turned down, settled, or has run a minimizer. -/
theorem ends_attempt (ho : ∀ order, o.eliminationOrder = some order → order.Reachable)
    (hs : s.Fresh) : Ends (o.attempt callbacks start w.problem (.ofProblem w.problem)) s w
      (o.Attempted callbacks w) := by
  rw [attempt, ends_bind]
  refine ends_checkRequest.mono ?_
  rintro r s1 w1 ⟨hw1, hs1⟩
  obtain rfl := hw1.symm
  cases r with
  | error e => exact .rejected (.refl _) (hs.keep hs1).termination (hs.keep hs1).records
  | ok _ =>
      show Ends _ _ _ _
      rw [ends_bind]
      refine (ends_reduce ho (hs.keep hs1)).mono ?_
      rintro (e | ⟨reduced, q⟩) s2 w2 ⟨hs2, hcontent, hok⟩
      · exact .rejected hcontent hs2.termination hs2.records
      obtain ⟨rfl, hcreated, hcost⟩ := hok reduced q rfl
      show Ends (if _ then _ else _) _ _ _
      split
      · rename_i hempty
        rw [nothingToDo, ends_ofRun_bind, Run.returns_since, ends_note]
        exact .settled hcreated (List.isEmpty_iff.mp hempty) rfl rfl
          hs2.error rfl hs2.records
      · exact ends_minimizeReduced ho hcreated hcost hs2

end SolveOptions

/-- In the end the places of all blocks are noted, and the summary is that of
the attempt, with its error if there is one. -/
theorem returns_solve [ScalarText α] {o : SolveOptions α} {callbacks : List (Callback α σ)}
    {w : World α σ} (ho : ∀ order, o.eliminationOrder = some order → order.Reachable) :
    Returns (solve o callbacks) w fun s w' => ∃ r s1 w1,
      o.Attempted callbacks (Run.tick w) r s1 w1 ∧
      w'.problem = ((Program.ofProblem w.problem).setOffsets w1.problem).2 ∧
      w'.tally = w1.tally ∧ (r = .ok () → s = { s1 with totalTime := s.totalTime }) ∧
      ∀ e, r = .error e → s = { s1.reject e.message with totalTime := s.totalTime } := by
  rw [solve, returns_bind, Run.returns_now, returns_bind, returns_get, returns_bind]
  have hfresh : (SolveSummary.ofOptions o).Fresh := ⟨rfl, rfl, rfl⟩
  have hends : Attempt.Ends (o.attempt callbacks (w.clock w.ticks) (Run.tick w).problem
      (.ofProblem (Run.tick w).problem)) (SolveSummary.ofOptions o) (Run.tick w)
      (o.Attempted callbacks (Run.tick w)) := SolveOptions.ends_attempt ho hfresh
  refine Returns.mono hends ?_
  rintro ⟨r, s1⟩ w1 hattempt
  rw [returns_bind, returns_modify, returns_bind, Run.returns_since, returns_pure]
  refine ⟨r, s1, w1, hattempt, rfl, rfl, ?_, ?_⟩
  · rintro rfl
    rfl
  · rintro e rfl
    rfl

end LeastSquares
