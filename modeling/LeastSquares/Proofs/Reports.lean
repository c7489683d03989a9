import LeastSquares.Minimizer.Summary
import LeastSquares.Proofs.Effects
import LeastSquares.Proofs.Program

/-!
# Reports of a minimization

Between two reports a minimization only looks at the clock and evaluates, so
the problem changes when a report is shown and at no other time. A report of
an accepted step puts the state into the problem, if accepted states are to
be written; then the problem holds the state of the last such report.

## Main definitions

* `World.Quiet` — a stretch in which only the clock and the users' state move.
* `Reported` — a stretch of a minimization with its reports.
* `Problem.Moved` — only values of one program's blocks have changed.

## Main results

* `Reported.problem_eq` — without updates the problem stays as it is.
* `Reported.holds` — with updates it holds the state of the last accepted
  step.
-/

namespace LeastSquares

variable {α σ : Type} [Scalar α]

/-! ## Quiet stretches -/

namespace World

/-- Only the clock and the users' state have moved. -/
def Quiet (w w' : World α σ) : Prop := w' = { w with tally := w'.tally, ticks := w'.ticks }

variable {w w' w'' : World α σ}

theorem Quiet.refl (w : World α σ) : w.Quiet w := rfl

theorem Quiet.trans (h : w.Quiet w') (h' : w'.Quiet w'') : w.Quiet w'' := by
  unfold Quiet at *
  rw [h', h]

theorem Quiet.problem (h : w.Quiet w') : w'.problem = w.problem := by
  rw [h]

theorem quiet_tick (w : World α σ) : w.Quiet (Run.tick w) := rfl

end World

/-! ## Moved problems -/

namespace Problem

variable {p q r : Problem α σ} {g : Program} {x : Vec α}

/-- Only values of blocks of the program have changed. -/
structure Moved (g : Program) (p q : Problem α σ) : Prop where
  shape : p.SameShape q
  outside : ∀ id, id ∉ g.blocks → q.block? id = p.block? id

theorem Moved.refl (g : Program) (p : Problem α σ) : Moved g p p := ⟨.refl p, fun _ _ => rfl⟩

theorem Moved.trans (h : Moved g p q) (h' : Moved g q r) : Moved g p r :=
  ⟨h.shape.trans h'.shape, fun id hid => (h'.outside id hid).trans (h.outside id hid)⟩

theorem Moved.values_eq (h : Moved g p q) {id : BlockId} (hid : id ∉ g.blocks) :
    q.values id = p.values id := by
  rw [values, values, block, block, h.outside id hid]

theorem Moved.numParameters (h : Moved g p q) : g.numParameters q = g.numParameters p :=
  Program.numParameters_eq h.shape

theorem moved_of_scatter (h : g.scatter x p = .ok q) : Moved g p q := by
  obtain ⟨-, rfl⟩ := Program.scatter_eq_ok h
  exact ⟨Program.sameShape_scatterFrom, fun _ hid => Program.block?_scatterFrom_of_not_mem hid⟩

end Problem

/-! ## Stages -/

section Stages

variable [ScalarText α] {w w' : World α σ} {record : IterationRecord α} {x : Vec α}
  {pipeline : Pipeline α σ} {d : Decision} {g : Program}

/-- The stage does not write into the problem. -/
def Stage.Passive : Stage α σ → Prop
  | .updateState _ => False
  | _ => True

theorem Stage.Passive.returns_run {stage : Stage α σ} (h : stage.Passive) :
    Returns (stage.run record x) w fun _ w' => w'.problem = w.problem := by
  cases stage with
  | updateState g => cases h
  | showProgress kind => exact returns_pure.mpr rfl
  | writeLog kind =>
      intro d w' hd
      cases hd
      rfl
  | user callback =>
      intro d w' hd
      cases hd
      rfl

theorem Stage.returns_runAll {stages : List (Stage α σ)} (h : ∀ stage ∈ stages, stage.Passive) :
    Returns (Stage.runAll record x stages) w fun _ w' => w'.problem = w.problem := by
  induction stages generalizing w with
  | nil => exact returns_pure.mpr rfl
  | cons stage stages ih =>
      rw [Stage.runAll, returns_bind]
      refine (h stage (by simp)).returns_run.mono fun d w1 hw1 => ?_
      split
      · refine (ih fun s hs => h s (List.mem_cons_of_mem stage hs)).mono fun _ w2 hw2 => ?_
        rw [hw2, hw1]
      · exact returns_pure.mpr hw1

theorem Stage.returns_updateState (h : ∃ q, g.scatter x w.problem = .ok q) :
    Returns (Stage.run (.updateState g : Stage α σ) record x) w fun d w' => d = .continue ∧
      (record.successful = true → g.scatter x w.problem = .ok w'.problem) ∧
      (record.successful = false → w'.problem = w.problem) := by
  obtain ⟨q, hq⟩ := h
  intro d w' hd
  simp only [Stage.run, hq] at hd
  split at hd
  · rename_i hs
    cases hd
    exact ⟨rfl, fun _ => hq, fun hno => by rw [hs] at hno; cases hno⟩
  · rename_i hs
    cases hd
    exact ⟨rfl, fun hyes => absurd hyes hs, fun _ => rfl⟩

omit [ScalarText α] in
theorem Pipeline.passive_stages (p : Pipeline α σ) :
    ∀ stage ∈ p.progress.toList.map Stage.showProgress ++ p.log.toList.map Stage.writeLog ++
      p.user.map Stage.user, stage.Passive := by
  intro stage hstage
  simp only [List.mem_append, List.mem_map] at hstage
  rcases hstage with (⟨_, -, rfl⟩ | ⟨_, -, rfl⟩) | ⟨_, -, rfl⟩ <;> exact trivial

omit [ScalarText α] in
theorem Pipeline.stages_eq (p : Pipeline α σ) : p.stages = p.update.toList.map Stage.updateState ++
    (p.progress.toList.map Stage.showProgress ++ p.log.toList.map Stage.writeLog ++
      p.user.map Stage.user) := by
  simp only [Pipeline.stages, List.append_assoc]

/-- Without updates a report leaves the problem alone. -/
theorem Pipeline.problem_of_run_none (hupdate : pipeline.update = none)
    (h : pipeline.run record x w = .ok d w') : w'.problem = w.problem := by
  rw [Pipeline.run, stages_eq, hupdate] at h
  exact Stage.returns_runAll (passive_stages pipeline) d w' h

/-- With updates the report of an accepted step puts the state into the
problem, and every other report leaves the problem alone. -/
theorem Pipeline.problem_of_run_some (hupdate : pipeline.update = some g)
    (hscatter : ∃ q, g.scatter x w.problem = .ok q) (h : pipeline.run record x w = .ok d w') :
    (record.successful = true → g.scatter x w.problem = .ok w'.problem) ∧
      (record.successful = false → w'.problem = w.problem) := by
  rw [Pipeline.run, stages_eq, hupdate, Option.toList_some, List.map_singleton,
    List.singleton_append, Stage.runAll] at h
  suffices hreturns : Returns (Stage.runAll record x (.updateState g :: _)) w fun _ w' =>
      (record.successful = true → g.scatter x w.problem = .ok w'.problem) ∧
        (record.successful = false → w'.problem = w.problem) from hreturns d w' h
  rw [Stage.runAll, returns_bind]
  refine (Stage.returns_updateState hscatter).mono ?_
  rintro _ w1 ⟨rfl, hw1⟩
  refine (Stage.returns_runAll (passive_stages pipeline)).mono fun _ w2 hw2 => ?_
  rwa [hw2]

end Stages

/-! ## Stretches with reports -/

/-- What callbacks see: the records of a run, each with the state it belongs
to. -/
abbrev Trace (α : Type) [Scalar α] := List (IterationRecord α × Vec α)

/-- The state of the last accepted step. -/
def Trace.lastAccepted? (trace : Trace α) : Option (Vec α) :=
  ((trace.filter fun entry => entry.1.successful).getLast?).map Prod.snd

theorem Trace.lastAccepted?_cons (entry : IterationRecord α × Vec α) (trace : Trace α) :
    Trace.lastAccepted? (entry :: trace) =
      (Trace.lastAccepted? trace).or (if entry.1.successful then some entry.2 else none) := by
  unfold Trace.lastAccepted?
  rw [List.filter_cons]
  split
  · rw [List.getLast?_cons]
    cases (trace.filter fun entry => entry.1.successful).getLast? <;> rfl
  · cases (trace.filter fun entry => entry.1.successful).getLast? <;> rfl

/-- A stretch of a minimization in which these reports are shown to the
stages, and that is quiet otherwise. -/
inductive Reported [ScalarText α] (pipeline : Pipeline α σ) :
    Trace α → World α σ → World α σ → Prop
  | done {w w' : World α σ} (h : w.Quiet w') : Reported pipeline [] w w'
  | report {record : IterationRecord α} {x : Vec α} {trace : Trace α}
      {w w1 w2 w' : World α σ} {d : Decision} (before : w.Quiet w1)
      (shown : pipeline.run record x w1 = .ok d w2) (after : Reported pipeline trace w2 w') :
      Reported pipeline ((record, x) :: trace) w w'

namespace Reported

variable [ScalarText α] {pipeline : Pipeline α σ} {trace : Trace α} {w w' : World α σ}
  {g : Program}

theorem problem_eq (hupdate : pipeline.update = none) (h : Reported pipeline trace w w') :
    w'.problem = w.problem := by
  induction h with
  | done h => exact h.problem
  | report before shown _ ih =>
      rw [ih, Pipeline.problem_of_run_none hupdate shown, before.problem]

/-- With updates the problem holds the state of the last accepted step. -/
theorem holds (hupdate : pipeline.update = some g) (hn : g.blocks.Nodup)
    (h : Reported pipeline trace w w')
    (hsize : ∀ entry ∈ trace, g.numParameters w.problem = .ok entry.2.size) :
    w.problem.Moved g w'.problem ∧
      (trace.lastAccepted? = none → w'.problem = w.problem) ∧
      ∀ x, trace.lastAccepted? = some x → g.Holds w'.problem x := by
  induction h with
  | done h =>
      rw [h.problem]
      exact ⟨.refl g _, fun _ => rfl, nofun⟩
  | report before shown _ ih =>
      rename_i record x trace w w1 w2 w' d _
      rw [before.problem.symm] at hsize ⊢
      obtain ⟨q, hq, -, hholds, -⟩ := Program.scatter_spec hn (hsize (record, x) (by simp))
      obtain ⟨hyes, hno⟩ := Pipeline.problem_of_run_some hupdate ⟨q, hq⟩ shown
      have hmoved : w1.problem.Moved g w2.problem := by
        cases hs : record.successful with
        | true => exact Problem.moved_of_scatter (hyes hs)
        | false => exact hno hs ▸ .refl g _
      obtain ⟨hmoved', hnone, hsome⟩ := ih fun entry hentry => by
        rw [hmoved.numParameters]
        exact hsize entry (List.mem_cons_of_mem _ hentry)
      refine ⟨hmoved.trans hmoved', ?_⟩
      rw [Trace.lastAccepted?_cons]
      cases hlast : trace.lastAccepted? with
      | some y => exact ⟨nofun, fun x hx => hsome x (hlast.trans hx)⟩
      | none =>
          rw [hnone hlast, Option.none_or]
          cases hs : record.successful with
          | true =>
              have hw2 := hyes hs
              rw [hq] at hw2
              refine ⟨nofun, fun y hy => ?_⟩
              cases hw2
              cases hy
              exact hholds
          | false => exact ⟨fun _ => hno hs, nofun⟩

end Reported

end LeastSquares
