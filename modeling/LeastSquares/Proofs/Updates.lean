import LeastSquares.Proofs.Abreast
import LeastSquares.Proofs.SolveFrame

/-!
# Updating the problem during a run

A solve can be asked to write every accepted state into the problem while it
runs. The run does not notice: the evaluator has taken what it needs out of
the problem, every state that is reported has the size of the program, so
that it can always be written, and in the end the recommended state is
written over whatever was there before.

## Main definitions

* `Program.Overwritten` — a problem, and the same with a state written over it.
* `Attempt.Abreast` — attempts that come to the same end.
* `SolveOptions.updating` — options with updates switched on or off.

## Main results

* `Pipeline.abreast_run` — a pipeline without updates and with them.
* `solve_update` — a solve without updates and with them.
-/

namespace LeastSquares

variable {α σ β γ : Type} [Scalar α]

/-! ## Problems that were written over -/

namespace Program

/-- The second problem is the first one, whose states have the given size, or
what became of it when a state was written over it. -/
structure Overwritten (g : Program) (n : Nat) (p q : Problem α σ) : Prop where
  size : g.numParameters p = .ok n
  written : q = p ∨ ∃ y, g.scatter y p = .ok q

variable {g : Program} {n : Nat} {p q r : Problem α σ} {x : Vec α}

/-- A state of the right size makes the same of both. -/
theorem Overwritten.exists_scatter (h : g.Overwritten n p q) (hn : g.blocks.Nodup)
    (hx : x.size = n) : ∃ r, g.scatter x p = .ok r ∧ g.scatter x q = .ok r := by
  obtain ⟨r, hr, -⟩ := scatter_spec hn (h.size.trans (congrArg _ hx.symm))
  refine ⟨r, hr, ?_⟩
  obtain rfl | ⟨y, hy⟩ := h.written
  · exact hr
  · rw [scatter_scatter hn hy, hr]

end Program

section Stages

variable [ScalarText α] {g : Program} {n : Nat} {x : Vec α}

/-- An update never ends a minimization, and leaves the problem overwritten. -/
theorem Stage.exists_updateState (record : IterationRecord α) (hn : g.blocks.Nodup)
    (hx : x.size = n) {w : World α σ} {q : Problem α σ} (h : g.Overwritten n w.problem q) :
    ∃ r, g.Overwritten n w.problem r ∧
      Stage.run (.updateState g) record x { w with problem := q } =
        .ok .continue { w with problem := r } := by
  cases hs : record.successful with
  | false => exact ⟨q, h, by simp [Stage.run, hs]⟩
  | true =>
      obtain ⟨r, hr, hr'⟩ := h.exists_scatter hn hx
      exact ⟨r, ⟨h.size, .inr ⟨x, hr⟩⟩, by simp [Stage.run, hs, hr']⟩

/-- A report of a state of the right size makes the same of the record whether
accepted states are written into the problem or not. -/
theorem Pipeline.abreast_run {c : Pipeline α σ} (hc : c.update = none)
    (record : IterationRecord α) (hn : g.blocks.Nodup) (hx : x.size = n) :
    Run.Abreast (g.Overwritten n) (c.run record x)
      (Pipeline.run { c with update := some g } record x) fun _ => g.Overwritten n := by
  rw [Pipeline.run, Pipeline.run, stages_eq, stages_eq, hc, Option.toList_none, List.map_nil,
    List.nil_append, Option.toList_some, List.map_singleton, List.singleton_append, Stage.runAll]
  intro w q h
  obtain ⟨r, hr, hrun⟩ := Stage.exists_updateState record hn hx h
  rw [eStateM_bind_apply, hrun]
  exact Stage.blind_runAll (passive_stages c) _ w r hr

end Stages

/-! ## Attempts side by side -/

namespace Attempt

/-- From one summary and worlds that differ in the problem at most, with
related problems, both attempts come to the same end. -/
def Abreast (R : Problem α σ → Problem α σ → Prop) (s : SolveSummary α) (a b : Attempt α σ β)
    (S : Except (SolveError α) β → SolveSummary α → Problem α σ → Problem α σ → Prop) : Prop :=
  Run.Abreast R (a.run.run s) (b.run.run s) fun r => S r.1 r.2

variable {R : Problem α σ → Problem α σ → Prop} {s : SolveSummary α} {a b : Attempt α σ β}
  {S : Except (SolveError α) β → SolveSummary α → Problem α σ → Problem α σ → Prop}
  {T : Except (SolveError α) γ → SolveSummary α → Problem α σ → Problem α σ → Prop}
  {f g : β → Attempt α σ γ} {p : Problem α σ}

theorem abreast_pure {v : β} (h : ∀ p q, R p q → S (.ok v) s p q) :
    Abreast R s (pure v) (pure v) S := Run.Abreast.pure h

theorem abreast_of_and {P : Prop} (h : P → Abreast R s a b S) :
    Abreast (fun p q => P ∧ R p q) s a b S := Run.Abreast.of_and h

theorem abreast_bind (h : Abreast R s a b S)
    (hok : ∀ v s', Abreast (S (.ok v) s') s' (f v) (g v) T)
    (herror : ∀ e s' p q, S (.error e) s' p q → T (.error e) s' p q) :
    Abreast R s (a >>= f) (b >>= g) T := by
  unfold Abreast
  rw [ExceptT.run_bind, ExceptT.run_bind, StateT.run_bind, StateT.run_bind]
  refine Run.Abreast.bind h ?_
  rintro ⟨e | v, s'⟩
  · exact .pure (herror e s')
  · exact hok v s'

theorem abreast_note {h : SolveSummary α → SolveSummary α}
    {S : Except (SolveError α) Unit → SolveSummary α → Problem α σ → Problem α σ → Prop}
    (hS : ∀ p q, R p q → S (.ok ()) (h s) p q) : Abreast R s (note h) (note h) S :=
  Run.Abreast.pure hS

theorem abreast_ofRun {x y : Run α σ β} (h : Run.Abreast R x y fun v => S (.ok v) s) :
    Abreast R s (ofRun x) (ofRun y) S := by
  refine Run.Abreast.bind (S := fun r p q => r.2 = s ∧ S (.ok r.1) s p q) ?_ ?_
  · exact h.bind fun v => .pure fun p q hS => ⟨rfl, hS⟩
  · rintro ⟨v, s'⟩
    refine .pure fun p q hS => ?_
    obtain ⟨rfl, hS⟩ := hS
    exact hS

theorem abreast_ofRun_bind {x y : Run α σ β} {S : β → Problem α σ → Problem α σ → Prop}
    (h : Run.Abreast R x y S) (hf : ∀ v, Abreast (S v) s (f v) (g v) T) :
    Abreast R s (ofRun x >>= f) (ofRun y >>= g) T := by
  refine abreast_bind (S := fun r s' p q => s' = s ∧ ∃ v, r = .ok v ∧ S v p q)
    (abreast_ofRun (h.mono fun v p q hS => ⟨rfl, v, rfl, hS⟩)) ?_ ?_
  · refine fun v s' => abreast_of_and fun hs => ?_
    subst hs
    refine Run.Abreast.of_imp (fun p q hS => ?_) (hf v)
    obtain ⟨_, hv, hS⟩ := hS
    cases hv
    exact hS
  · rintro e s' p q ⟨-, v, hv, -⟩
    cases hv

theorem abreast_note_bind {h : SolveSummary α → SolveSummary α} {f g : Unit → Attempt α σ γ}
    (hf : Abreast R (h s) (f ()) (g ()) T) : Abreast R s (note h >>= f) (note h >>= g) T := hf

theorem abreast_ofModel_bind {x : Except ModelError β} (hf : ∀ v, Abreast R s (f v) (g v) T)
    (herror : ∀ e p q, R p q → T (.error e) s p q) :
    Abreast R s (ofModel x >>= f) (ofModel x >>= g) T := by
  cases x with
  | error e => exact Run.Abreast.pure (herror (.model e))
  | ok v => exact hf v

/-- A look at the world, of which only the problem can be different. -/
theorem abreast_get_bind {f g : World α σ → Attempt α σ γ}
    (hf : ∀ w q, R w.problem q →
      Abreast (fun p' q' => p' = w.problem ∧ q' = q) s (f w) (g { w with problem := q }) T) :
    Abreast R s (ofRun get >>= f) (ofRun get >>= g) T :=
  fun w q hR => hf w q hR w q ⟨rfl, rfl⟩

/-- An attempt at both sides, from equal worlds. -/
theorem abreast_same (hS : ∀ r s' p, S r s' p p) : Abreast (Run.Both p) s a a S :=
  Run.Abreast.same fun r p => hS r.1 r.2 p

theorem abreast_same_bind (herror : ∀ e s' p, T (.error e) s' p p)
    (hok : ∀ w v s' w', w.problem = p → a.run.run s w = .ok (.ok v, s') w' →
      Abreast (Run.Both w'.problem) s' (f v) (g v) T) :
    Abreast (Run.Both p) s (a >>= f) (a >>= g) T := by
  unfold Abreast
  rw [ExceptT.run_bind, ExceptT.run_bind, StateT.run_bind, StateT.run_bind]
  refine Run.Abreast.same_bind ?_
  rintro w ⟨e | v, s'⟩ w' hw hrun
  · refine .pure ?_
    rintro p q ⟨rfl, rfl⟩
    exact herror e s' _
  · exact hok w v s' w' hw hrun

end Attempt

namespace SolveOptions

open Attempt

/-- The options with updates of the problem switched on or off. -/
def updating (o : SolveOptions α) (update : Bool) : SolveOptions α :=
  { o with updateEveryIteration := update }

/-- The problems are the same if the way the solve ended allowed the result to be
written. -/
def SameIfWritten (s : SolveSummary α) (p q : Problem α σ) : Prop :=
  s.termination.writesBack = true → q = p

variable {o : SolveOptions α} {s : SolveSummary α} {g : Program} {n : Nat} {x : Vec α}
  {p : Problem α σ} {reduced : ReducedProgram α} {result : MinimizerSummary α}
  {callbacks : List (Callback α σ)} {start : Nat}

/-- The recommended state makes the same of both problems. -/
theorem abreast_writeBack (hn : g.blocks.Nodup)
    (hsize : result.termination.writesBack = true → result.best.size = n) :
    Abreast (g.Overwritten n) s (writeBack g result x : Attempt α σ Unit) (writeBack g result x)
      fun r s' p q => r = .ok () ∧ s' = s ∧ (result.termination.writesBack = true → q = p) := by
  unfold writeBack
  by_cases hwrites : result.termination.writesBack = true
  · rw [if_pos hwrites]
    refine abreast_get_bind fun w q h => ?_
    obtain ⟨r, hr, hr'⟩ := h.exists_scatter hn (hsize hwrites)
    rw [MinimizerSummary.finalState, if_pos hwrites, hr]
    dsimp only
    rw [hr']
    show Abreast _ s (ofRun (Run.setProblem r)) (ofRun (Run.setProblem r)) _
    exact abreast_ofRun fun w q _ => Run.Matches.ok (w := { w with problem := r }) (q := r)
      ⟨rfl, rfl, fun _ => rfl⟩
  · rw [if_neg hwrites]
    exact abreast_pure fun p q _ => ⟨rfl, rfl, fun hyes => absurd hyes hwrites⟩

/-- An attempt that ends in an error with equal problems is no exception. -/
theorem sameIfWritten_refl (_ : SolveError α) (s : SolveSummary α) (p : Problem α σ) :
    SameIfWritten s p p := fun _ => rfl

variable [ScalarText α]

/-- The run of the minimizer. What it recommends has the size of the program if it
is to be written. -/
theorem Assembled.abreast_minimize {m : Minimizer α σ} (hm : o.Assembled p reduced m)
    (hn : reduced.program.blocks.Nodup) (x : Vec α) :
    Run.Abreast (Run.Both p)
      (m.minimize ((o.updating false).pipeline reduced.program callbacks) x)
      (m.minimize ((o.updating true).pipeline reduced.program callbacks) x) fun result p q =>
        (result.termination.writesBack = true → result.best.size = m.evaluator.numParameters) ∧
          reduced.program.Overwritten m.evaluator.numParameters p q := by
  have hreport : ∀ record (y : Vec α), y.size = m.evaluator.numParameters →
      Run.Abreast (reduced.program.Overwritten m.evaluator.numParameters)
        (((o.updating false).pipeline reduced.program callbacks).run record y)
        (((o.updating true).pipeline reduced.program callbacks).run record y) fun _ =>
          reduced.program.Overwritten m.evaluator.numParameters :=
    fun record y hy => Pipeline.abreast_run rfl record hn hy
  refine Run.Abreast.and_returns (.of_imp ?_ (m.abreast_minimize hreport x)) fun w => ?_
  · rintro p q ⟨rfl, rfl⟩
    exact ⟨hm.evaluator.numParameters, .inl rfl⟩
  · refine m.returns_visits.mono ?_
    rintro result w' ⟨trace, hvisits⟩ hwrites
    obtain ⟨c, hc⟩ := hvisits.minimized.best hwrites
    exact hc.size

theorem abreast_minimizeReduced (hn : reduced.program.blocks.Nodup) :
    Abreast (Run.Both p) s ((o.updating false).minimizeReduced callbacks start p reduced)
      ((o.updating true).minimizeReduced callbacks start p reduced)
      fun _ => SameIfWritten := by
  unfold minimizeReduced
  refine abreast_same_bind (a := o.assemble p reduced) sameIfWritten_refl
    fun w minimize s1 w1 hw hrun => ?_
  obtain ⟨rfl, -, hassembled⟩ := ends_assemble _ _ hrun
  obtain ⟨m, hm, rfl⟩ := hassembled minimize rfl
  rw [hw]
  refine abreast_ofModel_bind (fun x => ?_) fun e p q h => ?_
  · refine abreast_ofRun_bind (Run.Blind.since start _) fun time => abreast_note_bind ?_
    refine abreast_same_bind (a := o.openLog) sameIfWritten_refl fun w _ s2 w2 hw hrun => ?_
    obtain ⟨-, hproblem, -⟩ := ends_openLog _ _ hrun
    rw [show w2.problem = p from hproblem.trans hw]
    refine abreast_get_bind ?_
    rintro before q ⟨rfl, rfl⟩
    refine abreast_ofRun_bind (Run.Blind.now _) fun minimizerStart => ?_
    -- Up to here the worlds are equal, and from here to the write their problems differ.
    refine abreast_ofRun_bind (hm.abreast_minimize hn x) fun result => ?_
    refine abreast_of_and fun hbest => ?_
    refine abreast_ofRun_bind (Run.Blind.since minimizerStart _) fun time => abreast_note_bind ?_
    refine abreast_bind (abreast_writeBack hn hbest) (fun _ s3 => ?_) ?_
    · refine abreast_of_and fun _ => abreast_of_and fun hs3 => ?_
      subst hs3
      refine abreast_get_bind fun after q hsame => ?_
      refine abreast_ofRun_bind (Run.Blind.since _ _) fun time => abreast_note ?_
      rintro p q ⟨rfl, rfl⟩
      exact hsame
    · rintro e s3 p q ⟨he, -⟩
      cases he
  · obtain ⟨rfl, rfl⟩ := h
    exact sameIfWritten_refl e s1 _

theorem abreast_attempt (ho : ∀ order, o.eliminationOrder = some order → order.Reachable)
    (hs : s.Fresh) :
    Abreast (Run.Both p) s ((o.updating false).attempt callbacks start p (.ofProblem p))
      ((o.updating true).attempt callbacks start p (.ofProblem p)) fun _ => SameIfWritten := by
  unfold attempt
  refine abreast_same_bind (a := o.checkRequest p (.ofProblem p)) sameIfWritten_refl
    fun w _ s1 w1 hw hrun => ?_
  obtain ⟨rfl, hs1⟩ := ends_checkRequest _ _ hrun
  rw [hw]
  refine abreast_same_bind (a := o.reduce p (.ofProblem p)) sameIfWritten_refl
    fun w r s2 w2 hw hrun => ?_
  subst hw
  obtain ⟨reduced, q⟩ := r
  obtain ⟨-, -, hok⟩ := ends_reduce ho (hs.keep hs1) _ _ hrun
  obtain ⟨rfl, hcreated, -⟩ := hok reduced q rfl
  dsimp only
  split
  · exact abreast_same fun _ _ _ _ => rfl
  · exact abreast_minimizeReduced (hcreated.nodup ho)

end SolveOptions

/-! ## Solves -/

open SolveOptions (SameIfWritten)

theorem abreast_solve [ScalarText α] {o : SolveOptions α} {callbacks : List (Callback α σ)}
    {p : Problem α σ} (ho : ∀ order, o.eliminationOrder = some order → order.Reachable) :
    Run.Abreast (Run.Both p) (solve (o.updating false) callbacks)
      (solve (o.updating true) callbacks) SameIfWritten := by
  unfold solve
  refine (Run.Blind.now).before fun start => ?_
  refine Run.Abreast.same_bind fun w v w' hw hget => ?_
  cases hget
  have hfresh : (SolveSummary.ofOptions o).Fresh := ⟨rfl, rfl, rfl⟩
  refine Run.Abreast.bind (SolveOptions.abreast_attempt ho hfresh) ?_
  rintro ⟨r, s⟩
  refine Run.Abreast.bind (S := fun _ => SameIfWritten s) (fun w q h => ?_) fun _ => ?_
  · refine Run.Matches.ok (w := { w with problem := _ }) (q := _) fun hwrites => ?_
    rw [h hwrites]
  · refine (Run.Blind.since start).before fun totalTime => .pure fun p q h hwrites => h ?_
    cases r with
    | ok _ => exact hwrites
    | error e => exact hwrites

/-- With updates at every iteration a solve comes to the same end as without them,
in a world that differs in the problem at most: to the same summary, or the same
fault. If the way it ended lets the problem take over the result, the problem is
the same too. -/
theorem solve_update [ScalarText α] {o : SolveOptions α} {callbacks : List (Callback α σ)}
    {w : World α σ} (ho : ∀ order, o.eliminationOrder = some order → order.Reachable) :
    (∀ s w', solve (o.updating false) callbacks w = .ok s w' →
      ∃ q, solve (o.updating true) callbacks w = .ok s { w' with problem := q } ∧
        (s.termination.writesBack = true → q = w'.problem)) ∧
    ∀ f w', solve (o.updating false) callbacks w = .error f w' →
      ∃ q, solve (o.updating true) callbacks w = .error f { w' with problem := q } := by
  have hends : Run.Matches SameIfWritten (solve (o.updating false) callbacks w)
      (solve (o.updating true) callbacks w) := abreast_solve ho w w.problem ⟨rfl, rfl⟩
  generalize solve (o.updating false) callbacks w = r at hends ⊢
  generalize solve (o.updating true) callbacks w = r' at hends ⊢
  constructor
  · rintro s w' rfl
    cases hends with
    | ok h => exact ⟨_, rfl, h⟩
  · rintro f w' rfl
    cases hends with
    | error => exact ⟨_, rfl⟩

/-- A line search of two moves comes to the same end in both ways. -/
theorem solve_update_anchored : ∃ s w', s.termination = .noConvergence ∧ s.records.length = 3 ∧
    solve (Gallery.twoMoves.updating false) [] (Gallery.anchoredWorld Float) = .ok s w' ∧
    solve (Gallery.twoMoves.updating true) [] (Gallery.anchoredWorld Float) = .ok s w' := by
  obtain ⟨s, w', hsolve, htest⟩ : ∃ s w', solve (Gallery.twoMoves.updating false) []
      (Gallery.anchoredWorld Float) = .ok s w' ∧
      (s.termination == .noConvergence && s.records.length == 3) = true := by
    refine exists_of_test (fun (s : SolveSummary Float) _ =>
      s.termination == .noConvergence && s.records.length == 3) ?_
    decide +kernel
  obtain ⟨hstop, hlength⟩ := Bool.and_eq_true_iff.mp htest
  have hstop : s.termination = .noConvergence := eq_of_beq hstop
  obtain ⟨q, hupdated, hproblem⟩ := (solve_update (fun _ horder => by cases horder)).1 s w' hsolve
  obtain rfl := hproblem (hstop ▸ rfl)
  exact ⟨s, w', hstop, eq_of_beq hlength, hsolve, hupdated⟩

end LeastSquares
