import LeastSquares.Proofs.Minimizer

/-!
# Runs side by side

Two computations run abreast if they come to the same end whenever their
worlds differ in the problem at most: to the same value or the same fault, in
worlds that again differ in the problem at most. What is known of the two
problems may change on the way. A computation is blind if it runs abreast of
itself whatever is known of the problems, and leaves them as they are.

Everything that a minimizer does between reports is blind. So what the
problem holds during a run makes no difference to the run, and two pipelines
that run abreast make runs that do.

## Main definitions

* `Run.Abreast` — computations that come to the same end.
* `Run.Blind` — computations that have nothing to do with the problem.

## Main results

* `Run.Abreast.bind` — computations one after the other.
* `Loop.Regular.abreast_iterate` — a loop with one report or another.
* `CoordinateDescent.blind_sweep` — inner iterations are blind.
* `Minimizer.abreast_minimize` — a run with one pipeline or another.
-/

namespace LeastSquares

variable {α σ β γ : Type} [Scalar α]

namespace Run

/-! ## Two computations -/

/-- The same value, or the same fault, in worlds that differ in the problem at
most. The problems after a value are related. -/
inductive Matches (S : β → Problem α σ → Problem α σ → Prop) :
    EStateM.Result Fault (World α σ) β → EStateM.Result Fault (World α σ) β → Prop
  | ok {b : β} {w : World α σ} {q : Problem α σ} (h : S b w.problem q) :
      Matches S (.ok b w) (.ok b { w with problem := q })
  | error {f : Fault} {w : World α σ} {q : Problem α σ} :
      Matches S (.error f w) (.error f { w with problem := q })

/-- From worlds that differ in the problem at most, with related problems, both
computations come to the same end. -/
def Abreast (R : Problem α σ → Problem α σ → Prop) (x y : Run α σ β)
    (S : β → Problem α σ → Problem α σ → Prop) : Prop :=
  ∀ w q, R w.problem q → Matches S (x w) (y { w with problem := q })

/-- Both problems are a given one. -/
def Both (p0 p q : Problem α σ) : Prop := p = p0 ∧ q = p0

namespace Abreast

variable {R : Problem α σ → Problem α σ → Prop} {S S' : β → Problem α σ → Problem α σ → Prop}
  {T : γ → Problem α σ → Problem α σ → Prop} {x y : Run α σ β} {f g : β → Run α σ γ} {b : β}

theorem pure (h : ∀ p q, R p q → S b p q) : Abreast R (pure b) (pure b) S :=
  fun w q hR => .ok (h w.problem q hR)

theorem throw (e : Fault) : Abreast R (throw e : Run α σ β) (throw e) S := fun _ _ _ => .error

theorem bind (h : Abreast R x y S) (hf : ∀ b, Abreast (S b) (f b) (g b) T) :
    Abreast R (x >>= f) (y >>= g) T := by
  intro w q hR
  have hends := h w q hR
  rw [eStateM_bind_apply, eStateM_bind_apply]
  generalize x w = r at hends ⊢
  generalize y { w with problem := q } = r' at hends ⊢
  cases hends with
  | ok hS => exact hf _ _ _ hS
  | error => exact .error

theorem mono (h : Abreast R x y S) (hS : ∀ b p q, S b p q → S' b p q) : Abreast R x y S' := by
  intro w q hR
  have hends := h w q hR
  generalize x w = r at hends ⊢
  generalize y { w with problem := q } = r' at hends ⊢
  cases hends with
  | ok h => exact .ok (hS _ _ _ h)
  | error => exact .error

theorem of_imp {R' : Problem α σ → Problem α σ → Prop} (hR : ∀ p q, R' p q → R p q)
    (h : Abreast R x y S) : Abreast R' x y S := fun w q h' => h w q (hR _ _ h')

/-- What one of the computations says of its value. -/
theorem and_returns {P : β → Prop} (h : Abreast R x y S)
    (hP : ∀ w, Returns x w fun b _ => P b) : Abreast R x y fun b p q => P b ∧ S b p q := by
  intro w q hR
  have hends := h w q hR
  have hvalue := hP w
  unfold Returns at hvalue
  generalize x w = r at hends hvalue ⊢
  generalize y { w with problem := q } = r' at hends ⊢
  cases hends with
  | ok h => exact .ok ⟨hvalue _ _ rfl, h⟩
  | error => exact .error

/-- One computation at both sides, from equal worlds. -/
theorem same {p : Problem α σ} (h : ∀ b p, S b p p) : Abreast (Both p) x x S := by
  rintro w q ⟨rfl, rfl⟩
  show Matches S (x w) (x w)
  cases x w with
  | ok b w' => exact Matches.ok (q := w'.problem) (h b w'.problem)
  | error e w' => exact Matches.error (q := w'.problem)

theorem same_bind {p : Problem α σ} (hf : ∀ w b w', w.problem = p → x w = .ok b w' →
    Abreast (Both w'.problem) (f b) (g b) T) : Abreast (Both p) (x >>= f) (x >>= g) T := by
  rintro w q ⟨rfl, rfl⟩
  show Matches T ((x >>= f) w) ((x >>= g) w)
  rw [eStateM_bind_apply, eStateM_bind_apply]
  cases hx : x w with
  | ok b w' => exact hf w b w' rfl hx w' w'.problem ⟨rfl, rfl⟩
  | error e w' => exact Matches.error (q := w'.problem)

theorem of_and {P : Prop} (h : P → Abreast R x y S) : Abreast (fun p q => P ∧ R p q) x y S :=
  fun w q hR => h hR.1 w q hR.2

end Abreast

/-! ## Blind computations -/

/-- The computation has nothing to do with the problem: it runs abreast of
itself, and problems are related after it as they were before. -/
def Blind (x : Run α σ β) : Prop := ∀ R, Abreast R x x fun _ => R

namespace Blind

variable {x : Run α σ β} {f : β → Run α σ γ}

theorem pure (b : β) : Blind (pure b : Run α σ β) := fun _ => .pure fun _ _ h => h

theorem throw (e : Fault) : Blind (throw e : Run α σ β) := fun _ => .throw e

theorem bind (hx : Blind x) (hf : ∀ b, Blind (f b)) : Blind (x >>= f) :=
  fun R => (hx R).bind fun b => hf b R

/-- Two computations after a blind one. -/
theorem before {R : Problem α σ → Problem α σ → Prop}
    {T : γ → Problem α σ → Problem α σ → Prop} {g : β → Run α σ γ} (hx : Blind x)
    (hf : ∀ b, Abreast R (f b) (g b) T) : Abreast R (x >>= f) (x >>= g) T :=
  (hx R).bind hf

theorem now : Blind (now : Run α σ Nat) := fun _ _ _ h => .ok h

theorem since (start : Nat) : Blind (since start : Run α σ Nat) :=
  now.bind fun reading => pure (reading - start)

theorem ofFault (a : Except Fault β) : Blind (ofFault a : Run α σ β) := by
  cases a with
  | ok b => exact pure b
  | error e => exact throw e

theorem ofCalls (c : Calls σ β) : Blind (ofCalls c : Run α σ β) := by
  intro R w q h
  unfold Run.ofCalls
  dsimp only
  cases c w.tally with
  | ok b t => exact .ok h
  | error e t => exact .error

theorem mapM {δ : Type} {f : δ → Run α σ β} (hf : ∀ d, Blind (f d)) (l : List δ) :
    Blind (l.mapM f) := by
  induction l with
  | nil => exact pure []
  | cons d l ih =>
      rw [List.mapM_cons]
      exact (hf d).bind fun b => ih.bind fun bs => pure (b :: bs)

end Blind

end Run

open Run (Abreast Blind)

theorem Evaluator.blind_measured (e : Evaluator α σ) (counts : EvaluationCounts) (x : Vec α)
    (wantJacobian : Bool) : Blind (e.measured counts x wantJacobian) := by
  refine Blind.now.bind fun start => (Blind.ofCalls _).bind fun result =>
    (Blind.since start).bind fun time => ?_
  cases result with
  | none => exact .pure _
  | some ev => exact .pure _

/-! ## Stages -/

section Stages

variable [ScalarText α] {record : IterationRecord α} {x : Vec α}

theorem Stage.Passive.blind_run {stage : Stage α σ} (h : stage.Passive) :
    Blind (stage.run record x) := by
  cases stage with
  | updateState g => cases h
  | showProgress kind => exact .pure _
  | writeLog kind => exact fun R w q hR => .ok hR
  | user callback => exact fun R w q hR => .ok hR

theorem Stage.blind_runAll {stages : List (Stage α σ)} (h : ∀ stage ∈ stages, stage.Passive) :
    Blind (Stage.runAll record x stages) := by
  induction stages with
  | nil => exact .pure _
  | cons stage stages ih =>
      refine (h stage (by simp)).blind_run.bind fun d => ?_
      have hrest := ih fun s hs => h s (List.mem_cons_of_mem stage hs)
      cases d with
      | «continue» => exact hrest
      | abort => exact .pure _
      | succeed => exact .pure _

end Stages

/-! ## Loops -/

section Loops

variable [ScalarText α] {τ : Type} {l : Loop α σ τ} {e : Evaluator α σ} {c : Pipeline α σ}
  {I : τ → Prop} {R : Problem α σ → Problem α σ → Prop} {shows : τ → Run α σ (Decision × τ)}
  {s : τ}

/-- A regular loop with another way to report. Only states of the right size
are reported. -/
theorem Loop.Regular.abreast_iterate (hl : l.Regular e c I)
    (hreport : ∀ s, (l.x s).size = e.numParameters →
      Abreast R (l.report s) (shows s) fun _ => R)
    (hstep : ∀ s, Blind (l.step s)) (left : Nat) (hs : I s) :
    Abreast R (l.iterate left s) (Loop.iterate { l with report := shows } left s)
      fun _ => R := by
  -- Both runs go through the same states, so that the invariant of one of them is enough.
  have hshown : ∀ s, I s → Abreast R (l.report s) (shows s) fun r p q => I r.2 ∧ R p q :=
    fun s hs => (hreport s (hl.found s hs).size).and_returns fun w =>
      (hl.report s w).mono fun r w' hr => hr.2.1 hs
  induction left generalizing s with
  | zero =>
      refine (hshown s hs).bind ?_
      rintro ⟨d, s'⟩
      dsimp only
      cases d.reason? with
      | some reason => exact .pure fun p q h => h.2
      | none => exact .pure fun p q h => h.2
  | succ left ih =>
      refine (hshown s hs).bind ?_
      rintro ⟨d, s'⟩
      refine .of_and fun hs' => ?_
      dsimp only
      cases d.reason? with
      | some reason => exact .pure fun p q h => h
      | none =>
          refine (Blind.since _).before fun elapsed => ?_
          cases l.stop? s' elapsed with
          | some reason => exact .pure fun p q h => h
          | none =>
              have hnext := (hstep s' R).and_returns fun w =>
                (hl.step s' w hs').mono fun r w' hr s'' hr' => (hr.2.2 s'' hr').1
              refine hnext.bind fun r => .of_and fun hI => ?_
              cases r with
              | stop result => exact .pure fun p q h => h
              | next s'' => exact ih (hI s'' rfl)

end Loops

/-! ## Trust region runs -/

namespace TrustRegion

variable {m : TrustRegion α σ} {c : Pipeline α σ} {R : Problem α σ → Problem α σ → Prop}
  {counts : EvaluationCounts} {x : Vec α} {s : State α}

/-- Inner iterations have nothing to do with the problem. -/
def InnerBlind (m : TrustRegion α σ) : Prop := ∀ sweep, m.inner = some sweep → ∀ x, Blind (sweep x)

theorem blind_linearize (scale : Option (Vec α)) : Blind (m.linearize counts x scale) := by
  refine (m.evaluator.blind_measured counts x true).bind fun r => ?_
  split
  · exact .pure _
  · exact .pure _

theorem blind_improve (hinner : m.InnerBlind) (trial : Trial α) : Blind (m.improve s trial) := by
  unfold improve
  split
  · rename_i sweep cost hsweep _ _
    exact Blind.now.bind fun start => (hinner sweep hsweep _).bind fun r =>
      (m.evaluator.blind_measured _ _ _).bind fun e => (Blind.since start).bind fun time => .pure _
  · exact .pure _

theorem blind_accept (trial : Trial α) (costChange quality : α) :
    Blind (m.accept s trial costChange quality) := by
  refine (blind_linearize _).bind ?_
  rintro ⟨_ | linear, counts⟩
  · exact .pure _
  · exact .pure _

theorem blind_judge (trial : Trial α) : Blind (m.judge s trial) := by
  unfold judge
  dsimp only
  split
  · exact .pure _
  · split
    · exact .pure _
    · split
      · exact blind_accept _ _ _
      · exact .pure _

theorem blind_attempt (hinner : m.InnerBlind) (delta : Vec α) (decrease : α) :
    Blind (m.attempt s delta decrease) := by
  refine (Blind.since _).bind fun elapsed => ?_
  split
  · exact .pure _
  · exact (Blind.ofFault _).bind fun x => (m.evaluator.blind_measured _ _ _).bind fun e =>
      (blind_improve hinner _).bind fun r => blind_judge _

theorem blind_step (hinner : m.InnerBlind) (s : State α) : Blind (m.step s) := by
  refine Blind.now.bind fun begun => Blind.now.bind fun start =>
    (Blind.since start).bind fun time => ?_
  unfold pursue
  split
  · exact .throw _
  · split
    · exact .pure _
    · exact .pure _
  · dsimp only
    split
    · exact .pure _
    · exact blind_attempt hinner _ _

variable [ScalarText α]

theorem abreast_report (hc : ∀ record, Abreast R (m.callbacks.run record s.x)
      (c.run record s.x) fun _ => R) :
    Abreast R (m.report s) (report { m with callbacks := c } s) fun _ => R := by
  refine (Blind.since _).before fun iterationTime => (Blind.since _).before fun cumulativeTime => ?_
  dsimp only
  split
  · exact (hc _).bind fun d => .pure fun _ _ h => h
  · exact (hc _).bind fun d => .pure fun _ _ h => h

/-- A run with one pipeline or another. -/
theorem abreast_minimize (hexplores : m.InnerExplores) (hblind : m.InnerBlind)
    (hc : ∀ record x, x.size = m.evaluator.numParameters →
      Abreast R (m.callbacks.run record x) (c.run record x) fun _ => R) (strategy : Strategy α) :
    Abreast R (m.minimize strategy counts x) (minimize { m with callbacks := c } strategy counts x)
      fun _ => R := by
  refine Blind.now.before fun start => ?_
  have hlinked : ∀ w, Returns (m.linearize counts x none) w fun r _ => ∀ linear,
      r.1 = some linear → m.Linked (m.initial strategy x linear r.2 start) := by
    rintro w ⟨_, counts'⟩ w' h linear rfl
    exact linked_initial h strategy start
  refine ((blind_linearize none R).and_returns hlinked).bind ?_
  rintro ⟨_ | linear, counts'⟩
  · exact .pure fun p q h => h.2
  · refine .of_and fun hlinear => ?_
    dsimp only
    rw [iterate_eq, iterate_eq]
    -- The loop with the other pipeline is this one but for its report.
    refine ((regular_loop hexplores).abreast_iterate (fun s hs => ?_) (blind_step hblind) _
      (hlinear linear rfl)).bind fun r => .pure fun _ _ h => h
    exact abreast_report fun record => hc record s.x hs

end TrustRegion

/-! ## Line search runs -/

namespace LineSearch

variable {m : LineSearch α σ} {c : Pipeline α σ} {R : Problem α σ → Problem α σ → Prop}
  {counts : EvaluationCounts} {x : Vec α} {s : State α}

theorem blind_evaluateGradient : Blind (m.evaluateGradient counts x) := by
  refine (m.evaluator.blind_measured counts x true).bind fun r => ?_
  split
  · exact .pure _
  · exact .pure _

theorem blind_backtrack (cost : α) (ray : Ray α) (left done : Nat) (step : α) :
    Blind (m.backtrack x cost ray left done step counts) := by
  induction left generalizing done step counts with
  | zero =>
      unfold backtrack
      refine (Blind.ofFault _).bind fun trial => (m.evaluator.blind_measured _ _ _).bind fun e => ?_
      dsimp only
      split
      · exact .pure _
      · exact .pure _
  | succ left ih =>
      unfold backtrack
      refine (Blind.ofFault _).bind fun trial => (m.evaluator.blind_measured _ _ _).bind fun e => ?_
      dsimp only
      split
      · exact .pure _
      · split
        · exact .pure _
        · exact ih _ _

theorem blind_step (s : State α) : Blind (m.step s) := by
  refine Blind.now.bind fun begun => (blind_backtrack _ _ _ _ _).bind fun r => ?_
  dsimp only
  split
  · exact .pure _
  · refine blind_evaluateGradient.bind fun r => ?_
    split
    · exact .pure _
    · exact .pure _

theorem backtrack_with_callbacks (cost : α) (ray : Ray α) (left done : Nat) (step : α) :
    backtrack { m with callbacks := c } x cost ray left done step counts =
      m.backtrack x cost ray left done step counts := by
  induction left generalizing done step counts with
  | zero => rfl
  | succ left ih =>
      unfold backtrack
      simp only [ih]

theorem step_with_callbacks (s : State α) :
    LineSearch.step { m with callbacks := c } s = m.step s := by
  unfold LineSearch.step
  simp only [backtrack_with_callbacks]
  rfl

variable [ScalarText α]

theorem abreast_report (hc : ∀ record, Abreast R (m.callbacks.run record s.x)
      (c.run record s.x) fun _ => R) :
    Abreast R (m.report s) (report { m with callbacks := c } s) fun _ => R :=
  (Blind.since _).before fun _ => (Blind.since _).before fun _ =>
    (hc _).bind fun _ => .pure fun _ _ h => h

/-- The loop with another pipeline reports in another way and takes the same
steps. -/
theorem loop_with_callbacks (m : LineSearch α σ) (c : Pipeline α σ) :
    loop { m with callbacks := c } =
      { m.loop with report := report { m with callbacks := c } } := by
  have hstep : LineSearch.step { m with callbacks := c } = m.step := funext step_with_callbacks
  unfold loop
  rw [hstep]
  rfl

/-- A run with one pipeline or another. -/
theorem abreast_minimize (hc : ∀ record x, x.size = m.evaluator.numParameters →
      Abreast R (m.callbacks.run record x) (c.run record x) fun _ => R) :
    Abreast R (m.minimize counts x) (minimize { m with callbacks := c } counts x) fun _ => R := by
  refine Blind.now.before fun start => ?_
  have hlinked : ∀ w, Returns (m.evaluateGradient counts x) w fun r _ => ∀ cost gradient,
      r.1 = some (cost, gradient) → m.Linked (m.initial x cost gradient r.2 start) := by
    rintro w ⟨_, counts'⟩ w' h cost gradient rfl
    exact linked_initial h start
  refine ((blind_evaluateGradient R).and_returns hlinked).bind ?_
  rintro ⟨_ | ⟨cost, gradient⟩, counts'⟩
  · exact .pure fun p q h => h.2
  · refine .of_and fun hgradient => ?_
    dsimp only
    rw [iterate_eq, iterate_eq, loop_with_callbacks m c]
    refine (m.regular_loop.abreast_iterate (fun s hs => ?_) blind_step _
      (hgradient cost gradient rfl)).bind fun r => .pure fun _ _ h => h
    exact abreast_report fun record => hc record s.x hs

end LineSearch

/-! ## Inner iterations -/

namespace CoordinateDescent

variable [ScalarText α]

theorem blind_solveBlock (e : Evaluator α σ) (x : Vec α) (k : Nat) : Blind (solveBlock e x k) := by
  refine (Blind.ofFault _).bind fun restricted => ?_
  dsimp only
  split
  · exact .pure _
  · split
    · exact .ofFault _
    · split
      · exact .pure _
      · -- The run for the block has no stages, and their run is the decision to continue.
        refine .bind (fun R => TrustRegion.abreast_minimize ?_ ?_
          (fun _ _ _ => Blind.pure Decision.continue R) _) fun summary => ?_
        · intro sweep hsweep
          cases hsweep
        · intro sweep hsweep
          cases hsweep
        · split
          · exact .pure _
          · exact .pure _

theorem blind_sweep (c : CoordinateDescent) (e : Evaluator α σ) (x : Vec α) :
    Blind (c.sweep e x) := by
  have hgroups : ∀ (groups : List (List Nat)) (result : Nat × Vec α),
      Blind (sweepGroups e groups result) := by
    intro groups
    induction groups with
    | nil => exact fun result => .pure result
    | cons group groups ih =>
        rintro ⟨updated, x⟩
        exact (Blind.mapM (blind_solveBlock e x) group).bind fun better => ih _
  exact hgroups c.groups (0, x)

end CoordinateDescent

/-! ## Either minimizer -/

/-- A run with one pipeline or another. -/
theorem Minimizer.abreast_minimize [ScalarText α] {m : Minimizer α σ} {c d : Pipeline α σ}
    {R : Problem α σ → Problem α σ → Prop}
    (hc : ∀ record x, x.size = m.evaluator.numParameters →
      Abreast R (c.run record x) (d.run record x) fun _ => R) (x : Vec α) :
    Abreast R (m.minimize c x) (m.minimize d x) fun _ => R := by
  cases m with
  | lineSearch o e => exact LineSearch.abreast_minimize hc
  | trustRegion o e inner strategy =>
      refine TrustRegion.abreast_minimize (CoordinateDescent.innerExplores o e inner c) ?_ hc _
      intro sweep hsweep x
      obtain ⟨descent, -, rfl⟩ := Option.map_eq_some_iff.mp hsweep
      exact CoordinateDescent.blind_sweep descent e x

end LeastSquares
