import LeastSquares.Minimizer.TrustRegion

/-!
# What strategies propose

A trust region strategy leaves its linear systems to a linear solver. What it
proposes is determined by the answers, and what it remembers afterwards too. Here
the answers are those of any linear solver at all: a relation says which systems
may be given which answers, and nothing else is known of it. The linear solvers
of this library are one such relation.

A strategy in the course of a run has proposed steps for any linear models, and
it was told anything about them. Nothing is said about who tells it, so the
statements about it hold of every minimizer.

## Main definitions

* `Answering` — what a linear solver may answer.
* `Dogleg.Searches` — the attempts at a Gauss-Newton point.
* `Dogleg.Proposes`, `Strategy.Proposes` — what a strategy may propose, and what
  it is afterwards.
* `Strategy.Course` — a strategy in the course of a run.
* `TrustRegion.stepWith` — an iteration of the minimizer with any proposal.

## Main results

* `Dogleg.Searches.exists_eq`, `Dogleg.exists_linearized`, `Dogleg.exists_note` —
  what a proposal can change.
* `Strategy.proposes_computeStep` — what a strategy proposes with its own linear
  solver.
* `Strategy.Course.dogleg` — what a dogleg strategy keeps.
-/

namespace LeastSquares

variable {α : Type} [Scalar α]

/-- What a linear solver may answer to a system: a matrix, a right-hand side and
the settings. -/
abbrev Answering (α : Type) [Scalar α] : Type :=
  BlockMatrix α → Vec α → SolveSettings α → Outcome LinearError (LinearSolution α) → Prop

/-- The answers of the linear solvers of this library, whatever they have solved
before. -/
def LinearSolver.answering : Answering α := fun a b settings answer =>
  ∃ s : LinearSolver, (s.solve a b settings).1 = answer

namespace Dogleg

variable {answers : Answering α} {jacobian : BlockMatrix α} {residuals rhs : Vec α}
  {s : Dogleg α}

/-! ## The search for a Gauss-Newton point -/

/-- What a strategy asks of its linear solver in an attempt at a Gauss-Newton
point. -/
def request (s : Dogleg α) : SolveSettings α :=
  ⟨some (s.diagonal.scale (Scalar.sqrt s.mu)), s.eta⟩

/-- The attempts at a Gauss-Newton point: the answers of the linear solver, and
what they come to. -/
inductive Searches (answers : Answering α) (jacobian : BlockMatrix α) (rhs : Vec α) :
    Dogleg α → Outcome LinearError Nat × Dogleg α → Prop
  | found {s : Dogleg α} {solution : LinearSolution α}
      (answer : answers jacobian rhs s.request (.ok solution))
      (finite : solution.x.isFinite = true) (solver : LinearSolver) :
      Searches answers jacobian rhs s (.ok solution.iterations,
        { s with
          solver
          gaussNewton := solution.x.mulEntries s.diagonal
          mu := Scalar.max (2.0 * s.mu / muFactor) minMu })
  | stopped {s : Dogleg α} {reason : Stop LinearError}
      (answer : answers jacobian rhs s.request (.error reason)) (solver : LinearSolver) :
      Searches answers jacobian rhs s (.error reason, { s with solver })
  /-- Another attempt, with more regularization. -/
  | raised {s : Dogleg α} {outcome : Outcome LinearError (LinearSolution α)}
      {result : Outcome LinearError Nat × Dogleg α}
      (answer : answers jacobian rhs s.request outcome)
      (failed : ∀ solution, outcome = .ok solution → solution.x.isFinite = false)
      (solver : LinearSolver)
      (rest : Searches answers jacobian rhs { s with solver, mu := s.mu * muFactor } result) :
      Searches answers jacobian rhs s result
  /-- The last attempt has failed. -/
  | ended {s : Dogleg α} {outcome : Outcome LinearError (LinearSolution α)}
      (answer : answers jacobian rhs s.request outcome)
      (failed : ∀ solution, outcome = .ok solution → solution.x.isFinite = false)
      (solver : LinearSolver) (e : LinearError) :
      Searches answers jacobian rhs s
        (.error (.error e), { s with solver, mu := s.mu * muFactor })

/-- One attempt asks the linear solver once. -/
theorem attempt_cases {outcome : Outcome LinearError (LinearSolution α)} {solver : LinearSolver}
    (h : s.solver.solve jacobian rhs s.request = (outcome, solver)) :
    (∃ solution, outcome = .ok solution ∧ solution.x.isFinite = true ∧
      s.attempt jacobian rhs =
        (.found (solution.x.mulEntries s.diagonal) solution.iterations, { s with solver })) ∨
    (∃ reason, outcome = .error reason ∧
      s.attempt jacobian rhs = (.stop reason, { s with solver })) ∨
    (∀ solution, outcome = .ok solution → solution.x.isFinite = false) ∧
      ∃ e, s.attempt jacobian rhs = (.failed e, { s with solver }) := by
  rw [request] at h
  unfold attempt
  dsimp only
  rw [h]
  match outcome with
  | .ok solution =>
      dsimp only
      split
      · rename_i hfinite
        exact .inl ⟨solution, rfl, hfinite, rfl⟩
      · rename_i hfinite
        refine .inr (.inr ⟨fun solution' hsolution => ?_, _, rfl⟩)
        cases hsolution
        exact Bool.eq_false_iff.mpr hfinite
  | .error (.fault f) => exact .inr (.inl ⟨_, rfl, rfl⟩)
  | .error (.error e) =>
      dsimp only
      split
      · exact .inr (.inl ⟨_, rfl, rfl⟩)
      · exact .inr (.inr ⟨fun _ => nofun, _, rfl⟩)

/-- The search with the linear solver that the strategy has. -/
theorem searches_findGaussNewton {attempts : Nat} (jacobian : BlockMatrix α) (rhs : Vec α)
    (s : Dogleg α) (hattempts : attempts ≠ 0) : Searches LinearSolver.answering jacobian rhs s
      (findGaussNewton jacobian rhs attempts s) := by
  induction attempts generalizing s with
  | zero => exact absurd rfl hattempts
  | succ attempts ih =>
      obtain ⟨outcome, solver, hsolve⟩ :
          ∃ outcome solver, s.solver.solve jacobian rhs s.request = (outcome, solver) := ⟨_, _, rfl⟩
      have hanswer : LinearSolver.answering jacobian rhs s.request outcome :=
        ⟨s.solver, congrArg Prod.fst hsolve⟩
      unfold findGaussNewton
      obtain ⟨solution, rfl, hfinite, h⟩ | ⟨reason, rfl, h⟩ | ⟨hfailed, e, h⟩ :=
        attempt_cases hsolve
      · rw [h]
        exact .found hanswer hfinite solver
      · rw [h]
        exact .stopped hanswer solver
      · rw [h]
        dsimp only
        split
        · exact .ended hanswer hfailed solver _
        · by_cases hlast : attempts = 0
          · subst hlast
            exact .ended hanswer hfailed solver _
          · exact .raised hanswer hfailed solver (ih _ hlast)

/-- A search changes the linear solver, the regularization and the point. -/
theorem Searches.exists_eq {result : Outcome LinearError Nat × Dogleg α}
    (h : Searches answers jacobian rhs s result) :
    ∃ solver mu gaussNewton, result.2 = { s with solver, mu, gaussNewton } := by
  induction h with
  | found _ _ solver => exact ⟨_, _, _, rfl⟩
  | stopped _ solver => exact ⟨_, _, _, rfl⟩
  | raised _ _ _ _ ih =>
      obtain ⟨solver, mu, gaussNewton, h⟩ := ih
      exact ⟨solver, mu, gaussNewton, h⟩
  | ended _ _ solver e => exact ⟨_, _, _, rfl⟩

/-- A point that was found comes from an answer, for a regularization that was
reached from the first one. -/
theorem Searches.exists_answer {P : α → Prop} (hraised : ∀ mu, P mu → P (mu * muFactor))
    {result : Outcome LinearError Nat × Dogleg α}
    (h : Searches answers jacobian rhs s result) (hs : P s.mu) :
    ∀ iterations, result.1 = .ok iterations → ∃ mu solution, P mu ∧
      answers jacobian rhs ⟨some (s.diagonal.scale (Scalar.sqrt mu)), s.eta⟩ (.ok solution) ∧
      result.2.gaussNewton = solution.x.mulEntries s.diagonal := by
  induction h with
  | found answer _ _ => exact fun _ _ => ⟨_, _, hs, answer, rfl⟩
  | stopped _ _ => exact fun _ => nofun
  | raised _ _ _ _ ih => exact ih (hraised _ hs)
  | ended _ _ _ _ => exact fun _ => nofun

/-- A point that was found has an entry for every column, if every solution has. -/
theorem Searches.size_point {result : Outcome LinearError Nat × Dogleg α}
    (hsize : ∀ settings solution, answers jacobian rhs settings (.ok solution) →
      solution.x.size = jacobian.numCols)
    (h : Searches answers jacobian rhs s result) {iterations : Nat}
    (hfound : result.1 = .ok iterations) : result.2.gaussNewton.size = jacobian.numCols := by
  obtain ⟨mu, solution, -, hanswer, hpoint⟩ :=
    h.exists_answer (P := fun _ => True) (fun _ => id) trivial iterations hfound
  rw [hpoint, Vec.size_mulEntries, hsize _ _ hanswer]

/-! ## Proposals -/

/-- The plane that a strategy of a kind steps in, none if it steps along a path. -/
def planeFor (s : Dogleg α) (jacobian : BlockMatrix α) : Option (Plane α) :=
  match s.kind with
  | .subspace => s.findPlane jacobian
  | .traditional => none

/-- What a strategy may propose for a linear model, and what it is afterwards. -/
inductive Proposes (answers : Answering α) (jacobian : BlockMatrix α) (residuals : Vec α)
    (s : Dogleg α) : Outcome LinearError (TrustRegionStep α) × Dogleg α → Prop
  /-- The step from what is stored. -/
  | stored (reuse : s.reuse = true) : Proposes answers jacobian residuals s (s.finish 0)
  | unscaled (reuse : s.reuse = false) {f : Fault} {linear : Dogleg α}
      (linearized : s.linearize jacobian residuals = (.error f, linear)) :
      Proposes answers jacobian residuals s (.error (.fault f), linear)
  | unsolved (reuse : s.reuse = false) {linear s' : Dogleg α} {reason : Stop LinearError}
      (linearized : s.linearize jacobian residuals = (.ok (), linear))
      (searched : Searches answers jacobian (-residuals) linear (.error reason, s')) :
      Proposes answers jacobian residuals s (.error reason, s')
  | solved (reuse : s.reuse = false) {linear s' : Dogleg α} {iterations : Nat}
      (linearized : s.linearize jacobian residuals = (.ok (), linear))
      (searched : Searches answers jacobian (-residuals) linear (.ok iterations, s')) :
      Proposes answers jacobian residuals s
        ({ s' with plane := s'.planeFor jacobian, reuse := true }.finish iterations)

/-- A proposal with the linear solver that the strategy has. -/
theorem proposes_computeStep (s : Dogleg α) (jacobian : BlockMatrix α) (residuals : Vec α) :
    s.Proposes LinearSolver.answering jacobian residuals (s.computeStep jacobian residuals) := by
  cases hreuse : s.reuse with
  | true =>
      rw [computeStep, if_pos hreuse]
      exact .stored hreuse
  | false =>
      rw [computeStep, if_neg (by rw [hreuse]; nofun)]
      cases hlinear : s.linearize jacobian residuals with
      | mk outcome linear =>
          match outcome with
          | .error f => exact .unscaled hreuse hlinear
          | .ok () =>
              dsimp only
              have hsearch := searches_findGaussNewton jacobian (-residuals) linear
                (show maxAttempts ≠ 0 by decide)
              generalize findGaussNewton jacobian (-residuals) maxAttempts linear = search
                at hsearch ⊢
              match search with
              | (.error reason, s') => exact .unsolved hreuse hlinear hsearch
              | (.ok iterations, s') => exact .solved hreuse hlinear hsearch

/-- What a linearization stores. -/
theorem linearize_eq_ok {linear : Dogleg α}
    (h : s.linearize jacobian residuals = (.ok (), linear)) :
    ∃ clamped g,
      jacobian.squaredColumnNorms.clampEntries s.minDiagonal s.maxDiagonal = .ok clamped ∧
      jacobian.leftMultiply? residuals = .ok g ∧
      let diagonal := clamped.map Scalar.sqrt
      let gradient := g.divEntries diagonal
      linear = { s with
        diagonal, gradient,
        cauchy := (Scalar.quotient? gradient.normSq
          (jacobian.rightMultiply (gradient.divEntries diagonal)).normSq).getD 0 } := by
  unfold linearize at h
  split at h
  · cases h
  · rename_i clamped hclamped
    dsimp only at h
    split at h
    · cases h
    · rename_i g hg
      cases h
      exact ⟨clamped, g, hclamped, hg, rfl⟩

/-- A proposal for which the first attempt is enough. -/
theorem proposes_of_found {linear : Dogleg α} {solution : LinearSolution α}
    (hreuse : s.reuse = false) (hlinear : s.linearize jacobian residuals = (.ok (), linear))
    (hsolve : (linear.solver.solve jacobian (-residuals) linear.request).1 = .ok solution)
    (hanswer : answers jacobian (-residuals) linear.request (.ok solution))
    (hfinite : solution.x.isFinite = true) :
    s.Proposes answers jacobian residuals (s.computeStep jacobian residuals) := by
  obtain ⟨_, ⟨⟩, -, h⟩ | ⟨reason, hreason, -⟩ | ⟨hfailed, -⟩ :=
    attempt_cases (Prod.ext hsolve rfl)
  · rw [computeStep, if_neg (Bool.eq_false_iff.mp hreuse), hlinear]
    dsimp only
    rw [show maxAttempts = 9 + 1 from rfl, findGaussNewton, h]
    exact .solved hreuse hlinear (.found hanswer hfinite _)
  · cases hreason
  · exact absurd hfinite (Bool.eq_false_iff.mp (hfailed solution rfl))

/-- A linearization changes scaling, gradient and the length along it. -/
theorem exists_linearized (s : Dogleg α) (jacobian : BlockMatrix α) (residuals : Vec α) :
    ∃ diagonal gradient cauchy,
      (s.linearize jacobian residuals).2 = { s with diagonal, gradient, cauchy } := by
  unfold linearize
  split
  · exact ⟨_, _, _, rfl⟩
  · dsimp only
    split
    · exact ⟨_, _, _, rfl⟩
    · exact ⟨_, _, _, rfl⟩

/-- A step from what is stored only notes its length. -/
theorem exists_note (s : Dogleg α) (iterations : Nat) :
    ∃ norm, (s.finish iterations).2 = { s with stepNorm := norm } := by
  have hstep : ∃ norm, s.step.2 = { s with stepNorm := norm } := by
    unfold Dogleg.step
    dsimp only
    split
    · exact ⟨_, rfl⟩
    · split
      · exact ⟨s.stepNorm, rfl⟩
      · exact ⟨_, rfl⟩
  unfold finish
  split
  · rename_i h
    rwa [h] at hstep
  · rename_i h
    rwa [h] at hstep

/-- What a strategy was set up with, and its radius. No proposal changes them. -/
structure Frame (s s' : Dogleg α) : Prop where
  kind : s'.kind = s.kind
  radius : s'.radius = s.radius
  maxRadius : s'.maxRadius = s.maxRadius
  minDiagonal : s'.minDiagonal = s.minDiagonal
  maxDiagonal : s'.maxDiagonal = s.maxDiagonal
  eta : s'.eta = s.eta

omit [Scalar α] in
theorem Frame.trans {s s' s'' : Dogleg α} (h : s.Frame s') (h' : s'.Frame s'') : s.Frame s'' where
  kind := h'.kind.trans h.kind
  radius := h'.radius.trans h.radius
  maxRadius := h'.maxRadius.trans h.maxRadius
  minDiagonal := h'.minDiagonal.trans h.minDiagonal
  maxDiagonal := h'.maxDiagonal.trans h.maxDiagonal
  eta := h'.eta.trans h.eta

theorem Searches.frame {result : Outcome LinearError Nat × Dogleg α}
    (h : Searches answers jacobian rhs s result) : s.Frame result.2 := by
  obtain ⟨solver, mu, gaussNewton, h⟩ := h.exists_eq
  rw [h]
  exact ⟨rfl, rfl, rfl, rfl, rfl, rfl⟩

theorem frame_linearize (s : Dogleg α) (jacobian : BlockMatrix α) (residuals : Vec α) :
    s.Frame (s.linearize jacobian residuals).2 := by
  obtain ⟨diagonal, gradient, cauchy, h⟩ := s.exists_linearized jacobian residuals
  rw [h]
  exact ⟨rfl, rfl, rfl, rfl, rfl, rfl⟩

theorem frame_finish (s : Dogleg α) (iterations : Nat) : s.Frame (s.finish iterations).2 := by
  obtain ⟨norm, h⟩ := s.exists_note iterations
  rw [h]
  exact ⟨rfl, rfl, rfl, rfl, rfl, rfl⟩

theorem Proposes.frame {p : Outcome LinearError (TrustRegionStep α) × Dogleg α}
    (h : s.Proposes answers jacobian residuals p) : s.Frame p.2 := by
  have hlinear := s.frame_linearize jacobian residuals
  cases h with
  | stored _ => exact s.frame_finish 0
  | unscaled _ linearized =>
      rw [linearized] at hlinear
      exact hlinear
  | unsolved _ linearized searched =>
      rw [linearized] at hlinear
      exact hlinear.trans searched.frame
  | @solved _ linear s' iterations linearized searched =>
      rw [linearized] at hlinear
      have hsearched : s.Frame s' := hlinear.trans searched.frame
      have hplanned : s'.Frame { s' with plane := s'.planeFor jacobian, reuse := true } :=
        ⟨rfl, rfl, rfl, rfl, rfl, rfl⟩
      exact (hsearched.trans hplanned).trans (frame_finish _ iterations)

end Dogleg

namespace Strategy

variable {answers : Answering α} {jacobian : BlockMatrix α} {residuals : Vec α}

/-- What a strategy may propose for a linear model, and what it is afterwards. A
Levenberg-Marquardt step is what the linear solver makes of it, and the strategy
remembers nothing of it. -/
inductive Proposes (answers : Answering α) (jacobian : BlockMatrix α) (residuals : Vec α) :
    Strategy α → Outcome LinearError (TrustRegionStep α) × Strategy α → Prop
  | levenbergMarquardt (s : LevenbergMarquardt α)
      (answer : Outcome LinearError (TrustRegionStep α)) (solver : LinearSolver) :
      Proposes answers jacobian residuals (.levenbergMarquardt s)
        (answer, .levenbergMarquardt { s with solver })
  | dogleg {s : Dogleg α} {p : Outcome LinearError (TrustRegionStep α) × Dogleg α}
      (h : s.Proposes answers jacobian residuals p) :
      Proposes answers jacobian residuals (.dogleg s) (p.1, .dogleg p.2)

theorem Proposes.exists_dogleg {s : Dogleg α}
    {p : Outcome LinearError (TrustRegionStep α) × Strategy α}
    (h : Proposes answers jacobian residuals (.dogleg s) p) :
    ∃ q, p = (q.1, .dogleg q.2) ∧ s.Proposes answers jacobian residuals q := by
  cases h with
  | dogleg h => exact ⟨_, rfl, h⟩

/-- A proposal with the linear solver that the strategy has. -/
theorem proposes_computeStep (s : Strategy α) (jacobian : BlockMatrix α) (residuals : Vec α) :
    s.Proposes LinearSolver.answering jacobian residuals (s.computeStep jacobian residuals) := by
  cases s with
  | levenbergMarquardt s =>
      have hsolver : ∃ solver, (s.computeStep jacobian residuals).2 = { s with solver } := by
        unfold LevenbergMarquardt.computeStep
        split
        · exact ⟨s.solver, rfl⟩
        · dsimp only
          split
          · exact ⟨_, rfl⟩
          · split <;> exact ⟨_, rfl⟩
      obtain ⟨solver, hsolver⟩ := hsolver
      show Proposes LinearSolver.answering jacobian residuals (.levenbergMarquardt s)
        ((s.computeStep jacobian residuals).1,
          .levenbergMarquardt (s.computeStep jacobian residuals).2)
      rw [hsolver]
      exact .levenbergMarquardt s _ solver
  | dogleg s => exact .dogleg (s.proposes_computeStep jacobian residuals)

/-- A strategy in the course of a run: it has proposed steps for any linear
models, with the answers of any linear solver, and it was told anything about
them. Accepted steps have some of the qualities that are allowed. -/
inductive Course (answers : Answering α) (allowed : α → Prop) (start : Strategy α) :
    Strategy α → Prop
  | start : Course answers allowed start start
  | proposed {s : Strategy α} (h : Course answers allowed start s) {jacobian : BlockMatrix α}
      {residuals : Vec α} {p : Outcome LinearError (TrustRegionStep α) × Strategy α}
      (proposal : s.Proposes answers jacobian residuals p) : Course answers allowed start p.2
  | accepted {s : Strategy α} (h : Course answers allowed start s) {quality : α}
      (good : allowed quality) : Course answers allowed start (s.accepted quality)
  | rejected {s : Strategy α} (h : Course answers allowed start s) :
      Course answers allowed start s.rejected
  | invalid {s : Strategy α} (h : Course answers allowed start s) :
      Course answers allowed start s.invalid

/-- What a dogleg strategy keeps through proposals and whatever it is told, it keeps
in the course of a run. -/
theorem Course.dogleg {allowed : α → Prop} {P : Dogleg α → Prop} {first : Dogleg α}
    {s : Strategy α} (h : Course answers allowed (.dogleg first) s) (hfirst : P first)
    (hproposed : ∀ {s jacobian residuals p}, P s → s.Proposes answers jacobian residuals p → P p.2)
    (haccepted : ∀ {s quality}, allowed quality → P s → P (s.accepted quality))
    (hrejected : ∀ {s}, P s → P s.rejected) (hinvalid : ∀ {s}, P s → P s.invalid) :
    ∃ t, s = .dogleg t ∧ P t := by
  induction h with
  | start => exact ⟨first, rfl, hfirst⟩
  | proposed _ proposal ih =>
      obtain ⟨t, rfl, ht⟩ := ih
      obtain ⟨q, rfl, hq⟩ := proposal.exists_dogleg
      exact ⟨q.2, rfl, hproposed ht hq⟩
  | accepted _ good ih =>
      obtain ⟨t, rfl, ht⟩ := ih
      exact ⟨_, rfl, haccepted good ht⟩
  | rejected _ ih =>
      obtain ⟨t, rfl, ht⟩ := ih
      exact ⟨_, rfl, hrejected ht⟩
  | invalid _ ih =>
      obtain ⟨t, rfl, ht⟩ := ih
      exact ⟨_, rfl, hinvalid ht⟩

end Strategy

/-! ## The minimizer -/

namespace TrustRegion

variable {σ : Type}

/-- One iteration, with a proposal in the place of that of the strategy. -/
def stepWith (m : TrustRegion α σ) (s : State α)
    (p : Outcome LinearError (TrustRegionStep α) × Strategy α) : Run α σ (StepResult α) := do
  let s := begin s (← Run.now)
  let start ← Run.now
  let time ← Run.since start
  m.pursue
    { s with
      strategy := p.2
      history := { s.history with linearSolverTime := s.history.linearSolverTime + time } }
    p.1

theorem step_eq_stepWith (m : TrustRegion α σ) (s : State α) :
    m.step s = m.stepWith s (s.strategy.computeStep s.linear.jacobian s.linear.residuals) := rfl

end TrustRegion

end LeastSquares
