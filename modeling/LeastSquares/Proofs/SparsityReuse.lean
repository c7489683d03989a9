import LeastSquares.Proofs.SystemSizes

/-!
# Solving one system after the other

A linear solver remembers one thing, the analysis of the last sparse
factorization, and takes it up again for the next matrix of the same dimension.
Nothing compares the patterns. So a factorization works from the analysis of its
own matrix exactly as long as the pattern does not change between one factored
matrix and the next of the same dimension. As long as that is so, an answer does
not depend on the systems before, and every system is answered as by a solver
that was just created. After a change, a solver can meet a fault at a system that
a new solver solves.

## Main definitions

* `LinearSolver.factored?` — the matrix that a solve factors, without its numbers.
* `LinearSolver.after`, `LinearSolver.answers` — a solver in the course of some systems.
* `LinearSolver.FactorsOwn` — every factorization works from the analysis of its
  own matrix.
* `KeepsPatterns` — no pattern changes while the dimension stays.

## Main results

* `LinearSolver.after_eq` — what a solver remembers.
* `LinearSolver.factorsOwn_iff_of_last` — when every factorization has its own
  analysis.
* `LinearSolver.solve_history` — created solvers in the course of any systems.
* `LinearSolver.solveSystem_overfull` — a matrix that does not fit the analysis.
-/

namespace LeastSquares

/-- A matrix, a right-hand side and what else varies from system to system. -/
structure LinearSystem (α : Type) where
  matrix : BlockMatrix α
  rhs : Vec α
  settings : SolveSettings α

/-- What a sparse factorization knows before it sees the numbers: the dimension of
the matrix and the positions that can hold something. -/
structure Outline where
  dimension : Nat
  pattern : List (Nat × Nat)
deriving DecidableEq, Repr

/-- The analysis of a matrix. -/
def Outline.analysis (q : Outline) : SparsityAnalysis := .ofPattern q.dimension q.pattern

/-- A matrix has the pattern of the one before it if it has the same dimension. -/
def KeepsPatterns (outlines : List Outline) : Prop :=
  outlines.IsChain fun q r => q.dimension = r.dimension → q.pattern = r.pattern

/-! ## Taking up an analysis -/

/-- What is remembered after the factorization of a matrix. -/
def remember (kept : Option SparsityAnalysis) (q : Outline) : Option SparsityAnalysis :=
  some (SparsityAnalysis.reuse kept q.dimension q.pattern)

/-- What another matrix has left behind is the analysis of this one if it is not
taken up, or if the patterns agree. -/
theorem remember_analysis_eq_iff {last : Option Outline} {q : Outline} :
    remember (last.map Outline.analysis) q = some q.analysis ↔
      ∀ r ∈ last, r.dimension = q.dimension → r.pattern = q.pattern := by
  cases last with
  | none => exact iff_of_true rfl nofun
  | some r =>
      obtain ⟨m, other⟩ := r
      obtain ⟨n, pattern⟩ := q
      have hreuse : remember (some (Outline.analysis ⟨m, other⟩)) ⟨n, pattern⟩ =
          some (if m = n then Outline.analysis ⟨m, other⟩ else Outline.analysis ⟨n, pattern⟩) := rfl
      rw [Option.map_some, hreuse, Option.some.injEq]
      constructor
      · rintro h _ ⟨⟩ rfl
        rw [if_pos rfl] at h
        exact congrArg SparsityAnalysis.pattern h
      · intro h
        split
        · rename_i hdim
          obtain rfl : m = n := hdim
          obtain rfl : other = pattern := h _ rfl rfl
          rfl
        · rfl

theorem keepsPatterns_cons {last : Option Outline} {q : Outline} {outlines : List Outline} :
    KeepsPatterns (last.toList ++ q :: outlines) ↔
      (∀ r ∈ last, r.dimension = q.dimension → r.pattern = q.pattern) ∧
        KeepsPatterns (q :: outlines) := by
  cases last with
  | none => exact (and_iff_right nofun).symm
  | some r =>
      refine List.isChain_cons_cons.trans (and_congr_left fun _ => ⟨?_, fun h => h r rfl⟩)
      rintro h _ ⟨⟩
      exact h

/-! ## One system -/

open SparsityAnalysis (reuse)

namespace LinearSolver

variable {α : Type} [Scalar α] {s : LinearSolver} {y : LinearSystem α} {ys : List (LinearSystem α)}
  {o : LinearSolverOptions} {n : Nat} {pattern : List (Nat × Nat)}

/-- The matrix that a solve factors sparsely, none if it comes to no such
factorization: the normal matrix, or the reduced matrix of an elimination. -/
def factored? (s : LinearSolver) (y : LinearSystem α) : Option Outline :=
  let a := y.matrix
  match s.kind with
  | .sparseNormalCholesky =>
      match regularizerSquared y.settings.regularizer a.numCols, a.leftMultiply? y.rhs with
      | .ok _, .ok _ => some ⟨a.numCols, a.normalPattern⟩
      | _, _ => none
  | .sparseSchur =>
      match regularizerSquared y.settings.regularizer a.numCols >>= fun d2 =>
        Elimination.new? a y.rhs d2 s.eliminated with
      | .error _ => none
      | .ok e => if e.dimension = 0 then none else some ⟨e.dimension, e.reducedPattern⟩
  | _ => none

/-- The solution of a system, and the solver as it is afterwards. -/
def solveSystem (s : LinearSolver) (y : LinearSystem α) :
    Outcome LinearError (LinearSolution α) × LinearSolver :=
  s.solve y.matrix y.rhs y.settings

/-- A solver whose memory is `kept`. -/
def remembering (s : LinearSolver) (kept : Option SparsityAnalysis) : LinearSolver :=
  { s with analysis := kept }

/-- A system is factored whatever the solver remembers. -/
theorem factored?_remembering (kept : Option SparsityAnalysis) :
    (s.remembering kept).factored? y = s.factored? y := rfl

/-- What a solver remembers changes with a factorization and not otherwise. -/
theorem solveSystem_snd (s : LinearSolver) (y : LinearSystem α) :
    (s.solveSystem y).2 =
      s.remembering ((s.factored? y).elim s.analysis (remember s.analysis)) := by
  obtain ⟨kind, preconditioner, minIterations, maxIterations, count, kept⟩ := s
  cases kind with
  | sparseNormalCholesky =>
      cases hd : regularizerSquared y.settings.regularizer y.matrix.numCols with
      | error e =>
          simp only [solveSystem, solve, factored?, sparseNormal?, hd]
          rfl
      | ok d2 =>
          cases hb : y.matrix.leftMultiply? y.rhs with
          | error f =>
              simp only [solveSystem, solve, factored?, sparseNormal?, hd, hb]
              rfl
          | ok rhs =>
              simp only [solveSystem, solve, factored?, sparseNormal?, hd, hb]
              rfl
  | sparseSchur =>
      cases h : regularizerSquared y.settings.regularizer y.matrix.numCols >>= fun d2 =>
          Elimination.new? y.matrix y.rhs d2 count with
      | error e =>
          simp only [solveSystem, solve, factored?, schurDirect?, h]
          rfl
      | ok e =>
          simp only [solveSystem, solve, factored?, schurDirect?, h]
          split <;> rfl
  | _ => rfl

theorem factored?_solveSystem (s : LinearSolver) (y z : LinearSystem α) :
    (s.solveSystem y).2.factored? z = s.factored? z := by
  rw [solveSystem_snd, factored?_remembering]

/-- What a solver remembers is only read for the analysis of a factorization. -/
theorem solveSystem_fst_congr {kept : Option SparsityAnalysis}
    (h : ∀ q ∈ s.factored? y, remember s.analysis q = remember kept q) :
    (s.solveSystem y).1 = ((s.remembering kept).solveSystem y).1 := by
  obtain ⟨kind, preconditioner, minIterations, maxIterations, count, own⟩ := s
  cases kind with
  | sparseNormalCholesky =>
      simp only [solveSystem, solve, remembering, sparseNormal?]
      split
      · rfl
      · rename_i hd
        split
        · rfl
        · rename_i hb
          have hreuse : reuse own y.matrix.numCols y.matrix.normalPattern =
              reuse kept y.matrix.numCols y.matrix.normalPattern :=
            Option.some.inj (h ⟨y.matrix.numCols, y.matrix.normalPattern⟩ (by
              simp only [factored?, hd, hb]
              rfl))
          rw [hreuse]
  | sparseSchur =>
      simp only [solveSystem, solve, remembering, schurDirect?]
      split
      · rfl
      · rename_i e he
        split
        · rfl
        · rename_i hdim
          have hreuse : reuse own e.dimension e.reducedPattern =
              reuse kept e.dimension e.reducedPattern :=
            Option.some.inj (h ⟨e.dimension, e.reducedPattern⟩ (by
              simp only [factored?, he, hdim]
              rfl))
          simp only [if_true, hreuse]
  | _ => rfl

/-- A matrix with more entries on and above its diagonal than the analysis that is
taken up has positions is a fault. -/
theorem solveSystem_overfull {q : Outline} (hq : s.factored? y = some q)
    (h : (reuse s.analysis q.dimension q.pattern).pattern.length <
      (q.pattern.filter fun p => p.1 ≤ p.2).length) :
    (s.solveSystem y).1 = .error (.fault .patternMismatch) := by
  obtain ⟨kind, preconditioner, minIterations, maxIterations, count, kept⟩ := s
  cases kind with
  | sparseNormalCholesky =>
      simp only [factored?] at hq
      split at hq
      · rename_i hd hb
        cases hq
        simp only [solveSystem, solve, sparseNormal?, hd, hb,
          ← Factorizations.solveSparse?_provided, Factorizations.lawful_provided.overfull h]
        rfl
      · cases hq
  | sparseSchur =>
      simp only [factored?] at hq
      split at hq
      · cases hq
      · rename_i e he
        split at hq
        · cases hq
        · rename_i hdim
          cases hq
          simp only [solveSystem, solve, schurDirect?, he, if_neg hdim, if_true,
            ← Factorizations.solveSparse?_provided, Factorizations.lawful_provided.overfull h]
          rfl
  | _ => cases hq

/-! ## One system after the other -/

/-- The solver after some systems. -/
def after (s : LinearSolver) (ys : List (LinearSystem α)) : LinearSolver :=
  ys.foldl (fun s y => (s.solveSystem y).2) s

/-- The answers to some systems. -/
def answers (s : LinearSolver) :
    List (LinearSystem α) → List (Outcome LinearError (LinearSolution α))
  | [] => []
  | y :: ys => (s.solveSystem y).1 :: (s.solveSystem y).2.answers ys

/-- Every factorization works from the analysis of its own matrix. -/
def FactorsOwn (s : LinearSolver) (ys : List (LinearSystem α)) : Prop :=
  ∀ before y, before ++ [y] <+: ys →
    ∀ q ∈ s.factored? y, (s.after (before ++ [y])).analysis = some q.analysis

/-- A solver remembers what one factorization after the other has left behind. -/
theorem after_eq (s : LinearSolver) (ys : List (LinearSystem α)) :
    s.after ys = s.remembering ((ys.filterMap s.factored?).foldl remember s.analysis) := by
  induction ys generalizing s with
  | nil => rfl
  | cons y ys ih =>
      have hstep : s.after (y :: ys) = (s.solveSystem y).2.after ys := rfl
      rw [hstep, ih, solveSystem_snd]
      cases hq : s.factored? y with
      | none =>
          rw [List.filterMap_cons_none hq]
          rfl
      | some q =>
          rw [List.filterMap_cons_some hq]
          rfl

theorem factorsOwn_cons :
    s.FactorsOwn (y :: ys) ↔
      (∀ q ∈ s.factored? y, remember s.analysis q = some q.analysis) ∧
        (s.solveSystem y).2.FactorsOwn ys := by
  have hfirst : ∀ q ∈ s.factored? y, (s.after [y]).analysis = remember s.analysis q := by
    intro q hq
    rw [after_eq, List.filterMap_cons_some hq]
    rfl
  constructor
  · intro h
    refine ⟨fun q hq => ?_, fun before z hz q hq => ?_⟩
    · rw [← hfirst q hq]
      exact h [] y (List.prefix_append [y] ys) q hq
    · exact h (y :: before) z (List.cons_prefix_cons.mpr ⟨rfl, hz⟩) q
        (s.factored?_solveSystem y z ▸ hq)
  · rintro ⟨hown, hrest⟩ (_ | ⟨x, before⟩) z hz q hq
    · obtain ⟨rfl, -⟩ := List.cons_prefix_cons.mp hz
      rw [List.nil_append, hfirst q hq]
      exact hown q hq
    · obtain ⟨rfl, hbefore⟩ := List.cons_prefix_cons.mp hz
      exact hrest before z hbefore q ((s.factored?_solveSystem _ z).symm ▸ hq)

/-- Once the matrix `last` was factored, every factorization works from its own
analysis if no pattern changes from `last` on. -/
theorem factorsOwn_iff_of_last (last : Option Outline)
    (hs : s.analysis = last.map Outline.analysis) :
    s.FactorsOwn ys ↔ KeepsPatterns (last.toList ++ ys.filterMap s.factored?) := by
  induction ys generalizing s last with
  | nil => cases last <;> simp [FactorsOwn, KeepsPatterns]
  | cons y ys ih =>
      have hsame : (s.solveSystem y).2.factored? = s.factored? (α := α) :=
        funext (s.factored?_solveSystem y)
      rw [factorsOwn_cons]
      cases hy : s.factored? y with
      | none =>
          have hkept : (s.solveSystem y).2.analysis = last.map Outline.analysis := by
            rw [solveSystem_snd, hy]
            exact hs
          rw [ih _ hkept, hsame, List.filterMap_cons_none hy]
          exact and_iff_right nofun
      | some q =>
          have hown : (∀ r ∈ some q, remember s.analysis r = some r.analysis) ↔
              ∀ r ∈ last, r.dimension = q.dimension → r.pattern = q.pattern := by
            rw [← remember_analysis_eq_iff, hs]
            exact ⟨fun h => h q rfl, fun h r hr => by cases hr; exact h⟩
          rw [hown, List.filterMap_cons_some hy, keepsPatterns_cons]
          refine and_congr_right fun hq => ?_
          have hkept : (s.solveSystem y).2.analysis = (some q).map Outline.analysis := by
            rw [solveSystem_snd, hy]
            exact hown.mpr hq q rfl
          rw [ih _ hkept, hsame]
          rfl

/-- If every factorization works from its own analysis, no answer depends on the
systems before. -/
theorem FactorsOwn.answers_eq (h : s.FactorsOwn ys) :
    s.answers ys = ys.map fun y => ((s.remembering none).solveSystem y).1 := by
  induction ys generalizing s with
  | nil => rfl
  | cons y ys ih =>
      obtain ⟨hown, hrest⟩ := factorsOwn_cons.mp h
      have hfirst : (s.solveSystem y).1 = ((s.remembering none).solveSystem y).1 :=
        solveSystem_fst_congr hown
      have hnew : (s.solveSystem y).2.remembering none = s.remembering none := by
        rw [solveSystem_snd]
        rfl
      rw [answers, ih hrest, hnew, hfirst, List.map_cons]

/-! ## Created solvers -/

theorem analysis_create (h : create? o = .ok s) : s.analysis = none := by
  unfold create? at h
  split_ifs at h
  cases h
  rfl

/-- A created solver in the course of some systems. What it remembers is what one
factorization after the other has left behind. Every factorization works from the
analysis of its own matrix if and only if no pattern changes between one factored
matrix and the next of the same dimension. In that case every answer is that of
the solver as it was created. -/
theorem solve_history (h : create? o = .ok s) (ys : List (LinearSystem α)) :
    s.after ys = s.remembering ((ys.filterMap s.factored?).foldl remember none) ∧
    (s.FactorsOwn ys ↔ KeepsPatterns (ys.filterMap s.factored?)) ∧
    (KeepsPatterns (ys.filterMap s.factored?) →
      s.answers ys = ys.map fun y => (s.solveSystem y).1) := by
  have hnone := analysis_create h
  have hown : s.FactorsOwn ys ↔ KeepsPatterns (ys.filterMap s.factored?) :=
    factorsOwn_iff_of_last none hnone
  have hnew : s.remembering none = s := by
    rw [← hnone]
    rfl
  refine ⟨hnone ▸ s.after_eq ys, hown, fun hkeeps => ?_⟩
  rw [(hown.mpr hkeeps).answers_eq, hnew]

/-- Two equations in one unknown each. -/
noncomputable def twoEquations : BlockMatrix ℝ where
  columns := [⟨1, 0⟩, ⟨1, 1⟩]
  rows := [⟨⟨1, 0⟩, [⟨0, Mat.ofRows 1 [[1]]⟩]⟩, ⟨⟨1, 1⟩, [⟨1, Mat.ofRows 1 [[1]]⟩]⟩]

theorem wellFormed_twoEquations : twoEquations.WellFormed where
  columns := rfl
  rows := rfl
  ascending := by
    simp [twoEquations, Ascending.Sorted]
  shapes := by
    simp [twoEquations, Mat.ofRows]

/-- A system whose normal matrix is diagonal. -/
noncomputable def apart : LinearSystem ℝ :=
  ⟨twoEquations, Vec.ofList [3, 5], ⟨some (Vec.ofList [1, 1]), 1⟩⟩

/-- A system of the same dimension whose normal matrix has no zero. -/
noncomputable def coupled : LinearSystem ℝ :=
  ⟨oneEquation, Vec.ofList [3], ⟨some (Vec.ofList [1, 1]), 1⟩⟩

theorem factored?_apart (hs : s.kind = .sparseNormalCholesky) :
    s.factored? apart = some ⟨2, [(0, 0), (1, 1)]⟩ := by
  rw [factored?, hs]
  rfl

theorem factored?_coupled (hs : s.kind = .sparseNormalCholesky) :
    s.factored? coupled = some ⟨2, [(0, 0), (0, 1), (1, 0), (1, 1)]⟩ := by
  rw [factored?, hs]
  rfl

/-- The same system twice is answered in the same way twice. With another one of
the same dimension before it, its factorization does not have its own analysis. -/
theorem solve_history_coupled :
    ∃ s : LinearSolver, create? { kind := .sparseNormalCholesky } = .ok s ∧
      s.FactorsOwn [coupled, coupled] ∧
      (∃ found, s.answers [coupled, coupled] = [.ok found, .ok found]) ∧
      ¬s.FactorsOwn [apart, coupled] := by
  refine ⟨_, rfl, ?_⟩
  generalize hs : LinearSolver.mk _ _ _ _ _ _ = s
  have hcreate : create? { kind := .sparseNormalCholesky } = .ok s := hs ▸ rfl
  have hkind : s.kind = .sparseNormalCholesky := hs ▸ rfl
  have hkeeps : KeepsPatterns ([coupled, coupled].filterMap s.factored?) := by
    rw [List.filterMap_cons_some (factored?_coupled hkind),
      List.filterMap_cons_some (factored?_coupled hkind)]
    exact List.isChain_cons_cons.mpr ⟨fun _ => rfl, List.isChain_singleton _⟩
  obtain ⟨found, hfound⟩ := exists_solve_oneEquation hcreate (b := Vec.ofList [3]) rfl
  refine ⟨(solve_history hcreate _).2.1.mpr hkeeps, ⟨found, ?_⟩, fun hown => ?_⟩
  · rw [(solve_history hcreate _).2.2 hkeeps]
    exact congrArg (fun r => [r, r]) hfound
  · have hchange := (solve_history hcreate _).2.1.mp hown
    rw [List.filterMap_cons_some (factored?_apart hkind),
      List.filterMap_cons_some (factored?_coupled hkind)] at hchange
    cases (List.isChain_cons_cons.mp hchange).1 rfl

/-- A solver may meet a fault at a system that it solves as it was created: the
analysis of a diagonal matrix has no room for a matrix of the same dimension
without zeros. -/
theorem not_answers_independent :
    ∃ s : LinearSolver, create? { kind := .sparseNormalCholesky } = .ok s ∧
      apart.matrix.WellFormed ∧ coupled.matrix.WellFormed ∧
      ¬s.FactorsOwn [apart, coupled] ∧
      (∃ found, (s.solveSystem coupled).1 = .ok found) ∧
      ((s.solveSystem apart).2.solveSystem coupled).1 = .error (.fault .patternMismatch) := by
  refine ⟨_, rfl, wellFormed_twoEquations, wellFormed_oneEquation, ?_,
    exists_solve_oneEquation rfl rfl, ?_⟩
  · intro hown
    have hlast := hown [apart] coupled (List.prefix_refl _) _ (factored?_coupled rfl)
    rw [after_eq, List.singleton_append, List.filterMap_cons_some (factored?_apart rfl),
      List.filterMap_cons_some (factored?_coupled rfl)] at hlast
    cases congrArg (Option.map SparsityAnalysis.pattern) hlast
  · refine solveSystem_overfull ((factored?_solveSystem _ _ _).trans (factored?_coupled rfl)) ?_
    rw [solveSystem_snd, factored?_apart rfl]
    decide

end LinearSolver

end LeastSquares
