import LeastSquares.Proofs.LinearSolvers

/-!
# Systems whose sizes disagree

A linear system is a matrix, a right-hand side with an entry for every row and,
if there is one, a regularizer with an entry for every column. A regularizer of
another size is refused by every solver with a fatal error. A right-hand side of
another size is refused in the same way by all but two solvers. These factor the
normal matrix and do not compare the sizes first: the dense solver meets a
fault, and the sparse one meets a fault if the right-hand side is too short and
ignores the entries that are too many.

## Main definitions

* `LinearSystem.Misfit` — a size disagrees with the matrix.
* `LinearSolver.Refuses` — a fatal error about sizes, and a solver as before.

## Main results

* `LinearSolver.refuses_misfit`, `LinearSolver.refuses_regularizer` — the
  systems that are refused.
* `LinearSolver.solve_misfit` — every solver on sizes that disagree.
-/

namespace LeastSquares

variable {α : Type} [Scalar α] {a : BlockMatrix α} {b : Vec α} {d : Option (Vec α)}

/-! ## The entries that a product reads -/

theorem Vec.slice_slice {v : Vec α} {n start m : Nat} (h : start + m ≤ n) :
    (v.slice 0 n).slice start m = v.slice start m := by
  refine ext_get (by rw [size_slice, size_slice]) fun i hi => ?_
  rw [size_slice] at hi
  rw [get_slice hi, get_slice (by omega), get_slice hi, Nat.zero_add]

/-- A product with the transpose reads one entry for every row. -/
theorem BlockMatrix.WellFormed.leftMultiply_slice (ha : a.WellFormed) (y : Vec α) :
    a.leftMultiply (y.slice 0 a.numRows) = a.leftMultiply y := by
  refine congrArg (fun f => Vec.concat (a.columns.mapIdx f)) (funext fun k => funext fun b => ?_)
  refine List.foldl_ext _ _ _ fun acc row hrow => ?_
  rw [Vec.slice_slice (ha.stop_row_le hrow)]

/-! ## Comparing sizes -/

/-- The right-hand side or the regularizer has another size than the matrix asks
for. -/
def LinearSystem.Misfit (a : BlockMatrix α) (b : Vec α) (d : Option (Vec α)) : Prop :=
  b.size ≠ a.numRows ∨ ∃ u ∈ d, u.size ≠ a.numCols

open LinearSystem (Misfit)

theorem regularizerSquared_misfit {n : Nat} (h : ∃ u ∈ d, u.size ≠ n) :
    ∃ e, regularizerSquared d n = .error e ∧ e.kind = .linearDimensionMismatch := by
  obtain ⟨u, rfl, hu⟩ := h
  exact ⟨_, if_neg hu, rfl⟩

theorem exists_regularizerSquared {n : Nat} (hd : ∀ u ∈ d, u.size = n) :
    ∃ d2, regularizerSquared d n = .ok d2 := by
  cases d with
  | none => exact ⟨_, rfl⟩
  | some u => exact ⟨_, if_pos (hd u rfl)⟩

theorem denseReflections?_misfit (h : Misfit a b d) :
    ∃ e, denseReflections? a b d = .error e ∧ e.kind = .linearDimensionMismatch := by
  unfold denseReflections?
  by_cases hb : b.size = a.numRows
  · obtain ⟨u, rfl, hu⟩ := h.resolve_left (not_not.mpr hb)
    simp only [hb, hu, ne_eq, not_true_eq_false, not_false_eq_true, if_true, if_false]
    exact ⟨_, rfl, rfl⟩
  · simp only [hb, ne_eq, not_false_eq_true, if_true]
    exact ⟨_, rfl, rfl⟩

theorem normalGradients?_misfit (h : Misfit a b d) (kind : PreconditionerKind)
    (minIterations maxIterations : Nat) (tolerance : α) :
    ∃ e, normalGradients? kind minIterations maxIterations a b d tolerance = .error e ∧
      e.kind = .linearDimensionMismatch := by
  unfold normalGradients?
  by_cases hb : b.size = a.numRows
  · obtain ⟨e, he, hkind⟩ := regularizerSquared_misfit (h.resolve_left (not_not.mpr hb))
    simp only [hb, he, ne_eq, not_true_eq_false, if_false]
    exact ⟨e, rfl, hkind⟩
  · simp only [hb, ne_eq, not_false_eq_true, if_true]
    exact ⟨_, rfl, rfl⟩

/-- An elimination compares the size of the right-hand side, after the number of
blocks that it eliminates. -/
theorem Elimination.new?_misfit (hb : b.size ≠ a.numRows) (d2 : Vec α) (count : Nat) :
    ∃ e, Elimination.new? a b d2 count = .error e ∧ e.kind = .linearDimensionMismatch := by
  unfold Elimination.new?
  by_cases hcount : a.columns.length < count
  · rw [if_pos hcount]
    exact ⟨_, rfl, rfl⟩
  · rw [if_neg hcount, if_pos (.inl hb)]
    exact ⟨_, rfl, rfl⟩

theorem elimination_misfit (h : Misfit a b d) (count : Nat) :
    ∃ e, (regularizerSquared d a.numCols >>= fun d2 => Elimination.new? a b d2 count) = .error e ∧
      e.kind = .linearDimensionMismatch := by
  by_cases hd : ∃ u ∈ d, u.size ≠ a.numCols
  · obtain ⟨e, he, hkind⟩ := regularizerSquared_misfit hd
    rw [he]
    exact ⟨e, rfl, hkind⟩
  · obtain ⟨d2, hd2⟩ := exists_regularizerSquared (d := d) (n := a.numCols)
      fun u hu => by_contra fun hne => hd ⟨u, hu, hne⟩
    rw [hd2]
    exact Elimination.new?_misfit (h.resolve_right hd) d2 count

theorem schurDirect?_misfit (h : Misfit a b d) (sparse : Bool) (kept : Option SparsityAnalysis)
    (count : Nat) :
    ∃ e, schurDirect? sparse kept count a b d = (.error (.error e), kept) ∧
      e.kind = .linearDimensionMismatch := by
  obtain ⟨e, he, hkind⟩ := elimination_misfit h count
  refine ⟨e, ?_, hkind⟩
  rw [schurDirect?, he]

theorem schurGradients?_misfit (h : Misfit a b d) (kind : PreconditionerKind)
    (minIterations maxIterations count : Nat) (tolerance : α) :
    ∃ e, schurGradients? kind minIterations maxIterations count a b d tolerance = .error e ∧
      e.kind = .linearDimensionMismatch := by
  obtain ⟨e, he, hkind⟩ := elimination_misfit h count
  refine ⟨e, ?_, hkind⟩
  rw [schurGradients?, ← bind_assoc, he]
  rfl

/-! ## The normal equations -/

theorem denseNormal?_regularizer (hd : ∃ u ∈ d, u.size ≠ a.numCols) (b : Vec α) :
    ∃ e, denseNormal? a b d = .error (.error e) ∧ e.kind = .linearDimensionMismatch := by
  obtain ⟨e, he, hkind⟩ := regularizerSquared_misfit hd
  refine ⟨e, ?_, hkind⟩
  rw [denseNormal?, he]
  rfl

theorem denseNormal?_rightHandSide (hd : ∀ u ∈ d, u.size = a.numCols)
    (hb : b.size ≠ a.numRows) : denseNormal? a b d = .error (.fault .sizeMismatch) := by
  obtain ⟨d2, hd2⟩ := exists_regularizerSquared hd
  rw [denseNormal?, hd2]
  exact if_pos hb

theorem sparseNormal?_regularizer (hd : ∃ u ∈ d, u.size ≠ a.numCols)
    (kept : Option SparsityAnalysis) (b : Vec α) :
    ∃ e, sparseNormal? kept a b d = (.error (.error e), kept) ∧
      e.kind = .linearDimensionMismatch := by
  obtain ⟨e, he, hkind⟩ := regularizerSquared_misfit hd
  refine ⟨e, ?_, hkind⟩
  rw [sparseNormal?, he]

/-- The sparse solver meets a fault if the right-hand side is too short. -/
theorem sparseNormal?_short (ha : a.WellFormed) (hd : ∀ u ∈ d, u.size = a.numCols)
    (hb : b.size < a.numRows) (kept : Option SparsityAnalysis) :
    sparseNormal? kept a b d = (.error (.fault .sizeMismatch), kept) := by
  obtain ⟨d2, hd2⟩ := exists_regularizerSquared hd
  have hfits : ¬a.fitsLeft b.size = true := fun h => (ha.fitsLeft_iff.mp h).not_gt hb
  rw [sparseNormal?, hd2]
  simp only [BlockMatrix.leftMultiply?, if_neg hfits]

/-- The sparse solver ignores what a right-hand side has too many. -/
theorem sparseNormal?_long (ha : a.WellFormed) (hb : a.numRows ≤ b.size)
    (kept : Option SparsityAnalysis) (d : Option (Vec α)) :
    sparseNormal? kept a b d = sparseNormal? kept a (b.slice 0 a.numRows) d := by
  have hlong : a.leftMultiply? b = .ok (a.leftMultiply b) := if_pos (ha.fitsLeft_iff.mpr hb)
  have hslice : a.leftMultiply? (b.slice 0 a.numRows) = .ok (a.leftMultiply b) := by
    rw [← ha.leftMultiply_slice b]
    exact if_pos (ha.fitsLeft_iff.mpr (Vec.size_slice _ _ _).ge)
  rw [sparseNormal?, sparseNormal?, hlong, hslice]

/-! ## All solvers -/

namespace LinearSolver

variable {s : LinearSolver} {settings : SolveSettings α}

/-- The system is refused with a fatal error about sizes. -/
def Refuses (s : LinearSolver) (a : BlockMatrix α) (b : Vec α) (settings : SolveSettings α) :
    Prop :=
  ∃ e : LinearError, s.solve a b settings = (.error (.error e), s) ∧
    e.kind = .linearDimensionMismatch ∧ e.isFatal = true

theorem Refuses.of_exists
    (h : ∃ e : LinearError, s.solve a b settings = (.error (.error e), s) ∧
      e.kind = .linearDimensionMismatch) : s.Refuses a b settings := by
  obtain ⟨e, he, hkind⟩ := h
  refine ⟨e, he, hkind, ?_⟩
  rw [LinearError.isFatal, hkind]
  rfl

/-- Whether a solver factors the normal matrix. -/
def FactorsNormal (s : LinearSolver) : Prop :=
  s.kind = .denseNormalCholesky ∨ s.kind = .sparseNormalCholesky

/-- Solvers that do not factor the normal matrix compare all sizes. -/
theorem refuses_misfit (hs : ¬s.FactorsNormal) (h : Misfit a b settings.regularizer) :
    s.Refuses a b settings := by
  refine .of_exists ?_
  obtain ⟨kind, preconditioner, minIterations, maxIterations, count, kept⟩ := s
  cases kind with
  | denseNormalCholesky => exact absurd (.inl rfl) hs
  | sparseNormalCholesky => exact absurd (.inr rfl) hs
  | denseQR =>
      obtain ⟨e, he, hmismatch⟩ := denseReflections?_misfit h
      refine ⟨e, ?_, hmismatch⟩
      simp only [solve, he]
      rfl
  | denseSchur =>
      obtain ⟨e, he, hmismatch⟩ := schurDirect?_misfit h false none count
      refine ⟨e, ?_, hmismatch⟩
      simp only [solve, he]
      rfl
  | sparseSchur =>
      obtain ⟨e, he, hmismatch⟩ := schurDirect?_misfit h true kept count
      refine ⟨e, ?_, hmismatch⟩
      simp only [solve, he]
      rfl
  | iterativeSchur =>
      obtain ⟨e, he, hmismatch⟩ := schurGradients?_misfit h preconditioner minIterations
        maxIterations count settings.tolerance
      refine ⟨e, ?_, hmismatch⟩
      simp only [solve, he]
      rfl
  | conjugateGradients =>
      obtain ⟨e, he, hmismatch⟩ := normalGradients?_misfit h preconditioner minIterations
        maxIterations settings.tolerance
      refine ⟨e, ?_, hmismatch⟩
      simp only [solve, he]
      rfl

/-- No solver takes a regularizer of another size. -/
theorem refuses_regularizer (s : LinearSolver) (b : Vec α)
    (hd : ∃ u ∈ settings.regularizer, u.size ≠ a.numCols) : s.Refuses a b settings := by
  by_cases hs : s.FactorsNormal
  · refine .of_exists ?_
    obtain ⟨kind, preconditioner, minIterations, maxIterations, count, kept⟩ := s
    obtain rfl | rfl : kind = _ ∨ kind = _ := hs
    · obtain ⟨e, he, hmismatch⟩ := denseNormal?_regularizer hd b
      refine ⟨e, ?_, hmismatch⟩
      simp only [solve, he]
      rfl
    · obtain ⟨e, he, hmismatch⟩ := sparseNormal?_regularizer hd kept b
      refine ⟨e, ?_, hmismatch⟩
      simp only [solve, he]
      rfl
  · exact refuses_misfit hs (.inr hd)

theorem solve_denseNormal_misfit (hd : ∀ u ∈ settings.regularizer, u.size = a.numCols)
    (hkind : s.kind = .denseNormalCholesky) (hb : b.size ≠ a.numRows) :
    s.solve a b settings = (.error (.fault .sizeMismatch), s) := by
  rw [solve, hkind]
  dsimp only
  rw [denseNormal?_rightHandSide hd hb]
  rfl

theorem solve_sparseNormal_short (ha : a.WellFormed)
    (hd : ∀ u ∈ settings.regularizer, u.size = a.numCols)
    (hkind : s.kind = .sparseNormalCholesky) (hb : b.size < a.numRows) :
    s.solve a b settings = (.error (.fault .sizeMismatch), s) := by
  obtain ⟨kind, preconditioner, minIterations, maxIterations, count, kept⟩ := s
  obtain rfl : kind = _ := hkind
  simp only [solve, sparseNormal?_short ha hd hb kept]
  rfl

theorem solve_sparseNormal_long (ha : a.WellFormed) (hkind : s.kind = .sparseNormalCholesky)
    (hb : a.numRows < b.size) :
    s.solve a b settings = s.solve a (b.slice 0 a.numRows) settings := by
  rw [solve, solve, hkind]
  dsimp only
  rw [sparseNormal?_long ha hb.le s.analysis settings.regularizer]

/-- Every solver on sizes that disagree. A misfit regularizer is refused, and so
is a misfit right-hand side by a solver that does not factor the normal matrix.
If the regularizer fits, the dense solver of the normal equations meets a fault.
The sparse one meets a fault if the right-hand side is short, and solves for its
beginning if it is long. -/
theorem solve_misfit (ha : a.WellFormed) (s : LinearSolver) (b : Vec α)
    (settings : SolveSettings α) :
    (¬s.FactorsNormal → Misfit a b settings.regularizer → s.Refuses a b settings) ∧
    ((∃ u ∈ settings.regularizer, u.size ≠ a.numCols) → s.Refuses a b settings) ∧
    ((∀ u ∈ settings.regularizer, u.size = a.numCols) →
      (s.kind = .denseNormalCholesky → b.size ≠ a.numRows →
        s.solve a b settings = (.error (.fault .sizeMismatch), s)) ∧
      (s.kind = .sparseNormalCholesky → b.size < a.numRows →
        s.solve a b settings = (.error (.fault .sizeMismatch), s)) ∧
      (s.kind = .sparseNormalCholesky → a.numRows < b.size →
        s.solve a b settings = s.solve a (b.slice 0 a.numRows) settings)) :=
  ⟨refuses_misfit, s.refuses_regularizer b, fun hd => ⟨solve_denseNormal_misfit hd,
    solve_sparseNormal_short ha hd, solve_sparseNormal_long ha⟩⟩

theorem exists_solve_oneEquation {s : LinearSolver}
    (hs : create? { kind := .sparseNormalCholesky } = .ok s) {b : Vec ℝ} (hb : b.size = 1) :
    ∃ found, (s.solve oneEquation b ⟨some (Vec.ofList [1, 1]), 1⟩).1 = .ok found := by
  obtain ⟨d2, hd2, -, hsquare⟩ := regularizerSquared_spec (n := oneEquation.numCols)
    (d := some (Vec.ofList [1, 1])) fun u hu => by
      cases hu
      rfl
  have hpos : (normalSystem oneEquation d2).PosDef := by
    rw [normalSystem, hsquare]
    refine posDef_regularized ?_
    rintro (_ | _ | i) hi
    · simp [Vec.get, Vec.ofList]
    · simp [Vec.get, Vec.ofList]
    · exact absurd hi (Nat.not_lt.mpr (Nat.le_add_left 2 i))
  obtain ⟨found, hfound, -⟩ := (suits_create oneEquation hs).solve_spec (fun h => by cases h)
    wellFormed_oneEquation ⟨some (Vec.ofList [1, 1]), 1⟩ hb hd2 hpos
  exact ⟨found, hfound⟩

/-- Two entries for the one row of a matrix: the dense solver of the normal
equations meets a fault, the sparse one solves for the first entry, and the
solver that works with reflections refuses the system. -/
theorem solve_misfit_oneEquation :
    let b : Vec ℝ := Vec.ofList [3, 5]
    let settings : SolveSettings ℝ := ⟨some (Vec.ofList [1, 1]), 1⟩
    ∃ dense sparse reflections,
      create? { kind := .denseNormalCholesky } = .ok dense ∧
      create? { kind := .sparseNormalCholesky } = .ok sparse ∧
      create? { kind := .denseQR } = .ok reflections ∧
        dense.solve oneEquation b settings = (.error (.fault .sizeMismatch), dense) ∧
        (∃ found, (sparse.solve oneEquation b settings).1 = .ok found) ∧
        reflections.Refuses oneEquation b settings := by
  intro b settings
  have hd : ∀ u ∈ settings.regularizer, u.size = oneEquation.numCols := by
    rintro u ⟨⟩
    rfl
  have hb : oneEquation.numRows < b.size := by decide
  refine ⟨_, _, _, rfl, rfl, rfl, ?_, ?_, ?_⟩
  · exact ((solve_misfit wellFormed_oneEquation _ b settings).2.2 hd).1 rfl hb.ne'
  · rw [((solve_misfit wellFormed_oneEquation _ b settings).2.2 hd).2.2 rfl hb]
    exact exists_solve_oneEquation rfl rfl
  · refine (solve_misfit wellFormed_oneEquation _ b settings).1 ?_ (.inl hb.ne')
    rintro (h | h) <;> cases h

/-- A created solver may leave a system whose sizes disagree unrefused. -/
theorem not_refuses_misfit :
    ¬∀ (o : LinearSolverOptions) (s : LinearSolver), create? o = .ok s →
      ∀ a : BlockMatrix ℝ, a.WellFormed → ∀ (b : Vec ℝ) (settings : SolveSettings ℝ),
        Misfit a b settings.regularizer → s.Refuses a b settings := by
  intro h
  have hb : (Vec.ofList [3, 5] : Vec ℝ).size ≠ oneEquation.numRows := by decide
  obtain ⟨e, he, -⟩ := h { kind := .denseNormalCholesky } _ rfl oneEquation
    wellFormed_oneEquation (Vec.ofList [3, 5]) ⟨none, 1⟩ (.inl hb)
  rw [solve_denseNormal_misfit (fun u hu => by cases hu) rfl hb] at he
  cases he

end LinearSolver

end LeastSquares
