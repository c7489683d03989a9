import LeastSquares.LinearSolver.Solver
import LeastSquares.Proofs.IterativeSolvers
import LeastSquares.Proofs.ReflectionSolver

/-!
# Linear solvers over the real numbers

A linear solver that was created for a structure and has since solved systems
of that structure only finds, in exact arithmetic, a vector at which the model
of the normal equations is lower than at zero, whenever the normal matrix is
positive definite and there is anything to gain. The solvers that factor a
matrix find the solution itself. The others may stop early and still do not
fail.

## Main definitions

* `BlockMatrix.shape` — the structure of a matrix without the numbers.
* `LinearSolver.Prepared` — the solvers of a structure.

## Main results

* `sparseNormal?_spec` — the solution by a sparse factorization.
* `LinearSolver.Suits.solve_direct` — solvers that factor find the solution.
* `LinearSolver.Prepared.suits` — created solvers suit the structure.
* `LinearSolver.Suits.solve_spec` — the result of every solver.
-/

namespace LeastSquares

open Matrix

/-! ## Structures -/

namespace BlockMatrix

variable {a a' : BlockMatrix ℝ} {k l count : Nat}

/-- The blocks of a matrix and the columns in which its rows have cells. -/
def shape (a : BlockMatrix ℝ) : List Block × List (Block × List Nat) :=
  (a.columns, a.rows.map fun row => (row.block, row.cells.map Cell.column))

theorem isSome_cell? (row : BlockRow ℝ) (k : Nat) :
    (row.cell? k).isSome = decide (k ∈ row.cells.map Cell.column) := by
  rw [Bool.eq_iff_iff, decide_eq_true_iff, Option.isSome_iff_ne_none, Ne,
    BlockRow.cell?_eq_none_iff, not_not]

/-- What is asked of the rows without the numbers has one answer for all
matrices of a structure. -/
theorem any_rows_congr (h : a'.shape = a.shape) (P : Block → List Nat → Bool) :
    (a'.rows.any fun row => P row.block (row.cells.map Cell.column)) =
      a.rows.any fun row => P row.block (row.cells.map Cell.column) := by
  have hany : ∀ m : BlockMatrix ℝ, (m.rows.any fun row => P row.block (row.cells.map Cell.column)) =
      m.shape.2.any fun p => P p.1 p.2 := fun m => by
    rw [shape, List.any_map]
    rfl
  rw [hany, hany, h]

theorem columns_congr (h : a'.shape = a.shape) : a'.columns = a.columns := congrArg Prod.fst h

theorem normalPattern_congr (h : a'.shape = a.shape) : a'.normalPattern = a.normalPattern := by
  have hcouples := fun k l => any_rows_congr h fun b columns =>
    b.size != 0 && decide (k ∈ columns) && decide (l ∈ columns)
  simp only [normalPattern, isSome_cell?, hcouples, columns_congr h]

theorem coupled_congr (h : a'.shape = a.shape) (count k l : Nat) :
    a'.coupled count k l = a.coupled count k l := by
  have hmeet : ∀ k l, a'.meet k l = a.meet k l := by
    intro k l
    simp only [meet, isSome_cell?]
    exact any_rows_congr h fun _ columns => decide (k ∈ columns) && decide (l ∈ columns)
  simp only [coupled, hmeet]

theorem reducedPattern_congr (h : a'.shape = a.shape) (count : Nat) :
    a'.reducedPattern count = a.reducedPattern count := by
  simp only [reducedPattern, remaining, coupled_congr h, columns_congr h]

theorem separates_congr (h : a'.shape = a.shape) (count : Nat) :
    a'.Separates count ↔ a.Separates count := by
  have hseparates : ∀ m : BlockMatrix ℝ, m.Separates count ↔ ∀ p ∈ m.shape.2, ∀ k ∈ p.2,
      ∀ l ∈ p.2, k < count → l < count → k = l := by
    intro m
    simp only [Separates, shape, List.forall_mem_map]
  rw [hseparates, hseparates, h]

theorem numRows_congr (h : a'.shape = a.shape) : a'.numRows = a.numRows := by
  have hrows : ∀ m : BlockMatrix ℝ, m.numRows = total (m.shape.2.map fun p => p.1.size) := by
    intro m
    rw [shape, List.map_map]
    rfl
  rw [hrows, hrows, h]

theorem keepsPattern_congr (h : a'.shape = a.shape) (count : Nat)
    (kept : Option SparsityAnalysis) : KeepsPattern a' count kept ↔ KeepsPattern a count kept := by
  rw [KeepsPattern, KeepsPattern, reducedPattern_congr h, Elimination.keptSize,
    Elimination.keptSize, columns_congr h]

/-- A right-hand side with an entry for every row reaches every row. -/
theorem WellFormed.leftMultiply?_eq {b : Vec ℝ} (ha : a.WellFormed) (hb : b.size = a.numRows) :
    a.leftMultiply? b = .ok (a.leftMultiply b) :=
  if_pos (ha.fitsLeft_iff.mpr hb.ge)

end BlockMatrix

/-! ## Sparse factorizations -/

section Sparse

variable {a : BlockMatrix ℝ} {b d2 : Vec ℝ} {d : Option (Vec ℝ)} {kept : Option SparsityAnalysis}

/-- With an analysis of its own pattern the sparse solver solves the normal
equations. -/
theorem sparseNormal?_spec (ha : a.WellFormed) (hb : b.size = a.numRows)
    (hd : regularizerSquared d a.numCols = .ok d2) (h : (normalSystem a d2).PosDef)
    (hkept : SparsityAnalysis.Fits kept a.numCols a.normalPattern) :
    ∃ x, (sparseNormal? kept a b d).1 = .ok x ∧ x.size = a.numCols ∧
      normalSystem a d2 *ᵥ x.toFun a.numCols = a.toMatrixᵀ *ᵥ b.toFun a.numRows := by
  obtain ⟨hdim, hpattern⟩ := SparsityAnalysis.reuse_spec hkept
  rw [← toMatrix_normalMatrix] at h
  obtain ⟨x, hx, hsize, hsolve⟩ := Factorizations.exact_provided.solveSparse (a.leftMultiply b) hdim hpattern h
  rw [toMatrix_normalMatrix, ha.toFun_leftMultiply] at hsolve
  refine ⟨x, ?_, hsize, hsolve⟩
  rw [sparseNormal?, hd, ha.leftMultiply?_eq hb]
  exact hx

/-- The analysis that is left behind is one of the pattern, if the one before
was. -/
theorem fits_sparseNormal? (hkept : SparsityAnalysis.Fits kept a.numCols a.normalPattern)
    (b : Vec ℝ) (d : Option (Vec ℝ)) :
    SparsityAnalysis.Fits (sparseNormal? kept a b d).2 a.numCols a.normalPattern := by
  unfold sparseNormal?
  split
  · exact hkept
  · split
    · exact hkept
    · rintro s ⟨⟩ -
      exact (SparsityAnalysis.reuse_spec hkept).2

/-- The solver by elimination solves the normal equations. -/
theorem schurDirect?_spec (sparse : Bool) (kept : Option SparsityAnalysis) {count : Nat}
    (ha : a.WellFormed)
    (hcount : count ≤ a.columns.length) (hsep : a.Separates count) (hb : b.size = a.numRows)
    (hd : regularizerSquared d a.numCols = .ok d2) (h : (normalSystem a d2).PosDef)
    (hkept : sparse = true → KeepsPattern a count kept) :
    ∃ x, (schurDirect? sparse kept count a b d).1 = .ok x ∧ x.size = a.numCols ∧
      normalSystem a d2 *ᵥ x.toFun a.numCols = a.toMatrixᵀ *ᵥ b.toFun a.numRows := by
  obtain ⟨w, hw, hs⟩ := Elimination.new?_eq_ok ha hcount (hsep.length_le_one ha) hb
    (size_of_regularizerSquared hd) fun e he c hc => by
      have h := Elimination.posDef_pivotBlock ha hcount hsep h he
      rwa [BlockMatrix.column_eq hc] at h
  obtain ⟨y, hy, hreduced, hschur⟩ := schurDirect?_reduced ha hsep hw h hd hs hkept
  exact ⟨_, hschur, (Elimination.get_backSubstitute ha hw
    (hy.trans Elimination.dimension_ofInverses.symm)).1,
    Elimination.normalSystem_mulVec_backSubstitute ha hsep hw hy hreduced⟩

end Sparse

/-! ## Solvers of a structure -/

namespace LinearSolver

variable {o : LinearSolverOptions} {s : LinearSolver} {a a' : BlockMatrix ℝ} {b d2 : Vec ℝ}

/-- The solvers that are created from some options and have since solved systems
of one structure only. -/
inductive Prepared (o : LinearSolverOptions) (a : BlockMatrix ℝ) : LinearSolver → Prop where
  | create {s : LinearSolver} (h : create? o = .ok s) : Prepared o a s
  | solve {s : LinearSolver} {a' : BlockMatrix ℝ} (h : Prepared o a s) (hshape : a'.shape = a.shape)
      (b : Vec ℝ) (settings : SolveSettings ℝ) : Prepared o a (s.solve a' b settings).2

/-- A solver by elimination finds no row that reads two of the column blocks that
it eliminates. -/
def Eliminates (o : LinearSolverOptions) (a : BlockMatrix ℝ) : Prop :=
  o.kind.isSchur = true → o.eliminationGroups.headD 0 ≤ a.columns.length ∧
    a.Separates (o.eliminationGroups.headD 0)

theorem Prepared.congr (hs : s.Prepared o a) (h : a'.shape = a.shape) : s.Prepared o a' := by
  induction hs with
  | create hs => exact .create hs
  | solve _ hshape b settings ih => exact .solve ih (hshape.trans h.symm) b settings

theorem Eliminates.congr (he : Eliminates o a) (h : a'.shape = a.shape) : Eliminates o a' := by
  intro hschur
  obtain ⟨hcount, hsep⟩ := he hschur
  rw [BlockMatrix.columns_congr h]
  exact ⟨hcount, (BlockMatrix.separates_congr h _).mpr hsep⟩

/-- What a solver needs to know of a structure. -/
structure Suits (s : LinearSolver) (o : LinearSolverOptions) (a : BlockMatrix ℝ) : Prop where
  kind : s.kind = o.kind
  iterations : s.maxIterations ≠ 0
  eliminated : s.eliminated = o.eliminationGroups.headD 0
  normal : s.kind = .sparseNormalCholesky →
    SparsityAnalysis.Fits s.analysis a.numCols a.normalPattern
  reduced : s.kind = .sparseSchur → KeepsPattern a s.eliminated s.analysis

theorem suits_create (a : BlockMatrix ℝ) (h : create? o = .ok s) : s.Suits o a := by
  unfold create? at h
  split at h
  · cases h
  · split at h
    · cases h
    · split at h
      · cases h
      · split at h
        · cases h
        · rename_i hbounds
          split at h
          · cases h
          · cases h
            have hbounds : o.maxIterations ≠ 0 := by
              simp only [Bool.or_eq_true, decide_eq_true_eq] at hbounds
              omega
            exact ⟨rfl, hbounds, rfl, fun _ => nofun, fun _ => nofun⟩

/-- Solving a system of the structure keeps what the solver knows of it. -/
theorem Suits.solve (hs : s.Suits o a) (hshape : a'.shape = a.shape) (b : Vec ℝ)
    (settings : SolveSettings ℝ) : (s.solve a' b settings).2.Suits o a := by
  have hcols : a'.numCols = a.numCols := by
    rw [BlockMatrix.numCols, BlockMatrix.columns_congr hshape, BlockMatrix.numCols]
  unfold LinearSolver.solve
  dsimp only
  split
  case h_3 hkind =>
    refine ⟨hs.kind, hs.iterations, hs.eliminated, fun hkind => ?_, fun hother => ?_⟩
    · have hfits := hs.normal hkind
      rw [← BlockMatrix.normalPattern_congr hshape, ← hcols] at hfits ⊢
      exact fits_sparseNormal? hfits b settings.regularizer
    · cases hkind.symm.trans hother
  case h_5 hkind =>
    refine ⟨hs.kind, hs.iterations, hs.eliminated, fun hother => ?_, fun hkind => ?_⟩
    · cases hkind.symm.trans hother
    · rw [← BlockMatrix.keepsPattern_congr hshape]
      exact KeepsPattern.schurDirect? ((BlockMatrix.keepsPattern_congr hshape _ _).mpr
        (hs.reduced hkind)) true b settings.regularizer
  all_goals exact hs

/-- Created solvers suit the structure that they have solved. -/
theorem Prepared.suits (h : Prepared o a s) : s.Suits o a := by
  induction h with
  | create h => exact suits_create a h
  | solve _ hshape b settings ih => exact ih.solve hshape b settings

/-- The structure is one that the blocks which the solver eliminates can be
eliminated from. -/
theorem Suits.separates (hs : s.Suits o a) (helim : Eliminates o a)
    (hschur : s.kind.isSchur = true) :
    s.eliminated ≤ a.columns.length ∧ a.Separates s.eliminated := by
  rw [hs.eliminated]
  exact helim (hs.kind ▸ hschur)

/-- Solvers that factor find the solution of a positive definite system of their
structure. -/
theorem Suits.solve_direct (hs : s.Suits o a) (helim : Eliminates o a) (ha : a.WellFormed)
    (hkind : s.kind.isIterative = false) (settings : SolveSettings ℝ) (hb : b.size = a.numRows)
    (hd : regularizerSquared settings.regularizer a.numCols = .ok d2)
    (h : (normalSystem a d2).PosDef) :
    ∃ found, (s.solve a b settings).1 = .ok found ∧ found.x.size = a.numCols ∧
      normalSystem a d2 *ᵥ found.x.toFun a.numCols = a.toMatrixᵀ *ᵥ b.toFun a.numRows := by
  unfold LinearSolver.solve
  cases hsame : s.kind with
  | denseNormalCholesky =>
      obtain ⟨x, hx, hsolved⟩ := denseNormal?_spec hd hb h
      exact ⟨direct x, congrArg (Except.map direct) hx, hsolved⟩
  | denseQR =>
      obtain ⟨x, hx, hsolved⟩ := denseReflections?_spec hd hb h
      exact ⟨direct x, congrArg (fun r => Outcome.ofExcept (Except.map direct r)) hx, hsolved⟩
  | sparseNormalCholesky =>
      obtain ⟨x, hx, hsolved⟩ := sparseNormal?_spec ha hb hd h (hs.normal hsame)
      exact ⟨direct x, congrArg (Except.map direct) hx, hsolved⟩
  | denseSchur =>
      obtain ⟨hcount, hsep⟩ := hs.separates helim (hsame ▸ rfl)
      obtain ⟨x, hx, hsolved⟩ := schurDirect?_spec false none ha hcount hsep hb hd h nofun
      exact ⟨direct x, congrArg (Except.map direct) hx, hsolved⟩
  | sparseSchur =>
      obtain ⟨hcount, hsep⟩ := hs.separates helim (hsame ▸ rfl)
      obtain ⟨x, hx, hsolved⟩ := schurDirect?_spec true s.analysis ha hcount hsep hb hd h
        fun _ => hs.reduced hsame
      exact ⟨direct x, congrArg (Except.map direct) hx, hsolved⟩
  | iterativeSchur => exact absurd (hsame ▸ hkind) nofun
  | conjugateGradients => exact absurd (hsame ▸ hkind) nofun

/-- The result of a linear solver: no solver fails on a positive definite system
of its structure, and the vector that it returns lowers the model of the normal
equations if anything does. -/
theorem Suits.solve_spec (hs : s.Suits o a) (helim : Eliminates o a) (ha : a.WellFormed)
    (settings : SolveSettings ℝ) (hb : b.size = a.numRows)
    (hd : regularizerSquared settings.regularizer a.numCols = .ok d2)
    (h : (normalSystem a d2).PosDef) :
    ∃ found, (s.solve a b settings).1 = .ok found ∧ found.x.size = a.numCols ∧
      (a.toMatrixᵀ *ᵥ b.toFun a.numRows ≠ 0 →
        quadratic (normalSystem a d2) (a.toMatrixᵀ *ᵥ b.toFun a.numRows)
          (found.x.toFun a.numCols) < 0) := by
  cases hkind : s.kind.isIterative with
  | false =>
      -- The model is lowest at the solution.
      obtain ⟨found, hfound, hsize, hsolved⟩ := hs.solve_direct helim ha hkind settings hb hd h
      exact ⟨found, hfound, hsize, (quadratic_of_solves h hsolved).2⟩
  | true =>
      unfold LinearSolver.solve
      cases hsame : s.kind with
      | iterativeSchur =>
          obtain ⟨hcount, hsep⟩ := hs.separates helim (hsame ▸ rfl)
          obtain ⟨found, hfound, hx⟩ := schurGradients?_spec ha hcount hsep hb hd h
            s.preconditioner s.minIterations hs.iterations settings.tolerance
          exact ⟨found, congrArg Outcome.ofExcept hfound, hx⟩
      | conjugateGradients =>
          obtain ⟨found, hfound, hx⟩ := normalGradients?_spec ha hb hd h s.preconditioner
            s.minIterations hs.iterations settings.tolerance
          exact ⟨found, congrArg Outcome.ofExcept hfound, hx⟩
      | _ => exact absurd (hsame ▸ hkind) nofun

end LinearSolver

end LeastSquares
