import LeastSquares.LinearSolver.Solver
import LeastSquares.Proofs.ReducedSystem
import LeastSquares.Proofs.RunCompletion

/-!
# Sizes of solutions

Whatever a linear solver answers, the vector has an entry for every column of
the matrix: in every arithmetic, for matrices that nothing else is known of, and
with an analysis that belongs to another pattern. A factorization answers with a
vector of the size of its matrix, a search stays among vectors of the size of its
right-hand side, and back substitution puts the eliminated blocks in front of the
others.

## Main results

* `size_denseNormal?`, `size_sparseNormal?` — solutions by factorizations.
* `size_conjugateGradients` — solutions by a search.
* `Elimination.Creates.size_backSubstitute` — solutions by an elimination.
* `LinearSolver.size_solve` — the solution of any solver.
-/

namespace LeastSquares

variable {α : Type} [Scalar α] {a : BlockMatrix α} {b x d2 : Vec α} {d : Option (Vec α)}

/-! ## Factorizations -/

/-- A solution by a dense factorization has an entry for every column. -/
theorem size_denseNormal? (h : denseNormal? a b d = .ok x) : x.size = a.numCols := by
  unfold denseNormal? at h
  obtain ⟨d2, -, h⟩ := except_bind_eq_ok.mp h
  by_cases hb : b.size = a.numRows
  · simp only [hb, ne_eq, not_true_eq_false, if_false] at h
    cases hc : Cholesky.factor? .quotient (normalMatrix a d2) with
    | none =>
        rw [hc] at h
        cases h
    | some c =>
        rw [hc] at h
        cases h
        exact Factorizations.lawful_provided.size_solve hc _
  · simp only [hb, ne_eq, not_false_eq_true, if_true] at h
    cases h

theorem SparsityAnalysis.dimension_reuse (kept : Option SparsityAnalysis) (n : Nat)
    (pattern : List (Nat × Nat)) : (SparsityAnalysis.reuse kept n pattern).dimension = n := by
  unfold SparsityAnalysis.reuse
  split
  · split
    · assumption
    · rfl
  · rfl

theorem size_sparseNormal? {kept : Option SparsityAnalysis}
    (h : (sparseNormal? kept a b d).1 = .ok x) : x.size = a.numCols := by
  unfold sparseNormal? at h
  split at h
  · cases h
  · split at h
    · cases h
    · exact (Factorizations.lawful_provided.size_solveSparse h).trans (SparsityAnalysis.dimension_reuse _ _ _)

/-! ## Searches -/

section Searches

variable {apply precondition : Vec α → Vec α}

theorem GradientState.size_iterate {limits : GradientLimits α} {left done : Nat}
    {s : GradientState α} {found : LinearSolution α}
    (h : iterate apply precondition limits left done s = .ok found) :
    found.x.size = s.x.size := by
  induction left generalizing done s with
  | zero =>
      cases h
      rfl
  | succ left ih =>
      rw [iterate] at h
      unfold step at h
      dsimp only at h
      split at h
      · split at h
        · cases h
        · cases h
          rfl
      · rename_i x hx
        cases h
        split at hx
        · cases hx
        · split at hx
          · cases hx
            exact Vec.size_addScaled _ _ _
          · cases hx
      · rename_i s' hs'
        split at hs'
        · cases hs'
        · split at hs'
          · cases hs'
          · cases hs'
            exact (ih h).trans (Vec.size_addScaled _ _ _)

/-- The result of a search has the size of the right-hand side. -/
theorem size_conjugateGradients {rhs : Vec α} {minIterations maxIterations : Nat}
    {tolerance : α} {found : LinearSolution α}
    (h : conjugateGradients apply precondition rhs minIterations maxIterations tolerance =
      .ok found) : found.x.size = rhs.size := by
  unfold conjugateGradients at h
  dsimp only at h
  split at h
  · cases h
    exact Vec.size_zeros _
  · exact (GradientState.size_iterate h).trans (Vec.size_zeros _)

end Searches

/-! ## Eliminations -/

namespace Elimination

variable {count : Nat} {s : Elimination α}

/-- The inverse of an eliminated block has a row for each of its columns. -/
theorem rows_inverse {e : Nat} {E : EliminatedBlock α}
    (h : eliminateBlock? a b d2 count e = .ok E) : E.inverse.rows = (a.column e).size := by
  unfold eliminateBlock? at h
  dsimp only at h
  split at h
  · cases h
  · rename_i c hc
    cases h
    refine (Factorizations.lawful_provided.rows_inverse hc).trans ?_
    exact List.foldlRecOn (motive := fun m : Mat α => m.rows = (a.column e).size) _ _
      (Vec.size_slice _ _ _) fun _ hrows _ _ => hrows

omit [Scalar α] in
theorem map_size_column (hcount : count ≤ a.columns.length) :
    (List.range count).map (fun e => (a.column e).size) =
      (a.columns.take count).map Block.size := by
  refine List.ext_getElem? fun e => ?_
  rw [List.getElem?_map, List.getElem?_map]
  by_cases he : e < count
  · rw [List.getElem?_range he, List.getElem?_take_of_lt he,
      BlockMatrix.getElem?_column (he.trans_le hcount), Option.map_some, Option.map_some]
  · have hle := Nat.le_of_not_lt he
    rw [List.getElem?_eq_none (by simpa using hle),
      List.getElem?_eq_none (Nat.le_trans (List.length_take_le _ _) hle)]
    rfl

theorem size_reducedRhs_eq (s : Elimination α) : s.reducedRhs.size = s.dimension := by
  have hsum := s.offset_add_dimension
  have hblocks : s.reducedRhs.size = total (s.remaining.map Block.size) := by
    rw [reducedRhs, Vec.size_concat]
    refine congrArg total (Vec.map_size_mapIdx fun k block _ => ?_)
    refine List.foldlRecOn (motive := fun v : Vec α => v.size = block.size) _ _ ?_ ?_
    · refine List.foldlRecOn (motive := fun v : Vec α => v.size = block.size) _ _
        (Vec.size_zeros _) fun v hv row _ => ?_
      split
      · exact (Vec.size_add _ _).trans hv
      · exact hv
    · intro v hv e _
      split
      · exact (Vec.size_sub _ _).trans hv
      · exact hv
  have hsplit : s.matrix.numCols = s.offset + s.reducedRhs.size := by
    rw [hblocks, map_size_remaining, offset, ← total_append, ← List.map_append,
      List.take_append_drop]
    rfl
  omega

/-- Back substitution fills up what the reduced system leaves out. -/
theorem Creates.size_backSubstitute (hs : Creates a b d2 count s) {y : Vec α}
    (hy : y.size = s.dimension) : (s.backSubstitute y).size = a.numCols := by
  have hrows : (List.range count).map (fun e => (a.column e).size) =
      s.eliminated.map fun E => E.inverse.rows :=
    map_eq_map_of_forall₂ hs.blocks fun e E hE => (rows_inverse hE).symm
  have hsum := s.offset_add_dimension
  have hoffset : s.offset = total (s.eliminated.map fun E => E.inverse.rows) := by
    rw [← hrows, map_size_column hs.count_le, offset, hs.eq]
  have hmatrix : s.matrix = a := by rw [hs.eq]
  have hsizes : ∀ u : EliminatedBlock α → Vec α,
      (s.eliminated.map fun E => E.inverse.mulVec (u E)).map Vec.size =
        s.eliminated.map fun E => E.inverse.rows := by
    intro u
    rw [List.map_map]
    exact List.map_congr_left fun E _ => Mat.size_mulVec _ _
  rw [backSubstitute, Vec.size_concat, List.map_append, total_append, hsizes, ← hoffset,
    List.map_singleton, total_cons, total_nil, hy, ← hmatrix]
  exact hsum

end Elimination

theorem size_schurDirect? {sparse : Bool} {kept : Option SparsityAnalysis} {count : Nat}
    (h : (schurDirect? sparse kept count a b d).1 = .ok x) : x.size = a.numCols := by
  unfold schurDirect? at h
  split at h
  · cases h
  · rename_i s hbind
    obtain ⟨d2, -, hnew⟩ := except_bind_eq_ok.mp hbind
    have hs := Elimination.creates_of_new? hnew
    have hfinish : ∀ y : Vec α, y.size = s.dimension →
        (if (s.backSubstitute y).isFinite then Except.ok (s.backSubstitute y)
          else Except.error (Stop.error LinearError.singular)) = .ok x → x.size = a.numCols := by
      intro y hy hx
      exact eq_of_ite_ok hx ▸ hs.size_backSubstitute hy
    dsimp only at h
    split at h
    · rename_i hzero
      exact hfinish _ ((Vec.size_zeros 0).trans hzero.symm) h
    · split at h
      · obtain ⟨y, hy, hx⟩ := except_bind_eq_ok.mp h
        exact hfinish y ((Factorizations.lawful_provided.size_solveSparse hy).trans
          (SparsityAnalysis.dimension_reuse _ _ _)) hx
      · split at h
        · cases h
        · rename_i c hc
          exact hfinish _ (Factorizations.lawful_provided.size_solve hc _) h

/-! ## Linear solvers -/

section Solvers

variable {kind : PreconditionerKind} {minIterations maxIterations count : Nat} {tolerance : α}
  {found : LinearSolution α}

theorem size_normalGradients?
    (h : normalGradients? kind minIterations maxIterations a b d tolerance = .ok found) :
    found.x.size = a.numCols := by
  unfold normalGradients? at h
  by_cases hb : b.size = a.numRows
  · simp only [hb, ne_eq, not_true_eq_false, if_false] at h
    obtain ⟨d2, -, h⟩ := except_bind_eq_ok.mp h
    exact (size_conjugateGradients h).trans (a.size_leftMultiply b)
  · simp only [hb, ne_eq, not_false_eq_true, if_true] at h
    cases h

theorem size_schurGradients?
    (h : schurGradients? kind minIterations maxIterations count a b d tolerance = .ok found) :
    found.x.size = a.numCols := by
  obtain ⟨d2, -, h⟩ := except_bind_eq_ok.mp h
  obtain ⟨s, hnew, h⟩ := except_bind_eq_ok.mp h
  obtain ⟨reduced, hreduced, h⟩ := except_bind_eq_ok.mp h
  cases h
  exact (Elimination.creates_of_new? hnew).size_backSubstitute
    ((size_conjugateGradients hreduced).trans s.size_reducedRhs_eq)

omit [Scalar α] in
/-- An outcome that is a factorization's solution. -/
private theorem exists_of_map_direct {o : Outcome LinearError (Vec α)}
    (h : o.map LinearSolver.direct = .ok found) : o = .ok found.x := by
  cases o with
  | error e => cases h
  | ok x =>
      cases h
      rfl

private theorem ok_of_ofExcept {ε β : Type} {r : Except ε β} {y : β}
    (h : Outcome.ofExcept r = .ok y) : r = .ok y := by
  cases r with
  | error e => cases h
  | ok x =>
      cases h
      rfl

/-- Every solution has an entry for every column. -/
theorem LinearSolver.size_solve {s : LinearSolver} {settings : SolveSettings α}
    (h : (s.solve a b settings).1 = .ok found) : found.x.size = a.numCols := by
  unfold LinearSolver.solve at h
  dsimp only at h
  split at h
  · exact size_denseNormal? (exists_of_map_direct h)
  · have h := ok_of_ofExcept h
    cases hx : denseReflections? a b settings.regularizer with
    | error e =>
        rw [hx] at h
        cases h
    | ok x =>
        rw [hx] at h
        cases h
        exact size_denseReflections? hx
  · exact size_sparseNormal? (exists_of_map_direct h)
  · exact size_schurDirect? (exists_of_map_direct h)
  · exact size_schurDirect? (exists_of_map_direct h)
  · exact size_schurGradients? (ok_of_ofExcept h)
  · exact size_normalGradients? (ok_of_ofExcept h)

end Solvers

end LeastSquares
