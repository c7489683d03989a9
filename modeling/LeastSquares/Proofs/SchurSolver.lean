import LeastSquares.Proofs.SchurComplement

/-!
# Solving by elimination

Elimination of column blocks that no row couples leaves a positive definite
system, and so the solver by elimination returns the solution of the normal
equations, the one that a dense factorization finds. A sparse factorization of
the reduced matrix has to work from the analysis of its own pattern, which is a
condition on what the solver has kept.

## Main definitions

* `SparsityAnalysis.Fits`, `KeepsPattern` — kept analyses of the right pattern.

## Main results

* `schurDirect?_solves` — the solution by elimination.
-/

namespace LeastSquares

open Matrix

/-! ## Kept analyses -/

namespace SparsityAnalysis

variable {pattern : List (Nat × Nat)} {n : Nat}

/-- A kept analysis is one of the given pattern if it is used for matrices of
the given dimension. -/
def Fits (kept : Option SparsityAnalysis) (n : Nat) (pattern : List (Nat × Nat)) : Prop :=
  ∀ s ∈ kept, s.dimension = n → s.pattern = pattern

theorem reuse_spec {kept : Option SparsityAnalysis} (hfits : Fits kept n pattern) :
    (reuse kept n pattern).dimension = n ∧ (reuse kept n pattern).pattern = pattern := by
  unfold reuse
  split
  · split
    · rename_i hdim
      exact ⟨hdim, hfits _ rfl hdim⟩
    · exact ⟨rfl, rfl⟩
  · exact ⟨rfl, rfl⟩

end SparsityAnalysis

/-! ## The pattern of the reduced matrix -/

namespace BlockMatrix

variable {a : BlockMatrix ℝ} {v d2 : Vec ℝ} {count : Nat} {w : Nat → Mat ℝ}

/-- Some row reads both column blocks. -/
def meet (a : BlockMatrix ℝ) (k l : Nat) : Bool :=
  a.rows.any fun row => (row.cell? k).isSome && (row.cell? l).isSome

/-- Two remaining blocks meet in a row or by way of an eliminated block. -/
def coupled (a : BlockMatrix ℝ) (count k l : Nat) : Bool :=
  k == l || a.meet (count + k) (count + l) ||
    (List.range count).any fun e => a.meet e (count + k) && a.meet e (count + l)

/-- The remaining blocks, with positions in the reduced system. -/
def remaining (a : BlockMatrix ℝ) (count : Nat) : List Block :=
  (a.columns.drop count).map fun b =>
    ⟨b.size, b.position - total ((a.columns.take count).map Block.size)⟩

/-- The positions in the blocks that are marked. -/
def markedPattern (blocks : List Block) (marks : List (List Bool)) : List (Nat × Nat) :=
  (marks.zip blocks).flatMap fun p => (List.range p.2.size).flatMap fun i =>
    (p.1.zip blocks).flatMap fun q =>
      if q.1 then (List.range q.2.size).map fun j => (p.2.position + i, q.2.position + j) else []

/-- The pattern of the reduced matrix. It depends on the blocks and on which
cells there are, not on what they hold. -/
def reducedPattern (a : BlockMatrix ℝ) (count : Nat) : List (Nat × Nat) :=
  let n := (a.remaining count).length
  markedPattern (a.remaining count)
    ((List.range n).map fun k => (List.range n).map fun l => a.coupled count k l)

end BlockMatrix

namespace Elimination

variable {a : BlockMatrix ℝ} {v d2 : Vec ℝ} {count k l : Nat} {w : Nat → Mat ℝ}

theorem isSome_sumMats (ms : List (Mat ℝ)) : (sumMats ms).isSome = ms.any fun _ => true := by
  cases ms <;> rfl

theorem any_filterMap_true {β γ : Type} (f : β → Option γ) (l : List β) :
    ((l.filterMap f).any fun _ => true) = l.any fun x => (f x).isSome := by
  induction l with
  | nil => rfl
  | cons x l ih =>
      rw [List.filterMap_cons, List.any_cons, ← ih]
      cases f x <;> rfl

theorem any_tMul? (a : BlockMatrix ℝ) (k l : Nat) :
    ((a.rows.filterMap (BlockRow.tMul? · k l)).any fun _ => true) = a.meet k l := by
  rw [any_filterMap_true, BlockMatrix.meet]
  congr
  funext row
  rw [BlockRow.tMul?]
  cases row.cell? k <;> cases row.cell? l <;> rfl

theorem isSome_coupling? (e : Nat) (hk : k < a.columns.length - count) :
    ((blockOf a v count w e).coupling? k).isSome = a.meet e (count + k) := by
  rw [EliminatedBlock.coupling?, blockOf, couplingsOf, find?_filterMap_index,
    if_pos (List.mem_range.mpr hk), isSome_sumMats, any_tMul?]

theorem isSome_through (m : Mat ℝ) (o o' : Option (Mat ℝ)) :
    (through m o o').isSome = (o.isSome && o'.isSome) := by
  cases o <;> cases o' <;> rfl

theorem length_remaining (s : Elimination ℝ) :
    s.remaining.length = s.matrix.columns.length - s.count := by
  rw [remaining, List.length_map, List.length_drop]

theorem any_regularizers (hk : k < a.columns.length - count) :
    (((ofInverses a v d2 count w).regularizers k l).any fun _ => true) = (k == l) := by
  by_cases h : k = l
  · rw [regularizers, if_pos h, beq_iff_eq.mpr h,
      List.getElem?_eq_getElem (hk.trans_eq (length_remaining (ofInverses a v d2 count w)).symm)]
    rfl
  · rw [regularizers, if_neg h, beq_eq_false_iff_ne.mpr h]
    rfl

/-- Which blocks of the reduced matrix hold something. -/
theorem isSome_reducedBlock? (hk : k < a.columns.length - count)
    (hl : l < a.columns.length - count) :
    ((ofInverses a v d2 count w).reducedBlock? k l).isSome = a.coupled count k l := by
  rw [reducedBlock?_eq, isSome_sumMats, List.any_append, List.any_append, any_regularizers hk,
    any_filterMap_true _ (ofInverses a v d2 count w).eliminated, BlockMatrix.coupled]
  congr 1
  · exact congrArg _ (any_tMul? a (count + k) (count + l))
  · show (((List.range count).map (blockOf a v count w)).any fun e => _) = _
    rw [List.any_map]
    congr
    funext e
    rw [Function.comp_apply, isSome_through, isSome_coupling? e hk, isSome_coupling? e hl]

/-- The pattern depends on the cells alone. -/
theorem reducedPattern_ofInverses :
    (ofInverses a v d2 count w).reducedPattern = a.reducedPattern count := by
  have hmarks : (ofInverses a v d2 count w).reducedPattern =
      BlockMatrix.markedPattern (a.remaining count)
        ((ofInverses a v d2 count w).reducedBlocks.map fun row => row.map Option.isSome) := by
    rw [reducedPattern, BlockMatrix.markedPattern, List.zip_map_left, List.flatMap_map]
    refine List.flatMap_congr fun p _ => List.flatMap_congr fun i _ => ?_
    rw [Prod.map, List.zip_map_left, List.flatMap_map]
    rfl
  have hlen : (a.remaining count).length = a.columns.length - count :=
    length_remaining (ofInverses a v d2 count w)
  rw [hmarks, reducedBlocks, List.map_map, BlockMatrix.reducedPattern, hlen, length_remaining]
  refine congrArg _ (List.map_congr_left fun k hk => ?_)
  rw [Function.comp_apply, List.map_map]
  refine List.map_congr_left fun l hl => ?_
  exact isSome_reducedBlock? (List.mem_range.mp hk) (List.mem_range.mp hl)

end Elimination

/-! ## The solver -/

section Solver

variable {a : BlockMatrix ℝ} {b d2 : Vec ℝ} {d : Option (Vec ℝ)} {count : Nat} {w : Nat → Mat ℝ}
  {sparse : Bool} {kept : Option SparsityAnalysis}

/-- The regularizer as a diagonal matrix; no regularizer counts as zero. -/
noncomputable def regularizerMatrix (n : Nat) (d : Option (Vec ℝ)) : Matrix (Fin n) (Fin n) ℝ :=
  diagonal fun i => d.elim 0 (Vec.get · i)

theorem regularizerSquared_spec {n : Nat} (hd : ∀ u ∈ d, u.size = n) :
    ∃ d2, regularizerSquared d n = .ok d2 ∧ d2.size = n ∧
      diagonal (d2.toFun n) = regularizerMatrix n d ^ 2 := by
  cases d with
  | none =>
      refine ⟨Vec.zeros n, rfl, Vec.size_zeros n, ?_⟩
      rw [regularizerMatrix, diagonal_pow]
      refine congrArg _ (funext fun i => ?_)
      rw [Vec.toFun_apply, Vec.get_zeros, Pi.pow_apply, Option.elim_none, zero_pow two_ne_zero]
  | some u =>
      have hu := hd u rfl
      refine ⟨u.mulEntries u, if_pos hu, (Vec.size_mulEntries _ _).trans hu, ?_⟩
      rw [regularizerMatrix, diagonal_pow]
      refine congrArg _ (funext fun i => ?_)
      rw [Vec.toFun_apply, Vec.get_mulEntries (hu.symm ▸ i.isLt), Pi.pow_apply, Option.elim_some,
        sq]

/-- A regularizer without zeros makes every system definite. -/
theorem posDef_regularized (hd : ∀ i < a.numCols, d.elim 0 (Vec.get · i) ≠ 0) :
    (a.toMatrixᵀ * a.toMatrix + regularizerMatrix a.numCols d ^ 2).PosDef := by
  rw [regularizerMatrix, diagonal_pow]
  exact .posSemidef_add (posSemidef_gram a) (posDef_diagonal_iff.mpr fun i => sq_pos_of_ne_zero (hd i i.isLt))

/-- The analysis of an earlier reduced system is one of this matrix, if it is
used again. -/
def KeepsPattern (a : BlockMatrix ℝ) (count : Nat) (kept : Option SparsityAnalysis) : Prop :=
  SparsityAnalysis.Fits kept (Elimination.keptSize a count) (a.reducedPattern count)

/-- What the solver does with an elimination. -/
theorem schurDirect?_eq {s : Elimination ℝ} (hd2 : regularizerSquared d a.numCols = .ok d2)
    (hs : Elimination.new? a b d2 count = .ok s) :
    schurDirect? sparse kept count a b d =
      if s.dimension = 0 then (.ok (s.backSubstitute (Vec.zeros 0)), kept)
      else if sparse then
        let analysis := SparsityAnalysis.reuse kept s.dimension s.reducedPattern
        (((Factorizations.provided ℝ).solveSparse? analysis s.reducedPattern s.assemble
          s.reducedRhs).map s.backSubstitute, some analysis)
      else
        (((Factorizations.provided ℝ).factor? s.assemble).elim (.error (.error .singular)) fun c =>
          .ok (s.backSubstitute ((Factorizations.provided ℝ).solve c s.reducedRhs)), kept) := by
  have hbind : (do
      let d2 ← regularizerSquared d a.numCols
      Elimination.new? a b d2 count : Except LinearError (Elimination ℝ)) = .ok s := by
    rw [hd2]
    exact hs
  rw [schurDirect?, hbind]
  simp only [Vec.isFinite_real, if_true]
  split
  · rfl
  · split
    · rw [Factorizations.solveSparse?_provided]
      generalize (SparsityAnalysis.reuse kept s.dimension s.reducedPattern).solve? s.reducedPattern
        s.assemble s.reducedRhs = result
      cases result <;> rfl
    · rw [Factorizations.factor?_provided]
      cases Cholesky.factor? .quotient s.assemble <;> rfl

/-- The solver finds a solution of the reduced system. -/
theorem schurDirect?_reduced (ha : a.WellFormed) (hsep : a.Separates count)
    (hw : Elimination.Inverts a d2 count w) (h : (normalSystem a d2).PosDef)
    (hd2 : regularizerSquared d a.numCols = .ok d2)
    (hs : Elimination.new? a b d2 count = .ok (Elimination.ofInverses a b d2 count w))
    (hkept : sparse = true → KeepsPattern a count kept) :
    let s := Elimination.ofInverses a b d2 count w
    let n := Elimination.keptSize a count
    ∃ y : Vec ℝ, y.size = n ∧ s.assemble.toMatrix n n *ᵥ y.toFun n = s.reducedRhs.toFun n ∧
      (schurDirect? sparse kept count a b d).1 = .ok (s.backSubstitute y) := by
  intro s n
  have hdim : s.dimension = n := Elimination.dimension_ofInverses
  have hpos := Elimination.posDef_assemble (v := b) ha hsep hw h
  rw [schurDirect?_eq hd2 hs]
  split
  · rename_i hzero
    have hn : n = 0 := hdim.symm.trans hzero
    refine ⟨Vec.zeros 0, hn.symm, ?_, rfl⟩
    funext i
    exact absurd i.isLt (by omega)
  · split
    · rename_i hsparse
      have hpattern : s.reducedPattern = a.reducedPattern count :=
        Elimination.reducedPattern_ofInverses
      have hfits : SparsityAnalysis.Fits kept s.dimension s.reducedPattern := by
        rw [hdim, hpattern]
        exact hkept hsparse
      obtain ⟨hreuse, hown⟩ := SparsityAnalysis.reuse_spec hfits
      obtain ⟨y, hy, hsize, hsolve⟩ := Factorizations.exact_provided.solveSparse s.reducedRhs
        (hreuse.trans hdim) hown hpos
      refine ⟨y, hsize, hsolve, ?_⟩
      show Except.map _ _ = _
      rw [hy]
      rfl
    · obtain ⟨c, hc, hsolve, -⟩ := Factorizations.exact_provided.factors (n := n) hdim hpos
      obtain ⟨hsize, hy⟩ := hsolve s.reducedRhs
      refine ⟨_, hsize, hy, ?_⟩
      show Option.elim _ _ _ = _
      rw [hc]
      rfl

/-- Solving a system leaves an analysis of its pattern behind, so a solver that
starts from nothing keeps to the structure that it solves. -/
theorem KeepsPattern.schurDirect? (hkept : KeepsPattern a count kept) (sparse : Bool) (b : Vec ℝ)
    (d : Option (Vec ℝ)) :
    KeepsPattern a count (schurDirect? sparse kept count a b d).2 := by
  cases h : regularizerSquared d a.numCols >>= fun d2 => Elimination.new? a b d2 count with
  | error e =>
      rw [LeastSquares.schurDirect?, h]
      exact hkept
  | ok s =>
      obtain ⟨d2, hd2, hs⟩ := except_bind_eq_ok.mp h
      obtain ⟨w, rfl⟩ := Elimination.exists_ofInverses hs
      rw [schurDirect?_eq hd2 hs, Elimination.reducedPattern_ofInverses,
        Elimination.dimension_ofInverses]
      split
      · exact hkept
      · split
        · rintro analysis hanalysis -
          cases hanalysis
          exact (SparsityAnalysis.reuse_spec hkept).2
        · exact hkept

/-- In exact arithmetic the solver by elimination finds the only solution of
the normal equations, and it is what the dense solver returns. An analysis that
a sparse factorization has kept has to be of the same pattern. -/
theorem schurDirect?_solves (ha : a.WellFormed) (hb : b.size = a.numRows)
    (hd : ∀ u ∈ d, u.size = a.numCols)
    (hpos : (a.toMatrixᵀ * a.toMatrix + regularizerMatrix a.numCols d ^ 2).PosDef)
    (hcount : count ≤ a.columns.length) (hsep : a.Separates count)
    (hkept : sparse = true → KeepsPattern a count kept) :
    ∃ x, (schurDirect? sparse kept count a b d).1 = .ok x ∧ denseNormal? a b d = .ok x ∧
      x.size = a.numCols ∧ ∀ z : Fin a.numCols → ℝ,
        (a.toMatrixᵀ * a.toMatrix + regularizerMatrix a.numCols d ^ 2) *ᵥ z =
          a.toMatrixᵀ *ᵥ b.toFun a.numRows ↔ z = x.toFun a.numCols := by
  obtain ⟨d2, hd2, hsize, hsquare⟩ := regularizerSquared_spec hd
  have hsystem : a.toMatrixᵀ * a.toMatrix + regularizerMatrix a.numCols d ^ 2 =
      normalSystem a d2 := by
    rw [normalSystem, hsquare]
  rw [hsystem] at hpos ⊢
  have hinjective : Function.Injective (normalSystem a d2).mulVec :=
    Matrix.mulVec_injective_of_isUnit hpos.isUnit
  obtain ⟨w, hw, hs⟩ := Elimination.new?_eq_ok ha hcount (hsep.length_le_one ha) hb hsize
    fun e he c hc => by
      have h := Elimination.posDef_pivotBlock ha hcount hsep hpos he
      rwa [BlockMatrix.column_eq hc] at h
  obtain ⟨y, hy, hreduced, hschur⟩ := schurDirect?_reduced ha hsep hw hpos hd2 hs hkept
  obtain ⟨x, hdense, hx, hsolve⟩ := denseNormal?_spec hd2 hb hpos
  have hback := Elimination.normalSystem_mulVec_backSubstitute ha hsep hw hy hreduced
  have hsame : (Elimination.ofInverses a b d2 count w).backSubstitute y = x := by
    refine Vec.toFun_inj ?_ hx (hinjective (hback.trans hsolve.symm))
    exact (Elimination.get_backSubstitute ha hw (hy.trans Elimination.dimension_ofInverses.symm)).1
  refine ⟨x, hsame ▸ hschur, hdense, hx, fun z => ⟨fun hz => hinjective (hz.trans hsolve.symm), ?_⟩⟩
  rintro rfl
  exact hsolve

/-- One equation in two unknowns of a block each. -/
noncomputable def oneEquation : BlockMatrix ℝ where
  columns := [⟨1, 0⟩, ⟨1, 1⟩]
  rows := [⟨⟨1, 0⟩, [⟨0, Mat.ofRows 1 [[1]]⟩, ⟨1, Mat.ofRows 1 [[1]]⟩]⟩]

theorem wellFormed_oneEquation : oneEquation.WellFormed where
  columns := rfl
  rows := rfl
  ascending := by
    simp [oneEquation, Ascending.Sorted]
  shapes := by
    simp [oneEquation, Mat.ofRows]

/-- The regularizer that makes the one equation definite. -/
theorem positive_oneEquation :
    ∀ i < oneEquation.numCols, 0 < (Vec.ofList [1, 1] : Vec ℝ).get i := by
  rintro (_ | _ | i) hi
  · simp [Vec.get, Vec.ofList]
  · simp [Vec.get, Vec.ofList]
  · exact absurd hi (Nat.not_lt.mpr (Nat.le_add_left 2 i))

theorem schurDirect?_solves_oneEquation :
    let a := oneEquation
    let b : Vec ℝ := Vec.ofList [3]
    let d : Option (Vec ℝ) := some (Vec.ofList [1, 1])
    ∃ x, (schurDirect? true none 1 a b d).1 = .ok x ∧ denseNormal? a b d = .ok x ∧
      x.size = a.numCols ∧ ∀ z : Fin a.numCols → ℝ,
        (a.toMatrixᵀ * a.toMatrix + regularizerMatrix a.numCols d ^ 2) *ᵥ z =
          a.toMatrixᵀ *ᵥ b.toFun a.numRows ↔ z = x.toFun a.numCols := by
  refine schurDirect?_solves wellFormed_oneEquation rfl ?_ (posDef_regularized ?_)
    (Nat.le_succ 1) ?_ fun _ => nofun
  · rintro u ⟨⟩
    rfl
  · rintro (_ | _ | i) hi
    · simp [Vec.get, Vec.ofList]
    · simp [Vec.get, Vec.ofList]
    · exact absurd hi (Nat.not_lt.mpr (Nat.le_add_left 2 i))
  · intro row _ c _ c' _ hc hc'
    omega

end Solver

end LeastSquares
