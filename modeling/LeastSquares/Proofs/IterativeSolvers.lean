import LeastSquares.Proofs.ReducedOperator

/-!
# Iterative solvers over the real numbers

The approximate inverses that guide an iterative solver are made of positive
diagonals and of inverses of definite blocks, so none of them turns a vector by
a right angle or more. With any of them the search for the solution of the
normal equations, or of the system that an elimination leaves, lowers its
quadratic model. The eliminated unknowns follow exactly from the others, so
whatever the search has gained for the reduced system is gained for the whole.

## Main results

* `Preconditioner.positive_ofDiagonal`, `Preconditioner.positive_blockDiagonal`
  — approximate inverses are positive.
* `normalGradients?_spec` — the normal equations by conjugate gradients.
* `schurGradients?_spec` — the reduced system by conjugate gradients.
-/

namespace LeastSquares

open Matrix
open Finset (range)

/-! ## Approximate inverses -/

namespace Preconditioner

variable {n : Nat}

theorem multiplies_identity (n : Nat) :
    Multiplies (identity : Preconditioner ℝ).apply (1 : Matrix (Fin n) (Fin n) ℝ) where
  size _ hv := hv
  toFun v _ := (one_mulVec (v.toFun n)).symm

theorem positive_identity (n : Nat) : Positive n (identity : Preconditioner ℝ).apply :=
  (multiplies_identity n).positive PosDef.one

/-- The inverse of an entry of a diagonal. -/
def inverseEntry {α : Type} [Scalar α] (v : α) : α :=
  if 0 < v && Scalar.isFinite v then 1 / v else 1

theorem inverseEntry_pos (v : ℝ) : 0 < inverseEntry v := by
  unfold inverseEntry
  split
  · rename_i hv
    have hv : 0 < v := by simpa using hv
    simpa using hv
  · simp

theorem apply_ofDiagonal (d v : Vec ℝ) :
    (ofDiagonal d).apply v = (d.map inverseEntry).mulEntries v := rfl

theorem multiplies_ofDiagonal {d : Vec ℝ} (hd : d.size = n) :
    Multiplies (ofDiagonal d).apply
      (Matrix.diagonal fun i : Fin n => inverseEntry (d.get i)) where
  size v _ := by rw [apply_ofDiagonal, Vec.size_mulEntries, Vec.size_map, hd]
  toFun v _ := by
    funext i
    have hi : (i : Nat) < d.size := i.isLt.trans_eq hd.symm
    rw [apply_ofDiagonal, Vec.toFun_apply, Vec.get_mulEntries (by rwa [Vec.size_map]),
      Vec.get_map _ hi, mulVec_diagonal]
    rfl

/-- An inverse diagonal is definite, whatever the diagonal is. -/
theorem posDef_inverseDiagonal (d : Vec ℝ) :
    (Matrix.diagonal fun i : Fin n => inverseEntry (d.get i)).PosDef :=
  posDef_diagonal_iff.mpr fun _ => inverseEntry_pos _

theorem positive_ofDiagonal {d : Vec ℝ} (hd : d.size = n) : Positive n (ofDiagonal d).apply :=
  (multiplies_ofDiagonal hd).positive (posDef_inverseDiagonal d)

/-! ## Blocks -/

/-- A matrix of the size of a block that turns no vector by a right angle or
more. -/
structure Definite (b : Block) (m : Mat ℝ) : Prop where
  shape : m.HasShape b.size b.size
  pos : ∀ x : Fin b.size → ℝ, x ≠ 0 → 0 < x ⬝ᵥ m.toMatrix b.size b.size *ᵥ x

variable {blocks : List (Block × Mat ℝ)} {sizes : List Nat}

theorem apply_blockDiagonal (blocks : List (Block × Mat ℝ)) (v : Vec ℝ) :
    (blockDiagonal blocks).apply v =
      Vec.concat (blocks.map fun p => p.2.mulVec (v.slice p.1.position p.1.size)) := rfl

theorem size_products (hdefinite : ∀ p ∈ blocks, Definite p.1 p.2) (v : Vec ℝ) :
    (blocks.map fun p => p.2.mulVec (v.slice p.1.position p.1.size)).map Vec.size =
      (blocks.map Prod.fst).map Block.size := by
  rw [List.map_map, List.map_map]
  refine List.map_congr_left fun p hp => ?_
  exact (Mat.size_mulVec _ _).trans (hdefinite p hp).shape.1

/-- The part of the product that belongs to a block. -/
theorem get_blockDiagonal (hlayout : blocks.map Prod.fst = Block.layout sizes)
    (hdefinite : ∀ p ∈ blocks, Definite p.1 p.2) (v : Vec ℝ) {p : Block × Mat ℝ} (hp : p ∈ blocks)
    {i : Nat} (hi : i < p.1.size) :
    ((blockDiagonal blocks).apply v).get (p.1.position + i) =
      (p.2.mulVec (v.slice p.1.position p.1.size)).get i := by
  obtain ⟨k, hk⟩ := List.mem_iff_getElem?.mp hp
  have hplace : p.1.position = total (((blocks.map fun p =>
      p.2.mulVec (v.slice p.1.position p.1.size)).take k).map Vec.size) := by
    have hblock : (Block.layout sizes)[k]? = some p.1 := by
      rw [← hlayout, List.getElem?_map, hk, Option.map_some]
    rw [List.map_take, size_products hdefinite, hlayout, map_size_layout]
    rw [getElem?_layout] at hblock
    obtain ⟨n, -, hn⟩ := Option.map_eq_some_iff.mp hblock
    exact (congrArg Block.position hn).symm
  rw [apply_blockDiagonal, hplace]
  refine Vec.get_concat ?_ (hi.trans_eq ?_)
  · rw [List.getElem?_map, hk, Option.map_some, hplace]
  · rw [Mat.size_mulVec, (hdefinite p hp).shape.1]

/-- The inner product of a vector with its product, block by block. -/
theorem dotProduct_blockDiagonal (hlayout : blocks.map Prod.fst = Block.layout sizes)
    (hdefinite : ∀ p ∈ blocks, Definite p.1 p.2) (v : Vec ℝ) :
    v.toFun (total sizes) ⬝ᵥ ((blockDiagonal blocks).apply v).toFun (total sizes) =
      (blocks.map fun p => (v.slice p.1.position p.1.size).toFun p.1.size ⬝ᵥ
        p.2.toMatrix p.1.size p.1.size *ᵥ (v.slice p.1.position p.1.size).toFun p.1.size).sum := by
  have hsum := sum_range_total sizes fun q => v.get q * ((blockDiagonal blocks).apply v).get q
  rw [Finset.sum_range, ← hlayout, List.map_map] at hsum
  refine hsum.trans (congrArg List.sum (List.map_congr_left fun p hp => ?_))
  obtain ⟨hrows, hcols⟩ := (hdefinite p hp).shape
  rw [Function.comp_apply, Finset.sum_range, dotProduct]
  refine Finset.sum_congr rfl fun i _ => ?_
  rw [get_blockDiagonal hlayout hdefinite v hp i.isLt, Mat.get_mulVec (i.isLt.trans_eq hrows.symm),
    hcols, Finset.sum_range, Vec.toFun_apply, Vec.get_slice i.isLt]
  rfl

/-- Definite blocks one after the other are positive. -/
theorem positive_blockDiagonal (hlayout : blocks.map Prod.fst = Block.layout sizes)
    (hdefinite : ∀ p ∈ blocks, Definite p.1 p.2) :
    Positive (total sizes) (blockDiagonal blocks).apply where
  size v _ := by
    rw [apply_blockDiagonal, Vec.size_concat, size_products hdefinite, hlayout, map_size_layout]
  pos v hv hne := by
    rw [dotProduct_blockDiagonal hlayout hdefinite]
    have hnonneg : ∀ p ∈ blocks, 0 ≤ (v.slice p.1.position p.1.size).toFun p.1.size ⬝ᵥ
        p.2.toMatrix p.1.size p.1.size *ᵥ (v.slice p.1.position p.1.size).toFun p.1.size := by
      intro p hp
      by_cases hzero : (v.slice p.1.position p.1.size).toFun p.1.size = 0
      · rw [hzero, zero_dotProduct]
      · exact ((hdefinite p hp).pos _ hzero).le
    -- an entry that is not zero lies in a block, and that block contributes
    obtain ⟨q, hq⟩ := Function.ne_iff.mp hne
    obtain ⟨k, n, hk, i, hi, hqi⟩ := exists_block_index q.isLt
    have hblock : (blocks.map Prod.fst)[k]? = some ⟨n, total (sizes.take k)⟩ := by
      rw [hlayout, getElem?_layout, hk, Option.map_some]
    rw [List.getElem?_map] at hblock
    obtain ⟨p, hp, hpb⟩ := Option.map_eq_some_iff.mp hblock
    have hmem := List.mem_of_getElem? hp
    have hpart : (v.slice p.1.position p.1.size).toFun p.1.size ≠ 0 := by
      intro hzero
      have hip : i < p.1.size := hpb ▸ hi
      have hplace : p.1.position + i = q := by rw [hpb, hqi]
      have hget := congrFun hzero ⟨i, hip⟩
      rw [Vec.toFun_apply, Vec.get_slice hip, hplace] at hget
      exact hq hget
    refine lt_of_lt_of_le ((hdefinite p hmem).pos _ hpart) (List.single_le_sum ?_ _
      (List.mem_map_of_mem hmem))
    intro x hx
    obtain ⟨p, hp, rfl⟩ := List.mem_map.mp hx
    exact hnonneg p hp

end Preconditioner

/-! ## Preconditioners of reduced systems -/

namespace Elimination

variable {a : BlockMatrix ℝ} {v d2 : Vec ℝ} {count : Nat} {w : Nat → Mat ℝ}

/-- A block that may be missing, with zeros in its place. -/
theorem getD_zeros {o : Option (Mat ℝ)} {n : Nat} (ho : ∀ m ∈ o, m.HasShape n n) :
    (o.getD (Mat.zeros n n)).HasShape n n ∧
      ∀ i < n, ∀ j < n, (o.getD (Mat.zeros n n)).get i j = blockEntry o i j := by
  cases o with
  | none =>
      refine ⟨⟨rfl, rfl⟩, fun i hi j hj => ?_⟩
      rw [Option.getD_none, Mat.zeros, Mat.get_ofFn _ hi hj, real_zero]
      rfl
  | some m => exact ⟨ho m rfl, fun i _ j _ => rfl⟩

/-- The diagonal blocks of the reduced matrix are definite with it. -/
theorem diagonalBlocks_spec (ha : a.WellFormed) (hsep : a.Separates count)
    (hw : Inverts a d2 count w) (h : (normalSystem a d2).PosDef) :
    let s := ofInverses a v d2 count w
    s.diagonalBlocks.map Prod.fst = Block.layout ((a.columns.drop count).map Block.size) ∧
      ∀ p ∈ s.diagonalBlocks, p.2.HasShape p.1.size p.1.size ∧
        (p.2.toMatrix p.1.size p.1.size).PosDef := by
  intro s
  refine ⟨?_, fun p hp => ?_⟩
  · refine Eq.trans ?_ (remaining_eq_layout (s := s) ha)
    refine List.ext_getElem (by simp [diagonalBlocks]) fun k _ _ => ?_
    simp [diagonalBlocks]
  · obtain ⟨k, hk, rfl⟩ := List.mem_mapIdx.mp hp
    obtain ⟨c, hc, hb⟩ := exists_column_of_remaining (List.getElem?_eq_getElem hk)
    obtain rfl : a.column (count + k) = c := BlockMatrix.column_eq hc
    have hlt : k < a.columns.length - count := hk.trans_eq (length_remaining s)
    obtain ⟨hshape, hget⟩ := getD_zeros (reducedBlock?_spec (v := v) ha hw hc hc).1
    rw [hb]
    refine ⟨hshape, ?_⟩
    let index : Fin (a.column (count + k)).size → Fin (keptSize a count) :=
      fun i => keptIndex a count ⟨⟨k, hlt⟩, i⟩
    have hindex : Function.Injective index := by
      intro i j hij
      have hpair := (keptIndex a count).injective hij
      cases hpair
      rfl
    -- A diagonal block is a principal submatrix of the reduced matrix.
    have hblock : ((s.reducedBlock? k k).getD (Mat.zeros (a.column (count + k)).size
        (a.column (count + k)).size)).toMatrix (a.column (count + k)).size
          (a.column (count + k)).size =
        (s.assemble.toMatrix (keptSize a count) (keptSize a count)).submatrix index index := by
      ext i j
      have hentry : s.assemble.get (index i) (index j) = _ :=
        get_assemble hc hc i.isLt j.isLt
      rw [Mat.toMatrix_apply, hget i i.isLt j j.isLt, Matrix.submatrix_apply, Mat.toMatrix_apply,
        hentry]
    exact hblock.symm ▸ (posDef_assemble ha hsep hw h).submatrix hindex

/-- Inverses of definite blocks are definite. -/
theorem definite_ofBlocks {blocks : List (Block × Mat ℝ)}
    (hblocks : ∀ p ∈ blocks, p.2.HasShape p.1.size p.1.size ∧
      (p.2.toMatrix p.1.size p.1.size).PosDef) :
    ∃ inverses, Preconditioner.ofBlocks blocks = .blockDiagonal inverses ∧
      inverses.map Prod.fst = blocks.map Prod.fst ∧
      ∀ p ∈ inverses, Preconditioner.Definite p.1 p.2 := by
  refine ⟨_, rfl, ?_, fun p hp => ?_⟩
  · rw [List.map_map]
    refine List.map_congr_left fun ⟨b, m⟩ _ => ?_
    dsimp only [Function.comp_apply]
    cases Cholesky.factor? .quotient m <;> rfl
  · obtain ⟨⟨b, m⟩, hq, rfl⟩ := List.mem_map.mp hp
    obtain ⟨hshape, hpos⟩ := hblocks _ hq
    obtain ⟨c, hc, -, hinverse, hmul⟩ := Factorizations.exact_provided.factors hshape.1 hpos
    rw [Factorizations.factor?_provided] at hc
    dsimp only at hc ⊢
    rw [hc]
    exact ⟨hinverse, fun x hx => inverse_dotProduct_pos hpos hmul hx⟩

/-- Every preconditioner of a definite reduced system is positive. -/
theorem positive_preconditioner (ha : a.WellFormed) (hsep : a.Separates count)
    (hw : Inverts a d2 count w) (h : (normalSystem a d2).PosDef) (kind : PreconditionerKind) :
    Positive (keptSize a count) ((ofInverses a v d2 count w).preconditioner kind).apply := by
  obtain ⟨hlayout, hblocks⟩ := diagonalBlocks_spec (v := v) ha hsep hw h
  have hofBlocks : Positive (keptSize a count)
      (Preconditioner.ofBlocks (ofInverses a v d2 count w).diagonalBlocks).apply := by
    obtain ⟨inverses, hinverses, hfst, hdefinite⟩ := definite_ofBlocks hblocks
    rw [hinverses]
    exact Preconditioner.positive_blockDiagonal (hfst.trans hlayout) hdefinite
  cases kind with
  | identity => exact Preconditioner.positive_identity _
  | jacobi =>
      refine Preconditioner.positive_ofDiagonal ?_
      rw [Vec.size_concat, keptSize, ← map_size_layout ((a.columns.drop count).map Block.size),
        ← hlayout, List.map_map, List.map_map]
      refine congrArg total (List.map_congr_left fun p hp => ?_)
      exact (Vec.size_ofFn _ _).trans (hblocks p hp).1.1
  | schurJacobi => exact hofBlocks
  | clusterJacobi => exact hofBlocks
  | clusterTridiagonal => exact hofBlocks

end Elimination

/-! ## The solvers -/

section Solvers

variable {a : BlockMatrix ℝ} {b d2 : Vec ℝ} {d : Option (Vec ℝ)} {count maxIterations : Nat}

theorem size_of_regularizerSquared {α : Type} [Scalar α] {d : Option (Vec α)} {d2 : Vec α}
    {n : Nat} (hd : regularizerSquared d n = .ok d2) : d2.size = n := by
  cases d with
  | none =>
      cases hd
      exact Vec.size_zeros n
  | some u =>
      rw [regularizerSquared] at hd
      split at hd
      · rename_i hu
        cases hd
        rw [Vec.size_mulEntries, hu]
      · cases hd

/-- The normal matrix as an operator. -/
theorem multiplies_normalSystem (ha : a.WellFormed) (hd : d2.size = a.numCols) :
    Multiplies (fun v => a.leftMultiply (a.rightMultiply v) + d2.mulEntries v)
      (normalSystem a d2) where
  size v _ := by rw [Vec.size_add, BlockMatrix.size_leftMultiply]
  toFun v _ := by
    have hadd : (a.leftMultiply (a.rightMultiply v) + d2.mulEntries v).toFun a.numCols =
        (a.leftMultiply (a.rightMultiply v)).toFun a.numCols +
          diagonal (d2.toFun a.numCols) *ᵥ v.toFun a.numCols := by
      funext i
      rw [Vec.toFun_apply, Vec.get_add (i.isLt.trans_eq (BlockMatrix.size_leftMultiply _ _).symm),
        Vec.get_mulEntries (i.isLt.trans_eq hd.symm), Pi.add_apply, mulVec_diagonal]
      rfl
    rw [hadd, ha.toFun_leftMultiply, ha.toFun_rightMultiply, mulVec_mulVec, normalSystem,
      add_mulVec]

/-- The approximate inverse that guides the search for the solution of the
normal equations. -/
noncomputable def normalPreconditioner (kind : PreconditionerKind) (norms : Vec ℝ) :
    Preconditioner ℝ :=
  match kind with
  | .identity => .identity
  | _ => .ofDiagonal norms

theorem multiplies_normalPreconditioner {n : Nat} (kind : PreconditionerKind) {norms : Vec ℝ}
    (hnorms : norms.size = n) : ∃ P : Matrix (Fin n) (Fin n) ℝ, P.PosDef ∧
      Multiplies (normalPreconditioner kind norms).apply P := by
  have hdiagonal := (Preconditioner.posDef_inverseDiagonal (n := n) norms)
  have hmultiplies := Preconditioner.multiplies_ofDiagonal hnorms
  cases kind with
  | identity => exact ⟨1, PosDef.one, Preconditioner.multiplies_identity n⟩
  | jacobi => exact ⟨_, hdiagonal, hmultiplies⟩
  | schurJacobi => exact ⟨_, hdiagonal, hmultiplies⟩
  | clusterJacobi => exact ⟨_, hdiagonal, hmultiplies⟩
  | clusterTridiagonal => exact ⟨_, hdiagonal, hmultiplies⟩

/-- With data of the right sizes the solver is a search with the normal matrix
as operator. -/
theorem normalGradients?_eq (hb : b.size = a.numRows)
    (hd : regularizerSquared d a.numCols = .ok d2) (kind : PreconditionerKind)
    (minIterations maxIterations : Nat) (tolerance : ℝ) :
    normalGradients? kind minIterations maxIterations a b d tolerance =
      conjugateGradients (fun v => a.leftMultiply (a.rightMultiply v) + d2.mulEntries v)
        (normalPreconditioner kind (a.squaredColumnNorms + d2)).apply (a.leftMultiply b)
        minIterations maxIterations tolerance := by
  simp only [normalGradients?, hb, ne_eq, not_true_eq_false, if_false, hd, bind, Except.bind]
  cases kind <;> rfl

/-- Conjugate gradients on the normal equations succeed and lower their model,
wherever they end. -/
theorem normalGradients?_spec (ha : a.WellFormed) (hb : b.size = a.numRows)
    (hd : regularizerSquared d a.numCols = .ok d2) (h : (normalSystem a d2).PosDef)
    (kind : PreconditionerKind) (minIterations : Nat) (hmax : maxIterations ≠ 0) (tolerance : ℝ) :
    ∃ found, normalGradients? kind minIterations maxIterations a b d tolerance = .ok found ∧
      found.x.size = a.numCols ∧ (a.toMatrixᵀ *ᵥ b.toFun a.numRows ≠ 0 →
        quadratic (normalSystem a d2) (a.toMatrixᵀ *ᵥ b.toFun a.numRows)
          (found.x.toFun a.numCols) < 0) := by
  obtain ⟨P, hP, hpre⟩ := multiplies_normalPreconditioner kind
    ((Vec.size_add _ d2).trans a.size_squaredColumnNorms)
  obtain ⟨found, hfound, hx, -, hlow⟩ := conjugateGradients_spec h
    (multiplies_normalSystem ha (size_of_regularizerSquared hd)) (hpre.positive hP)
    (a.size_leftMultiply b) minIterations hmax tolerance
  rw [ha.toFun_leftMultiply] at hlow
  exact ⟨found, (normalGradients?_eq hb hd kind minIterations maxIterations tolerance).trans hfound,
    hx, hlow⟩

/-- What back substitution makes of a vector that lowers the model of the
reduced system lowers the model of the whole. -/
theorem quadratic_backSubstitute (ha : a.WellFormed) (hsep : a.Separates count)
    {w : Nat → Mat ℝ} (hw : Elimination.Inverts a d2 count w) (h : (normalSystem a d2).PosDef)
    {y : Vec ℝ} (hy : y.size = Elimination.keptSize a count) :
    let s := Elimination.ofInverses a b d2 count w
    let n := Elimination.keptSize a count
    quadratic (s.assemble.toMatrix n n) (s.reducedRhs.toFun n) (y.toFun n) ≤ 0 →
    (s.reducedRhs.toFun n ≠ 0 →
      quadratic (s.assemble.toMatrix n n) (s.reducedRhs.toFun n) (y.toFun n) < 0) →
    a.toMatrixᵀ *ᵥ b.toFun a.numRows ≠ 0 →
      quadratic (normalSystem a d2) (a.toMatrixᵀ *ᵥ b.toFun a.numRows)
        ((s.backSubstitute y).toFun a.numCols) < 0 := by
  intro s n hle hlow hne
  have hblocks := h.submatrix (Elimination.wholeIndex hw.count_le).injective
  rw [Elimination.submatrix_normalSystem ha hw.count_le hsep] at hblocks
  have hpivots := posDef_of_fromBlocks hblocks
  -- the reduced model in terms of the blocks
  have hreduced : quadratic (s.assemble.toMatrix n n) (s.reducedRhs.toFun n) (y.toFun n) = _ :=
    (quadratic_submatrix (Elimination.keptIndex a count) _ _ _).symm
  have hrhs : s.reducedRhs.toFun n ∘ Elimination.keptIndex a count = _ :=
    Elimination.reducedRhs_keptIndex ha hw
  have hzero : s.reducedRhs.toFun n ∘ Elimination.keptIndex a count ≠ 0 →
      s.reducedRhs.toFun n ≠ 0 := by
    intro hcomp hrhs
    rw [hrhs] at hcomp
    exact hcomp rfl
  rw [Elimination.submatrix_assemble ha hw] at hreduced
  rw [hreduced] at hle hlow
  replace hlow := fun hcomp => hlow (hzero hcomp)
  rw [hrhs] at hle hlow
  -- and the whole model
  rw [← quadratic_submatrix (Elimination.wholeIndex hw.count_le),
    Elimination.submatrix_normalSystem ha hw.count_le hsep,
    Elimination.moments_wholeIndex ha hw.count_le, Elimination.backSubstitute_wholeIndex ha hw hy]
  refine quadratic_fromBlocks_neg hpivots (Elimination.pivots_mul_inverses hw) hle hlow ?_
  rw [← Elimination.moments_wholeIndex ha hw.count_le]
  intro hcomp
  exact hne ((Elimination.wholeIndex hw.count_le).surjective.injective_comp_right hcomp)

/-- Conjugate gradients on the reduced system succeed and lower the model of the
whole system, wherever they end. -/
theorem schurGradients?_spec (ha : a.WellFormed) (hcount : count ≤ a.columns.length)
    (hsep : a.Separates count) (hb : b.size = a.numRows)
    (hd : regularizerSquared d a.numCols = .ok d2) (h : (normalSystem a d2).PosDef)
    (kind : PreconditionerKind) (minIterations : Nat) (hmax : maxIterations ≠ 0) (tolerance : ℝ) :
    ∃ found, schurGradients? kind minIterations maxIterations count a b d tolerance = .ok found ∧
      found.x.size = a.numCols ∧ (a.toMatrixᵀ *ᵥ b.toFun a.numRows ≠ 0 →
        quadratic (normalSystem a d2) (a.toMatrixᵀ *ᵥ b.toFun a.numRows)
          (found.x.toFun a.numCols) < 0) := by
  obtain ⟨w, hw, hs⟩ := Elimination.new?_eq_ok ha hcount (hsep.length_le_one ha) hb
    (size_of_regularizerSquared hd) fun e he c hc => by
      have h := Elimination.posDef_pivotBlock ha hcount hsep h he
      rwa [BlockMatrix.column_eq hc] at h
  obtain ⟨reduced, hreduced, hy, hle, hlow⟩ := conjugateGradients_spec
    (Elimination.posDef_assemble (v := b) ha hsep hw h)
    (Elimination.multiplies_applyReduced ha hw)
    (Elimination.positive_preconditioner (v := b) ha hsep hw h kind)
    (Elimination.size_reducedRhs ha hw) minIterations hmax tolerance
  refine ⟨{ reduced with x := (Elimination.ofInverses a b d2 count w).backSubstitute reduced.x },
    ?_, ?_, quadratic_backSubstitute ha hsep hw h hy hle hlow⟩
  · simp only [schurGradients?, hd, hs, hreduced, bind, Except.bind, pure, Except.pure]
  · exact (Elimination.get_backSubstitute ha hw
      (hy.trans Elimination.dimension_ofInverses.symm)).1

end Solvers

end LeastSquares
