import LeastSquares.Proofs.Corrections
import LeastSquares.Proofs.LineSearch
import LeastSquares.Proofs.Matrices
import LeastSquares.Proofs.TwoLoops
import Mathlib.Algebra.Order.Star.Real
import Mathlib.LinearAlgebra.Matrix.PosDef

/-!
# Quasi-Newton directions lead down

The approximate inverse that is never formed is a matrix: a multiple of the
identity, to which the pairs are added one after the other, the oldest first,
by the formula of Broyden, Fletcher, Goldfarb and Shanno. A pair of positive
curvature keeps the matrix positive definite, and the matrix takes the change
of the gradient in the newest pair to the move in it. Only pairs of positive
curvature are remembered, and the newest of them makes the multiple of the
identity positive. So a quasi-Newton direction leads down wherever the gradient
does not vanish, and a line search never falls back on the direction against
the gradient.

## Main definitions

* `bfgs` — the matrix after one more pair.
* `Lbfgs.inverseMatrix` — the matrix of some pairs.

## Main results

* `bfgs_mulVec`, `dotProduct_bfgs_mulVec` — the matrix times a vector, and its
  quadratic form.
* `posDef_bfgs`, `bfgs_mulVec_change` — the matrix stays positive definite, and
  knows the newest pair.
* `Lbfgs.toFun_inverse` — the two loops multiply by the matrix.
* `Lbfgs.exists_matrix_after` — a memory after any calls.
* `Lbfgs.direction_after` — its directions.
-/

namespace LeastSquares

open Matrix

/-! ## The update formula -/

section Update

variable {n : Nat} {H : Matrix (Fin n) (Fin n) ℝ} {s y : Fin n → ℝ}

/-- An approximate inverse of the Hessian after one more move `s`, with a change
`y` of the gradient. -/
noncomputable def bfgs (H : Matrix (Fin n) (Fin n) ℝ) (s y : Fin n → ℝ) :
    Matrix (Fin n) (Fin n) ℝ :=
  (1 - (y ⬝ᵥ s)⁻¹ • vecMulVec s y) * H * (1 - (y ⬝ᵥ s)⁻¹ • vecMulVec y s) +
    (y ⬝ᵥ s)⁻¹ • vecMulVec s s

/-- What is left of a vector once the pair is unwound from it. -/
noncomputable def unwound (s y v : Fin n → ℝ) : Fin n → ℝ := v - ((y ⬝ᵥ s)⁻¹ * (s ⬝ᵥ v)) • y

theorem bfgs_mulVec (H : Matrix (Fin n) (Fin n) ℝ) (s y v : Fin n → ℝ) :
    bfgs H s y *ᵥ v = H *ᵥ unwound s y v +
      ((y ⬝ᵥ s)⁻¹ * (s ⬝ᵥ v) - (y ⬝ᵥ s)⁻¹ * (y ⬝ᵥ H *ᵥ unwound s y v)) • s := by
  have hright : (1 - (y ⬝ᵥ s)⁻¹ • vecMulVec y s) *ᵥ v = unwound s y v := by
    rw [sub_mulVec, one_mulVec, smul_mulVec, vecMulVec_mulVec, op_smul_eq_smul, smul_smul,
      unwound]
  rw [bfgs, add_mulVec, ← mulVec_mulVec, hright, ← mulVec_mulVec, sub_mulVec, one_mulVec,
    smul_mulVec, smul_mulVec, vecMulVec_mulVec, vecMulVec_mulVec, op_smul_eq_smul,
    op_smul_eq_smul, smul_smul, smul_smul, sub_smul]
  abel

theorem unwound_dotProduct (s y v r : Fin n → ℝ) :
    unwound s y v ⬝ᵥ r = v ⬝ᵥ r - (y ⬝ᵥ s)⁻¹ * (s ⬝ᵥ v) * (y ⬝ᵥ r) := by
  rw [unwound, sub_dotProduct, smul_dotProduct, smul_eq_mul]

/-- The quadratic form of the matrix is that of the last one at what is left of
the vector, and a square. -/
theorem dotProduct_bfgs_mulVec (H : Matrix (Fin n) (Fin n) ℝ) (s y v : Fin n → ℝ) :
    v ⬝ᵥ bfgs H s y *ᵥ v =
      unwound s y v ⬝ᵥ H *ᵥ unwound s y v + (y ⬝ᵥ s)⁻¹ * (s ⬝ᵥ v) ^ 2 := by
  rw [bfgs_mulVec, dotProduct_add, dotProduct_smul, dotProduct_comm v s, smul_eq_mul,
    unwound_dotProduct s y v (H *ᵥ unwound s y v)]
  ring

/-- A pair of positive curvature keeps the matrix positive definite. -/
theorem posDef_bfgs (hH : H.PosDef) (hcurved : 0 < y ⬝ᵥ s) : (bfgs H s y).PosDef := by
  have hsymm : Hᵀ = H := (conjTranspose_eq_transpose_of_trivial H).symm.trans hH.isHermitian
  refine PosDef.of_dotProduct_mulVec_pos ?_ fun v hv => ?_
  · rw [IsHermitian, conjTranspose_eq_transpose_of_trivial]
    simp only [bfgs, transpose_add, transpose_mul, transpose_sub, transpose_smul, transpose_one,
      transpose_vecMulVec, hsymm, Matrix.mul_assoc]
  · rw [star_trivial, dotProduct_bfgs_mulVec]
    have hinv : 0 < (y ⬝ᵥ s)⁻¹ := inv_pos.mpr hcurved
    by_cases hzero : s ⬝ᵥ v = 0
    · have hsame : unwound s y v = v := by rw [unwound, hzero, mul_zero, zero_smul, sub_zero]
      have hpos : 0 < v ⬝ᵥ H *ᵥ v := hH.dotProduct_mulVec_pos hv
      rw [hsame, hzero]
      simpa using hpos
    · have hnonneg : 0 ≤ unwound s y v ⬝ᵥ H *ᵥ unwound s y v :=
        hH.posSemidef.dotProduct_mulVec_nonneg (unwound s y v)
      have hsquare : 0 < (y ⬝ᵥ s)⁻¹ * (s ⬝ᵥ v) ^ 2 := mul_pos hinv (by positivity)
      linarith

/-- The matrix takes the change of the gradient to the move. -/
theorem bfgs_mulVec_change (H : Matrix (Fin n) (Fin n) ℝ) (hcurved : 0 < y ⬝ᵥ s) :
    bfgs H s y *ᵥ y = s := by
  have hone : (y ⬝ᵥ s)⁻¹ * (s ⬝ᵥ y) = 1 := by
    rw [dotProduct_comm s y, inv_mul_cancel₀ hcurved.ne']
  have hnothing : unwound s y y = 0 := by rw [unwound, hone, one_smul, sub_self]
  rw [bfgs_mulVec, hnothing, hone, mulVec_zero, dotProduct_zero, mul_zero, sub_zero, one_smul,
    zero_add]

end Update

theorem Vec.toFun_ne_zero {n : Nat} {g : Vec ℝ} (hg : g.size = n) (hne : g ≠ Vec.zeros n) :
    g.toFun n ≠ 0 := fun hzero =>
  hne (Vec.toFun_inj hg (Vec.size_zeros n) (hzero.trans (Vec.toFun_zeros n).symm))

namespace Lbfgs

/-! ## The matrix of a memory -/

section Pairs

variable {n : Nat} {gamma : ℝ} {pairs : List (Correction ℝ)} {v : Vec ℝ} {c : Correction ℝ}

/-- The matrix of some pairs, the newest in front, on top of a multiple of the
identity. -/
noncomputable def inverseMatrix (n : Nat) (gamma : ℝ) :
    List (Correction ℝ) → Matrix (Fin n) (Fin n) ℝ
  | [] => gamma • 1
  | c :: older => bfgs (inverseMatrix n gamma older) (c.s.toFun n) (c.y.toFun n)

/-- A pair of vectors of this size, with a positive curvature. -/
structure Curved (n : Nat) (c : Correction ℝ) : Prop where
  s : c.s.size = n
  y : c.y.size = n
  pos : 0 < c.y.toFun n ⬝ᵥ c.s.toFun n

theorem posDef_inverseMatrix (hgamma : 0 < gamma) (hpairs : ∀ c ∈ pairs, Curved n c) :
    (inverseMatrix n gamma pairs).PosDef := by
  induction pairs with
  | nil => exact PosDef.one.smul hgamma
  | cons c older ih =>
      exact posDef_bfgs (ih fun d hd => hpairs d (List.mem_cons_of_mem c hd))
        (hpairs c List.mem_cons_self).pos

/-- Unwinding and winding up multiply by the matrix. -/
theorem toFun_inverse (hpairs : ∀ c ∈ pairs, Curved n c) (hv : v.size = n) :
    (inverse gamma pairs v).toFun n = inverseMatrix n gamma pairs *ᵥ v.toFun n := by
  induction pairs generalizing v with
  | nil => rw [inverse, inverseMatrix, Vec.toFun_scale, smul_mulVec, one_mulVec]
  | cons c older ih =>
      obtain ⟨hs, hy, -⟩ := hpairs c List.mem_cons_self
      have hunwound : (v.addScaled (-((c.y.toFun n ⬝ᵥ c.s.toFun n)⁻¹ *
          (c.s.toFun n ⬝ᵥ v.toFun n))) c.y).toFun n =
          unwound (c.s.toFun n) (c.y.toFun n) (v.toFun n) := by
        rw [Vec.toFun_addScaled hv, unwound, neg_smul, sub_eq_add_neg]
      have hsize := (Vec.size_addScaled v (-((c.y.toFun n ⬝ᵥ c.s.toFun n)⁻¹ *
        (c.s.toFun n ⬝ᵥ v.toFun n))) c.y).trans hv
      have holder := ih (fun d hd => hpairs d (List.mem_cons_of_mem c hd)) hsize
      rw [hunwound] at holder
      simp only [inverse, Vec.dot_eq_dotProduct hs, Vec.dot_eq_dotProduct hy, real_one,
        one_div, real_mul, real_neg, real_sub]
      rw [Vec.toFun_addScaled ((size_inverse _ _ _).trans hsize), holder, inverseMatrix,
        bfgs_mulVec]

/-- What is worth remembering has a positive curvature. -/
theorem curved_of_isFlat_eq_false (hs : c.s.size = n) (hy : c.y.size = n)
    (h : isFlat c = false) : Curved n c := by
  rw [isFlat, decide_eq_false_iff_not, real_le, not_le, real_mul] at h
  refine ⟨hs, hy, ?_⟩
  rw [dotProduct_comm, ← Vec.dot_eq_dotProduct hs]
  exact (mul_nonneg real_epsilon_pos.le c.y.normSq_nonneg).trans_lt h

/-- The multiple of the identity is positive. -/
theorem Holds.gamma_pos {m : Lbfgs ℝ} (h : m.Holds pairs) (hpairs : ∀ c ∈ pairs, Curved n c) :
    0 < m.gamma := by
  rw [gamma, h.s, h.y, List.getLast?_map, List.getLast?_map]
  cases hlast : pairs.getLast? with
  | none => exact real_one.symm ▸ one_pos
  | some c =>
      obtain ⟨hs, hy, hpos⟩ := hpairs c (List.mem_of_getLast? hlast)
      have hne : c.y.toFun n ≠ 0 := fun hzero => by
        rw [hzero, zero_dotProduct] at hpos
        exact lt_irrefl 0 hpos
      show 0 < c.s.dot c.y / c.y.normSq
      rw [Vec.normSq, Vec.dot_eq_dotProduct hs, Vec.dot_eq_dotProduct hy, dotProduct_comm]
      exact div_pos hpos (dotProduct_self_star_pos_iff.mpr hne)

end Pairs

/-! ## Memories -/

section Memories

variable {n rank : Nat} {calls : List (Call ℝ)}

/-- All pairs that are handed over are of vectors of one dimension. -/
def Uniform (n : Nat) (calls : List (Call ℝ)) : Prop :=
  ∀ c, .update c ∈ calls → c.s.size = n ∧ c.y.size = n

theorem Uniform.curved (h : Uniform n calls) (rank : Nat) :
    ∀ c ∈ kept rank (Lbfgs.curved calls), Curved n c := by
  intro c hc
  obtain ⟨hcall, hflat⟩ := mem_curved (kept_subset _ _ hc)
  obtain ⟨hs, hy⟩ := h c hcall
  exact curved_of_isFlat_eq_false hs hy hflat

/-- After any calls the directions are those of a positive definite matrix that
knows the newest pair. -/
theorem exists_matrix_after (h : Uniform n calls) (rank : Nat) :
    ∃ H : Matrix (Fin n) (Fin n) ℝ, H.PosDef ∧
      (∀ g : Vec ℝ, g.size = n → ((after rank calls).direction g).toFun n = -(H *ᵥ g.toFun n)) ∧
      ∀ c ∈ (after rank calls).pairs.getLast?, Curved n c ∧ H *ᵥ c.y.toFun n = c.s.toFun n := by
  have hholds := holds_after rank calls
  have hcurved := h.curved rank
  have hreverse : ∀ c ∈ (kept rank (Lbfgs.curved calls)).reverse, Curved n c :=
    fun c hc => hcurved c (List.mem_reverse.mp hc)
  refine ⟨inverseMatrix n (after rank calls).gamma (kept rank (Lbfgs.curved calls)).reverse,
    posDef_inverseMatrix (hholds.gamma_pos hcurved) hreverse, fun g hg => ?_, fun c hc => ?_⟩
  · rw [direction, Vec.toFun_neg, applyInverse_eq, hholds.pairs_eq, toFun_inverse hreverse hg]
  · rw [hholds.pairs_eq] at hc
    obtain ⟨older, hpairs⟩ := List.getLast?_eq_some_iff.mp hc
    have hnewest := hcurved c (List.mem_of_getLast? hc)
    refine ⟨hnewest, ?_⟩
    rw [hpairs, List.reverse_append]
    exact bfgs_mulVec_change _ hnewest.pos

/-- A direction leads down wherever the gradient does not vanish. -/
theorem downhill_after (h : Uniform n calls) (rank : Nat) {g : Vec ℝ} (hg : g.size = n)
    (hne : g ≠ Vec.zeros n) : g.dot ((after rank calls).direction g) < 0 := by
  obtain ⟨H, hH, hdirection, -⟩ := exists_matrix_after h rank
  rw [Vec.dot_eq_dotProduct hg, hdirection g hg, dotProduct_neg]
  exact neg_neg_of_pos (hH.dotProduct_mulVec_pos (Vec.toFun_ne_zero hg hne))

/-- The directions of a memory after any calls, with pairs of one dimension. They
lead down wherever the gradient does not vanish, they are linear in the gradient,
and the change of the gradient in the newest pair leads back along the move in it.
A line search that asks for them takes them as they are and does not empty the
memory. -/
theorem direction_after (h : Uniform n calls) (rank : Nat) :
    (∀ g : Vec ℝ, g.size = n → g ≠ Vec.zeros n → g.dot ((after rank calls).direction g) < 0) ∧
    (∀ g g' : Vec ℝ, g.size = n → g'.size = n → ∀ a b : ℝ,
      (after rank calls).direction (g.scale a + g'.scale b) =
        ((after rank calls).direction g).scale a + ((after rank calls).direction g').scale b) ∧
    (∀ s, (after rank calls).s.getLast? = some s →
      ∃ y, (after rank calls).y.getLast? = some y ∧ (after rank calls).direction y = -s) ∧
    ∀ {σ : Type} (l : LineSearch ℝ σ) (g : Vec ℝ), l.options.direction = .lbfgs → g.size = n →
      g ≠ Vec.zeros n → l.chooseRay (after rank calls) g =
        (⟨(after rank calls).direction g, g.dot ((after rank calls).direction g)⟩,
          after rank calls) := by
  obtain ⟨H, -, hdirection, hnewest⟩ := exists_matrix_after h rank
  have hsize : ∀ g : Vec ℝ, g.size = n → ((after rank calls).direction g).size = n :=
    fun g hg => (size_direction _ g).trans hg
  refine ⟨fun g => downhill_after h rank, fun g g' hg hg' a b => ?_, fun s hs => ?_,
    fun l g hkind hg hne => ?_⟩
  · have hsum : (g.scale a + g'.scale b).size = n :=
      (Vec.size_add _ _).trans ((Vec.size_scale _ _).trans hg)
    refine Vec.toFun_inj (hsize _ hsum)
      ((Vec.size_add _ _).trans ((Vec.size_scale _ _).trans (hsize g hg))) ?_
    rw [hdirection _ hsum, Vec.toFun_add ((Vec.size_scale _ _).trans hg),
      Vec.toFun_add ((Vec.size_scale _ _).trans (hsize g hg)), Vec.toFun_scale, Vec.toFun_scale,
      Vec.toFun_scale, Vec.toFun_scale, hdirection g hg, hdirection g' hg', mulVec_add,
      mulVec_smul, mulVec_smul, smul_neg, smul_neg, neg_add]
  · have hholds := holds_after rank calls
    rw [hholds.s, List.getLast?_map] at hs
    obtain ⟨c, hc, rfl⟩ := Option.map_eq_some_iff.mp hs
    have hpair : (after rank calls).pairs.getLast? = some c := by rw [hholds.pairs_eq, hc]
    obtain ⟨hcurved, hsecant⟩ := hnewest c hpair
    refine ⟨c.y, by rw [hholds.y, List.getLast?_map, hc]; rfl, ?_⟩
    refine Vec.toFun_inj (hsize _ hcurved.y) ((Vec.size_neg _).trans hcurved.s) ?_
    rw [hdirection _ hcurved.y, hsecant, Vec.toFun_neg]
  · have hslope := downhill_after h rank hg hne
    rw [LineSearch.chooseRay, hkind]
    exact if_pos ((real_lt _ _).mpr (real_zero.symm ▸ hslope))

/-- A memory of rank one that was emptied, and handed two pairs since: it knows
the second one of these. -/
theorem direction_after_replaced :
    let older : List (Call ℝ) := [.update ⟨.ofList [1, 0], .ofList [1, 0]⟩, .reset,
      .update ⟨.ofList [0, 1], .ofList [0, 4]⟩]
    let calls := older ++ [.update ⟨.ofList [1, 1], .ofList [2, 1]⟩]
    Uniform 2 calls ∧
    (∀ g : Vec ℝ, g.size = 2 → g ≠ Vec.zeros 2 → g.dot ((after 1 calls).direction g) < 0) ∧
    (after 1 calls).direction (.ofList [2, 1]) = -.ofList [1, 1] := by
  intro older calls
  have huniform : Uniform 2 calls := by
    intro c hc
    simp only [calls, older, List.cons_append, List.nil_append, List.mem_cons, Call.update.injEq,
      reduceCtorEq, List.not_mem_nil, or_false, false_or] at hc
    rcases hc with rfl | rfl | rfl <;> exact ⟨rfl, rfl⟩
  obtain ⟨hdown, -, hnewest, -⟩ := direction_after huniform 1
  have hcurved : isFlat (⟨.ofList [1, 1], .ofList [2, 1]⟩ : Correction ℝ) = false := by
    refine decide_eq_false ?_
    rw [real_le, not_le, real_mul, Vec.normSq_eq_sum, Vec.dot_eq_sum]
    norm_num [Finset.sum_range_succ, Vec.ofList, Vec.size, Vec.get, Scalar.epsilon]
  have hnew : (after 1 calls).s.getLast? = some (.ofList [1, 1]) ∧
      (after 1 calls).y.getLast? = some (.ofList [2, 1]) := by
    rw [after, List.foldl_append]
    exact newest_update _ hcurved
  obtain ⟨y, hy, hdirection⟩ := hnewest _ hnew.1
  cases hnew.2.symm.trans hy
  exact ⟨huniform, hdown, hdirection⟩

end Memories
end Lbfgs
end LeastSquares
