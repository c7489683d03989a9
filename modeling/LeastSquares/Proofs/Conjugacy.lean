import LeastSquares.Proofs.IterativeSolvers
import Mathlib.LinearAlgebra.Dimension.Constructions
import Mathlib.LinearAlgebra.FiniteDimensional.Lemmas

/-!
# Conjugate directions

With a symmetric positive definite matrix and an approximate inverse that is
linear, symmetric and positive definite, every new direction of the search is
conjugate to all directions before it, and every residual is orthogonal to them.
A residual that is not zero shows that there is room for one more direction, so
over the real numbers a system of size `n` is solved in at most `n` iterations,
whatever the tolerance is.

The recurrences of the iteration only mention the last direction. What ties the
new direction to the older ones is that the span of the directions, with the
next one added, holds the images of its vectors under the preconditioned matrix.

## Main definitions

* `GradientState.Visits` — the states that a search goes through.
* `GradientState.Conjugate` — what is kept of the directions so far, by their
  span.

## Main results

* `GradientState.Conjugate.next` — an iteration adds its direction to the span.
* `GradientState.Visits.conjugate` — the directions of a whole search.
* `conjugateGradients_terminates` — the search ends within `n` iterations.
-/

namespace LeastSquares

open Matrix Module Submodule

namespace GradientState

variable {n : Nat} {M P : Matrix (Fin n) (Fin n) ℝ} {g : Fin n → ℝ}
  {W : Submodule ℝ (Fin n → ℝ)} {apply precondition : Vec ℝ → Vec ℝ}
  {limits : GradientLimits ℝ} {s : GradientState ℝ}

/-! ## The directions so far -/

/-- What the iteration keeps of the directions it has searched, which span `W`:
residual and direction are orthogonal and conjugate to them, and the direction
is the preconditioned residual up to a vector of the span. -/
structure Conjugate (M P : Matrix (Fin n) (Fin n) ℝ) (g : Fin n → ℝ)
    (W : Submodule ℝ (Fin n → ℝ)) (s : GradientState ℝ) : Prop where
  ready : s.Ready M g
  rz : s.rz = s.r.toFun n ⬝ᵥ P *ᵥ s.r.toFun n
  unsolved : s.r.toFun n ≠ 0
  residual : ∀ w ∈ W, s.r.toFun n ⬝ᵥ w = 0
  direction : ∀ w ∈ W, M *ᵥ s.p.toFun n ⬝ᵥ w = 0
  search : s.p.toFun n - P *ᵥ s.r.toFun n ∈ W
  images : ∀ w ∈ W, P *ᵥ (M *ᵥ w) ∈ W ⊔ ℝ ∙ s.p.toFun n

/-- A symmetric matrix can change sides in a product. -/
theorem mulVec_dotProduct_comm (hM : M.PosDef) (u v : Fin n → ℝ) :
    M *ᵥ u ⬝ᵥ v = u ⬝ᵥ M *ᵥ v := by
  rw [dotProduct_mulVec, ← mulVec_transpose, transpose_eq_of_posDef hM]

/-- A vector that is orthogonal to a subspace and to one more vector is
orthogonal to their span. -/
theorem dotProduct_eq_zero_of_mem_sup {u p w : Fin n → ℝ} (hW : ∀ w ∈ W, u ⬝ᵥ w = 0)
    (hp : u ⬝ᵥ p = 0) (hw : w ∈ W ⊔ ℝ ∙ p) : u ⬝ᵥ w = 0 := by
  obtain ⟨v, hv, c, hc, rfl⟩ := mem_sup.mp hw
  obtain ⟨t, rfl⟩ := mem_span_singleton.mp hc
  rw [dotProduct_add, hW v hv, dotProduct_smul, hp, smul_zero, add_zero]

namespace Conjugate

section

variable (hM : M.PosDef) (hP : P.PosDef) (happly : Multiplies apply M) (hs : s.Conjugate M P g W)

include hP hs in
theorem rz_pos : 0 < s.rz := by
  rw [hs.rz]
  exact hP.dotProduct_mulVec_pos hs.unsolved

include hM hP happly hs in
/-- The search does not get stuck. -/
theorem curvature_pos : 0 < s.p.dot (apply s.p) := by
  have hp : s.p.toFun n ≠ 0 := by
    intro hp
    have hproduct := hs.ready.product
    rw [hp, dotProduct_zero] at hproduct
    exact (hs.rz_pos hP).ne hproduct
  rw [hs.ready.curvature happly]
  exact hM.dotProduct_mulVec_pos hp

include hs in
/-- The residual shows that the directions so far do not span everything. -/
theorem finrank_span_lt : finrank ℝ W < n := by
  have hne : W ≠ ⊤ := by
    rintro rfl
    exact hs.unsolved (dotProduct_self_eq_zero.mp (hs.residual _ mem_top))
  exact (Submodule.finrank_lt hne).trans_eq (finrank_fin_fun ℝ)

include hP hs in
/-- The direction is a new one. -/
theorem finrank_lt_sup : finrank ℝ W < finrank ℝ ↥(W ⊔ ℝ ∙ s.p.toFun n) := by
  have hmem : s.p.toFun n ∉ W := fun h => (hs.rz_pos hP).ne' <| by
    rw [← hs.ready.product, hs.residual _ h]
  refine Submodule.finrank_lt_finrank_of_lt (lt_of_le_of_ne le_sup_left fun heq => hmem ?_)
  rw [heq]
  exact mem_sup_right (mem_span_singleton_self _)

/-! ## One more direction -/

include hs in
theorem toFun_nextR : (nextR apply s).toFun n =
    s.r.toFun n - (s.rz / s.p.dot (apply s.p)) • (apply s.p).toFun n := by
  rw [nextR, Vec.toFun_addScaled hs.ready.sizeR, neg_smul, sub_eq_add_neg]

include hM hP happly hs in
/-- The image of the direction is what the residual loses. -/
theorem image_direction : M *ᵥ s.p.toFun n =
    (s.p.dot (apply s.p) / s.rz) • (s.r.toFun n - (nextR apply s).toFun n) := by
  have hcurvature := (hs.curvature_pos hM hP happly).ne'
  have hrz := (hs.rz_pos hP).ne'
  rw [hs.toFun_nextR, sub_sub_cancel, smul_smul, happly.toFun s.p hs.ready.sizeP,
    div_mul_div_cancel₀ hrz, div_self hcurvature, one_smul]

include hM hP happly hs in
/-- The residual that is left is orthogonal to all directions. -/
theorem nextR_dotProduct {w : Fin n → ℝ} (hw : w ∈ W ⊔ ℝ ∙ s.p.toFun n) :
    (nextR apply s).toFun n ⬝ᵥ w = 0 := by
  refine dotProduct_eq_zero_of_mem_sup (fun w hw => ?_)
    (hs.ready.nextR_dotProduct happly (hs.curvature_pos hM hP happly)) hw
  rw [hs.toFun_nextR, sub_dotProduct, smul_dotProduct, hs.residual w hw,
    happly.toFun s.p hs.ready.sizeP, hs.direction w hw, smul_zero, sub_zero]

include hs in
/-- The preconditioned residual lies in the span of the directions with the next
one. -/
theorem preconditioned_mem : P *ᵥ s.r.toFun n ∈ W ⊔ ℝ ∙ s.p.toFun n := by
  have hsplit : P *ᵥ s.r.toFun n = s.p.toFun n - (s.p.toFun n - P *ᵥ s.r.toFun n) := by
    rw [sub_sub_cancel]
  rw [hsplit]
  exact sub_mem (mem_sup_right (mem_span_singleton_self _)) (mem_sup_left hs.search)

variable (hpre : Multiplies precondition P)

include hpre hs in
theorem toFun_next_p : (next apply precondition s).p.toFun n =
    P *ᵥ (nextR apply s).toFun n + ((next apply precondition s).rz / s.rz) • s.p.toFun n := by
  have hsize : (nextR apply s).size = n := (Vec.size_addScaled _ _ _).trans hs.ready.sizeR
  show ((precondition (nextR apply s)).addScaled _ s.p).toFun n = _
  rw [Vec.toFun_addScaled (hpre.size _ hsize), hpre.toFun _ hsize]
  rfl

include hpre hs in
theorem next_rz : (next apply precondition s).rz =
    (nextR apply s).toFun n ⬝ᵥ P *ᵥ (nextR apply s).toFun n := by
  have hsize : (nextR apply s).size = n := (Vec.size_addScaled _ _ _).trans hs.ready.sizeR
  show (nextR apply s).dot (precondition (nextR apply s)) = _
  rw [Vec.dot_eq_dotProduct hsize, hpre.toFun _ hsize]

include hM hP happly hpre hs in
/-- The new direction is conjugate to the last one: this is what the quotient of
the products is for. -/
theorem next_direction_self : M *ᵥ (next apply precondition s).p.toFun n ⬝ᵥ s.p.toFun n = 0 := by
  have hrz := (hs.rz_pos hP).ne'
  have hold : P *ᵥ (nextR apply s).toFun n ⬝ᵥ s.r.toFun n = 0 := by
    rw [mulVec_dotProduct_comm hP]
    exact hs.nextR_dotProduct hM hP happly hs.preconditioned_mem
  have hnew : P *ᵥ (nextR apply s).toFun n ⬝ᵥ M *ᵥ s.p.toFun n =
      -(s.p.dot (apply s.p) / s.rz * (next apply precondition s).rz) := by
    rw [hs.image_direction hM hP happly, dotProduct_smul, dotProduct_sub, hold, zero_sub,
      dotProduct_comm, ← hs.next_rz hpre, smul_eq_mul, mul_neg]
  rw [mulVec_dotProduct_comm hM, hs.toFun_next_p hpre, add_dotProduct, hnew, smul_dotProduct,
    ← hs.ready.curvature happly, smul_eq_mul]
  ring

include hM hP happly hpre hs in
/-- The new direction is conjugate to all directions before it. -/
theorem next_direction {w : Fin n → ℝ} (hw : w ∈ W ⊔ ℝ ∙ s.p.toFun n) :
    M *ᵥ (next apply precondition s).p.toFun n ⬝ᵥ w = 0 := by
  refine dotProduct_eq_zero_of_mem_sup (fun w hw => ?_)
    (hs.next_direction_self hM hP happly hpre) hw
  calc M *ᵥ (next apply precondition s).p.toFun n ⬝ᵥ w
      = P *ᵥ (nextR apply s).toFun n ⬝ᵥ M *ᵥ w +
          (next apply precondition s).rz / s.rz * (M *ᵥ s.p.toFun n ⬝ᵥ w) := by
        rw [mulVec_dotProduct_comm hM, hs.toFun_next_p hpre, add_dotProduct, smul_dotProduct,
          mulVec_dotProduct_comm hM, smul_eq_mul]
    _ = (nextR apply s).toFun n ⬝ᵥ P *ᵥ (M *ᵥ w) := by
        rw [hs.direction w hw, mul_zero, add_zero, mulVec_dotProduct_comm hP]
    _ = 0 := hs.nextR_dotProduct hM hP happly (hs.images w hw)

include hM hP happly hpre hs in
/-- The image of a direction is made of this one, those before it and the
next. -/
theorem next_images {w : Fin n → ℝ} (hw : w ∈ W ⊔ ℝ ∙ s.p.toFun n) :
    P *ᵥ (M *ᵥ w) ∈ (W ⊔ ℝ ∙ s.p.toFun n) ⊔ ℝ ∙ (next apply precondition s).p.toFun n := by
  have hlast : s.p.toFun n ∈ W ⊔ ℝ ∙ s.p.toFun n := mem_sup_right (mem_span_singleton_self _)
  have hresidual : P *ᵥ (nextR apply s).toFun n ∈
      (W ⊔ ℝ ∙ s.p.toFun n) ⊔ ℝ ∙ (next apply precondition s).p.toFun n := by
    rw [eq_sub_of_add_eq (hs.toFun_next_p hpre).symm]
    exact sub_mem (mem_sup_right (mem_span_singleton_self _))
      (mem_sup_left (smul_mem _ _ hlast))
  obtain ⟨v, hv, c, hc, rfl⟩ := mem_sup.mp hw
  obtain ⟨t, rfl⟩ := mem_span_singleton.mp hc
  rw [mulVec_add, mulVec_add, mulVec_smul, mulVec_smul, hs.image_direction hM hP happly,
    mulVec_smul, mulVec_sub]
  refine add_mem (mem_sup_left (hs.images v hv)) (smul_mem _ _ (smul_mem _ _ ?_))
  exact sub_mem (mem_sup_left hs.preconditioned_mem) hresidual

include hM hP happly hpre hs in
/-- An iteration that goes on adds its direction to the span. -/
theorem next (hne : (nextR apply s).toFun n ≠ 0) :
    (next apply precondition s).Conjugate M P g (W ⊔ ℝ ∙ s.p.toFun n) where
  ready := hs.ready.next happly hpre.size (hs.curvature_pos hM hP happly)
  rz := hs.next_rz hpre
  unsolved := hne
  residual _ hw := hs.nextR_dotProduct hM hP happly hw
  direction _ hw := hs.next_direction hM hP happly hpre hw
  search := by
    rw [hs.toFun_next_p hpre]
    show _ + _ - P *ᵥ (nextR apply s).toFun n ∈ _
    rw [add_sub_cancel_left]
    exact smul_mem _ _ (mem_sup_right (mem_span_singleton_self _))
  images _ hw := hs.next_images hM hP happly hpre hw

end

end Conjugate

/-! ## A whole search -/

/-- The states that a search goes through, with the number of iterations that
led there. -/
inductive Visits (apply precondition : Vec ℝ → Vec ℝ) (limits : GradientLimits ℝ) (rhs : Vec ℝ) :
    Nat → GradientState ℝ → Prop where
  | start : rhs.norm ≠ 0 → Visits apply precondition limits rhs 0 (start precondition rhs)
  | next {done : Nat} {s s' : GradientState ℝ} : Visits apply precondition limits rhs done s →
      done < limits.maxIterations →
      step apply precondition limits (done + 1) s = .next s' →
      Visits apply precondition limits rhs (done + 1) s'

section Visits

variable {rhs : Vec ℝ} {done : Nat}

/-- From a state that a search goes through it goes on to its result. -/
theorem Visits.iterate_eq {minIterations maxIterations : Nat} {tolerance : ℝ}
    (h : Visits apply precondition ⟨minIterations, maxIterations, tolerance * rhs.norm⟩ rhs
      done s) :
    iterate apply precondition ⟨minIterations, maxIterations, tolerance * rhs.norm⟩
      (maxIterations - done) done s =
        conjugateGradients apply precondition rhs minIterations maxIterations tolerance := by
  induction h with
  | start hne =>
      rw [conjugateGradients]
      exact (if_neg (by simpa using hne)).symm
  | @next done s s' h hlt hstep ih =>
      have hleft : maxIterations - done = (maxIterations - (done + 1)) + 1 := by
        have hlt : done < maxIterations := hlt
        omega
      rw [← ih, hleft, GradientState.iterate, hstep]

variable (hM : M.PosDef) (hP : P.PosDef) (happly : Multiplies apply M)
  (hpre : Multiplies precondition P) (hrhs : rhs.size = n)

include hP hpre hrhs in
theorem conjugate_start (hne : rhs.norm ≠ 0) :
    (start precondition rhs).Conjugate M P (rhs.toFun n) ⊥ where
  ready := ready_start M (hpre.positive hP) hrhs
  rz := by
    show rhs.dot (precondition rhs) = rhs.toFun n ⬝ᵥ P *ᵥ rhs.toFun n
    rw [Vec.dot_eq_dotProduct hrhs, hpre.toFun rhs hrhs]
  unsolved := (Vec.norm_eq_zero_iff hrhs).not.mp hne
  residual w hw := by rw [(mem_bot ℝ).mp hw, dotProduct_zero]
  direction w hw := by rw [(mem_bot ℝ).mp hw, dotProduct_zero]
  search := by
    show (precondition rhs).toFun n - P *ᵥ rhs.toFun n ∈ _
    rw [hpre.toFun rhs hrhs, sub_self]
    exact zero_mem _
  images w hw := by
    rw [(mem_bot ℝ).mp hw, mulVec_zero, mulVec_zero]
    exact zero_mem _

include hM hP happly hpre hrhs in
/-- After some iterations the directions span a space of at least as many
dimensions. -/
theorem Visits.conjugate (h : Visits apply precondition limits rhs done s) :
    ∃ W : Submodule ℝ (Fin n → ℝ), done ≤ finrank ℝ W ∧ s.Conjugate M P (rhs.toFun n) W := by
  induction h with
  | start hne => exact ⟨⊥, Nat.zero_le _, conjugate_start hP hpre hrhs hne⟩
  | @next done s s' _ _ hstep ih =>
      obtain ⟨W, hdone, hs⟩ := ih
      obtain ⟨-, h⟩ | ⟨-, ⟨-, h⟩ | ⟨hsuffices, h⟩⟩ :=
        step_cases apply precondition limits (done + 1) s
      · cases h.symm.trans hstep
      · cases h.symm.trans hstep
      · cases h.symm.trans hstep
        have hsize : (nextR apply s).size = n := (Vec.size_addScaled _ _ _).trans hs.ready.sizeR
        have hne : (nextR apply s).toFun n ≠ 0 := fun hzero =>
          hsuffices (.inl ((Vec.norm_eq_zero_iff hsize).mpr hzero))
        have hlt := hs.finrank_lt_sup hP
        exact ⟨_, by omega, hs.next hM hP happly hpre hne⟩

include hM hP happly hpre hrhs in
/-- A search that has not ended has gone through fewer iterations than there are
unknowns, and its direction has positive curvature. -/
theorem Visits.lt_and_pos (h : Visits apply precondition limits rhs done s) :
    done < n ∧ 0 < s.p.dot (apply s.p) := by
  obtain ⟨W, hdone, hs⟩ := h.conjugate hM hP happly hpre hrhs
  exact ⟨hdone.trans_lt hs.finrank_span_lt, hs.curvature_pos hM hP happly⟩

include hM hP happly hpre hrhs in
/-- With enough iterations left the search converges. -/
theorem Visits.iterate {left : Nat} (h : Visits apply precondition limits rhs done s)
    (hleft : done + left = limits.maxIterations) (hmax : n ≤ limits.maxIterations) :
    ∃ found, iterate apply precondition limits left done s = .ok found ∧
      found.converged = true ∧ found.iterations ≤ n := by
  obtain ⟨hlt, hpos⟩ := h.lt_and_pos hM hP happly hpre hrhs
  induction left generalizing done s with
  | zero => omega
  | succ left ih =>
      rw [GradientState.iterate]
      obtain ⟨hle, -⟩ | ⟨-, ⟨-, hstep⟩ | ⟨-, hstep⟩⟩ :=
        step_cases apply precondition limits (done + 1) s
      · exact absurd hpos hle.not_gt
      · rw [hstep]
        exact ⟨_, rfl, rfl, hlt⟩
      · rw [hstep]
        have hvisits := h.next (by omega) hstep
        obtain ⟨hlt', hpos'⟩ := hvisits.lt_and_pos hM hP happly hpre hrhs
        exact ih hvisits (by omega) hlt' hpos'

end Visits

end GradientState

/-- The search converges in at most as many iterations as there are unknowns. -/
theorem conjugateGradients_converges {n : Nat} {M P : Matrix (Fin n) (Fin n) ℝ}
    {apply precondition : Vec ℝ → Vec ℝ} {rhs : Vec ℝ} {maxIterations : Nat} (hM : M.PosDef)
    (hP : P.PosDef) (happly : Multiplies apply M) (hpre : Multiplies precondition P)
    (hrhs : rhs.size = n) (minIterations : Nat) (hmax : n ≤ maxIterations) (tolerance : ℝ) :
    ∃ found, conjugateGradients apply precondition rhs minIterations maxIterations tolerance =
      .ok found ∧ found.converged = true ∧ found.iterations ≤ n := by
  by_cases hzero : rhs.norm = 0
  · refine ⟨⟨Vec.zeros rhs.size, 0, true⟩, ?_, rfl, Nat.zero_le _⟩
    rw [conjugateGradients]
    exact if_pos (by simpa using hzero)
  · have hvisits : GradientState.Visits apply precondition
        ⟨minIterations, maxIterations, tolerance * rhs.norm⟩ rhs 0
        (GradientState.start precondition rhs) := .start hzero
    rw [← hvisits.iterate_eq]
    exact hvisits.iterate hM hP happly hpre hrhs (by simp) hmax

/-- In exact arithmetic the search for the solution of a definite system, guided
by a definite approximate inverse, succeeds if it is given an iteration for each
unknown: it never meets a direction without positive curvature, and it
converges in at most as many iterations as there are unknowns. -/
theorem conjugateGradients_terminates {n : Nat} {M P : Matrix (Fin n) (Fin n) ℝ}
    {apply precondition : Vec ℝ → Vec ℝ} {rhs : Vec ℝ} {maxIterations : Nat} (hM : M.PosDef)
    (hP : P.PosDef) (happly : Multiplies apply M) (hpre : Multiplies precondition P)
    (hrhs : rhs.size = n) (minIterations : Nat) (hmax : n ≤ maxIterations) (tolerance : ℝ) :
    (∃ found, conjugateGradients apply precondition rhs minIterations maxIterations tolerance =
      .ok found ∧ found.converged = true ∧ found.iterations ≤ n) ∧
    ∀ done s, GradientState.Visits apply precondition
      ⟨minIterations, maxIterations, tolerance * rhs.norm⟩ rhs done s →
        0 < s.p.dot (apply s.p) :=
  ⟨conjugateGradients_converges hM hP happly hpre hrhs minIterations hmax tolerance,
    fun _ _ hvisits => (hvisits.lt_and_pos hM hP happly hpre hrhs).2⟩

theorem conjugateGradients_terminates_oneEquation :
    let a := oneEquation
    let d2 : Vec ℝ := Vec.ofList [1, 1]
    let apply := fun v : Vec ℝ => a.leftMultiply (a.rightMultiply v) + d2.mulEntries v
    let precondition := (Preconditioner.ofDiagonal (Vec.ofList [2, 2] : Vec ℝ)).apply
    let rhs : Vec ℝ := Vec.ofList [3, 3]
    (∃ found, conjugateGradients apply precondition rhs 0 2 0 = .ok found ∧
      found.converged = true ∧ found.iterations ≤ 2) ∧
    ∀ done s, GradientState.Visits apply precondition ⟨0, 2, 0 * rhs.norm⟩ rhs done s →
      0 < s.p.dot (apply s.p) :=
  conjugateGradients_terminates (posDef_normalSystem positive_oneEquation)
    (Preconditioner.posDef_inverseDiagonal _)
    (multiplies_normalSystem wellFormed_oneEquation rfl)
    (Preconditioner.multiplies_ofDiagonal rfl) rfl 0 (Nat.le_refl 2) 0

/-! ## The normal equations -/

section NormalEquations

variable {a : BlockMatrix ℝ} {b d2 : Vec ℝ} {d : Option (Vec ℝ)} {maxIterations : Nat}

/-- Definite normal equations are solved in at most as many iterations as there
are columns, with every preconditioner. -/
theorem normalGradients?_converges (ha : a.WellFormed) (hb : b.size = a.numRows)
    (hd : regularizerSquared d a.numCols = .ok d2) (h : (normalSystem a d2).PosDef)
    (kind : PreconditionerKind) (minIterations : Nat) (hmax : a.numCols ≤ maxIterations)
    (tolerance : ℝ) :
    ∃ found, normalGradients? kind minIterations maxIterations a b d tolerance = .ok found ∧
      found.converged = true ∧ found.iterations ≤ a.numCols := by
  obtain ⟨P, hP, hpre⟩ := multiplies_normalPreconditioner kind
    ((Vec.size_add _ d2).trans a.size_squaredColumnNorms)
  rw [normalGradients?_eq hb hd]
  exact conjugateGradients_converges h hP
    (multiplies_normalSystem ha (size_of_regularizerSquared hd)) hpre (a.size_leftMultiply b)
    minIterations hmax tolerance

end NormalEquations

end LeastSquares
