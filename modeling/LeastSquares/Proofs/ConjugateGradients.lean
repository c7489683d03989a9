import LeastSquares.LinearSolver.ConjugateGradients
import LeastSquares.Proofs.Matrices
import LeastSquares.Proofs.Quadratic

/-!
# Conjugate gradients over the real numbers

Every iteration of conjugate gradients minimizes the quadratic model of its
system along a direction, so the model never rises, and as the search starts at
zero it drops in the first iteration. Wherever the iteration ends, be it at a
loose tolerance or at the limit of iterations, the model is lower than at zero.
This does not need the directions to be conjugate.

## Main definitions

* `Multiplies`, `Positive` — what is asked of the operator and of the
  approximate inverse.
* `GradientState.Tracks`, `GradientState.Ready` — what every iteration keeps,
  with any matrix and with a definite one.

## Main results

* `GradientState.step_cases` — the ways in which an iteration ends.
* `GradientState.Ready.step` — an iteration lowers the model.
* `conjugateGradients_spec` — the search succeeds and lowers the model.
-/

namespace LeastSquares

open Matrix

/-! ## Operators -/

/-- A function of vectors multiplies them by a matrix. -/
structure Multiplies {n : Nat} (apply : Vec ℝ → Vec ℝ) (M : Matrix (Fin n) (Fin n) ℝ) :
    Prop where
  size : ∀ v : Vec ℝ, v.size = n → (apply v).size = n
  toFun : ∀ v : Vec ℝ, v.size = n → (apply v).toFun n = M *ᵥ v.toFun n

/-- A function of vectors keeps their size. -/
def KeepsSize (n : Nat) (f : Vec ℝ → Vec ℝ) : Prop := ∀ v : Vec ℝ, v.size = n → (f v).size = n

/-- A function of vectors turns none of them by a right angle or more. -/
structure Positive (n : Nat) (precondition : Vec ℝ → Vec ℝ) : Prop where
  size : ∀ v : Vec ℝ, v.size = n → (precondition v).size = n
  pos : ∀ v : Vec ℝ, v.size = n → v.toFun n ≠ 0 → 0 < v.toFun n ⬝ᵥ (precondition v).toFun n

/-- Multiplying by a definite matrix turns no vector that far. -/
theorem Multiplies.positive {n : Nat} {precondition : Vec ℝ → Vec ℝ}
    {P : Matrix (Fin n) (Fin n) ℝ} (hpre : Multiplies precondition P) (hP : P.PosDef) :
    Positive n precondition where
  size := hpre.size
  pos v hv hne := by
    rw [hpre.toFun v hv]
    exact hP.dotProduct_mulVec_pos hne

/-! ## One iteration -/

namespace GradientState

variable {n : Nat} {M : Matrix (Fin n) (Fin n) ℝ} {g : Fin n → ℝ}
  {apply precondition : Vec ℝ → Vec ℝ} {limits : GradientLimits ℝ} {s : GradientState ℝ}

/-- What an iteration keeps with any matrix and any approximate inverse: the
residual that is carried along is that of the approximation. -/
structure Tracks (M : Matrix (Fin n) (Fin n) ℝ) (g : Fin n → ℝ) (s : GradientState ℝ) :
    Prop where
  sizeX : s.x.size = n
  sizeR : s.r.size = n
  sizeP : s.p.size = n
  residual : s.r.toFun n = g - M *ᵥ s.x.toFun n

/-- What every iteration keeps: the residual is that of the approximation, and
its product with the direction is the number that is carried along. -/
structure Ready (M : Matrix (Fin n) (Fin n) ℝ) (g : Fin n → ℝ) (s : GradientState ℝ) :
    Prop where
  sizeX : s.x.size = n
  sizeR : s.r.size = n
  sizeP : s.p.size = n
  residual : s.r.toFun n = g - M *ᵥ s.x.toFun n
  product : s.r.toFun n ⬝ᵥ s.p.toFun n = s.rz

theorem Ready.tracks (hs : s.Ready M g) : s.Tracks M g :=
  ⟨hs.sizeX, hs.sizeR, hs.sizeP, hs.residual⟩

theorem ready_start {rhs : Vec ℝ} (M : Matrix (Fin n) (Fin n) ℝ) (hpre : Positive n precondition)
    (hrhs : rhs.size = n) : (start precondition rhs).Ready M (rhs.toFun n) where
  sizeX := (Vec.size_zeros _).trans hrhs
  sizeR := hrhs
  sizeP := hpre.size rhs hrhs
  residual := by
    have hx : (start precondition rhs).x.toFun n = 0 := by
      rw [start, hrhs, Vec.toFun_zeros]
    rw [hx, mulVec_zero, sub_zero]
    rfl
  product := (Vec.dot_eq_dotProduct hrhs).symm

/-- An approximation at which the model is no higher than at that of the state,
and lower if the carried number is not zero. -/
structure Lowers (M : Matrix (Fin n) (Fin n) ℝ) (g : Fin n → ℝ) (s : GradientState ℝ)
    (x : Vec ℝ) : Prop where
  size : x.size = n
  le : quadratic M g (x.toFun n) ≤ quadratic M g (s.x.toFun n)
  lt : s.rz ≠ 0 → quadratic M g (x.toFun n) < quadratic M g (s.x.toFun n)

/-- The approximation after an iteration. -/
noncomputable def nextX (apply : Vec ℝ → Vec ℝ) (s : GradientState ℝ) : Vec ℝ :=
  s.x.addScaled (s.rz / s.p.dot (apply s.p)) s.p

/-- The residual after an iteration. -/
noncomputable def nextR (apply : Vec ℝ → Vec ℝ) (s : GradientState ℝ) : Vec ℝ :=
  s.r.addScaled (-(s.rz / s.p.dot (apply s.p))) (apply s.p)

/-- The state after an iteration that goes on. -/
noncomputable def next (apply precondition : Vec ℝ → Vec ℝ) (s : GradientState ℝ) :
    GradientState ℝ :=
  let z := precondition (nextR apply s)
  let rz := (nextR apply s).dot z
  ⟨nextX apply s, nextR apply s, z.addScaled (rz / s.rz) s.p, rz⟩

/-- The residual after an iteration is one to stop at. -/
def Suffices (apply : Vec ℝ → Vec ℝ) (limits : GradientLimits ℝ) (number : Nat)
    (s : GradientState ℝ) : Prop :=
  (nextR apply s).norm = 0 ∨
    limits.minIterations ≤ number ∧ (nextR apply s).norm ≤ limits.target

/-- The three ways in which an iteration can end. -/
theorem step_cases (apply precondition : Vec ℝ → Vec ℝ) (limits : GradientLimits ℝ)
    (number : Nat) (s : GradientState ℝ) :
    s.p.dot (apply s.p) ≤ 0 ∧ step apply precondition limits number s = .stuck ∨
    0 < s.p.dot (apply s.p) ∧
      (s.Suffices apply limits number ∧
        step apply precondition limits number s = .converged (nextX apply s) ∨
      ¬s.Suffices apply limits number ∧
        step apply precondition limits number s = .next (next apply precondition s)) := by
  unfold step
  dsimp only
  split
  · rename_i h
    exact .inl ⟨by simpa using h, rfl⟩
  · rename_i h
    refine .inr ⟨by simpa using h, ?_⟩
    split
    · rename_i htest
      exact .inl ⟨by simpa [Suffices, nextR] using htest, rfl⟩
    · rename_i htest
      exact .inr ⟨fun hsuffices => htest (by simpa [Suffices, nextR] using hsuffices), rfl⟩

/-- Approximation and residual move together, whatever the length of the step
is. -/
theorem Tracks.residual_next (happly : Multiplies apply M) (hs : s.Tracks M g) :
    (nextR apply s).toFun n = g - M *ᵥ (nextX apply s).toFun n := by
  rw [nextR, nextX, Vec.toFun_addScaled hs.sizeR, Vec.toFun_addScaled hs.sizeX,
    happly.toFun s.p hs.sizeP, hs.residual, mulVec_add, mulVec_smul, neg_smul]
  abel

theorem Tracks.next (happly : Multiplies apply M) (hpre : KeepsSize n precondition)
    (hs : s.Tracks M g) : (next apply precondition s).Tracks M g where
  sizeX := (Vec.size_addScaled _ _ _).trans hs.sizeX
  sizeR := (Vec.size_addScaled _ _ _).trans hs.sizeR
  sizeP := (Vec.size_addScaled _ _ _).trans (hpre _ ((Vec.size_addScaled _ _ _).trans hs.sizeR))
  residual := hs.residual_next happly

section Step

variable (hM : M.PosDef) (happly : Multiplies apply M) (hs : s.Ready M g)

include happly hs in
theorem Ready.curvature : s.p.dot (apply s.p) = s.p.toFun n ⬝ᵥ M *ᵥ s.p.toFun n := by
  rw [Vec.dot_eq_dotProduct hs.sizeP, happly.toFun s.p hs.sizeP]

include hM happly hs in
/-- The search is stuck only if there is nothing left to gain. -/
theorem Ready.rz_of_curvature (h : s.p.dot (apply s.p) ≤ 0) : s.rz = 0 := by
  rw [hs.curvature happly] at h
  have hp : s.p.toFun n = 0 := by
    by_contra hp
    exact absurd h (not_le.mpr (hM.dotProduct_mulVec_pos hp))
  rw [← hs.product, hp, dotProduct_zero]

include hM happly hs in
/-- The approximation is the best along its direction. -/
theorem Ready.lowers_next (h : 0 < s.p.dot (apply s.p)) : s.Lowers M g (nextX apply s) := by
  have hvalue : quadratic M g ((nextX apply s).toFun n) =
      quadratic M g (s.x.toFun n) - s.rz ^ 2 / s.p.dot (apply s.p) / 2 := by
    rw [nextX, Vec.toFun_addScaled hs.sizeX, quadratic_add_smul hM, ← hs.residual, hs.product,
      ← hs.curvature happly]
    field_simp
    ring
  refine ⟨(Vec.size_addScaled _ _ _).trans hs.sizeX, ?_, fun hrz => ?_⟩
  · have hnonneg : 0 ≤ s.rz ^ 2 / s.p.dot (apply s.p) := by positivity
    linarith
  · have hpos : 0 < s.rz ^ 2 / s.p.dot (apply s.p) := by positivity
    linarith

include happly hs in
/-- The residual that is left is orthogonal to the direction. -/
theorem Ready.nextR_dotProduct (h : 0 < s.p.dot (apply s.p)) :
    (nextR apply s).toFun n ⬝ᵥ s.p.toFun n = 0 := by
  rw [nextR, Vec.toFun_addScaled hs.sizeR, add_dotProduct, smul_dotProduct, hs.product,
    happly.toFun s.p hs.sizeP, dotProduct_comm (M *ᵥ _), ← hs.curvature happly, smul_eq_mul,
    neg_mul, div_mul_cancel₀ _ h.ne', add_neg_cancel]

include happly hs in
/-- An iteration that goes on keeps the invariant. -/
theorem Ready.next (hpre : KeepsSize n precondition) (h : 0 < s.p.dot (apply s.p)) :
    (next apply precondition s).Ready M g := by
  have hsize : (nextR apply s).size = n := (Vec.size_addScaled _ _ _).trans hs.sizeR
  have htracks := hs.tracks.next happly hpre
  refine ⟨htracks.sizeX, htracks.sizeR, htracks.sizeP, htracks.residual, ?_⟩
  show (nextR apply s).toFun n ⬝ᵥ ((precondition (nextR apply s)).addScaled
    ((nextR apply s).dot (precondition (nextR apply s)) / s.rz) s.p).toFun n =
      (nextR apply s).dot (precondition (nextR apply s))
  rw [Vec.toFun_addScaled (hpre _ hsize), dotProduct_add, dotProduct_smul,
    hs.nextR_dotProduct happly h, smul_zero, add_zero, Vec.dot_eq_dotProduct hsize]

/-- What an iteration comes to, described for each way in which it can end. -/
def Descends (M : Matrix (Fin n) (Fin n) ℝ) (g : Fin n → ℝ) (s : GradientState ℝ) :
    Progress ℝ → Prop
  | .stuck => s.rz = 0
  | .converged x => s.Lowers M g x
  | .next s' => s'.Ready M g ∧ s.Lowers M g s'.x

include hM happly hs in
/-- An iteration keeps the invariant and lowers the model. -/
theorem Ready.step (hpre : Positive n precondition) (limits : GradientLimits ℝ) (number : Nat) :
    s.Descends M g (step apply precondition limits number s) := by
  obtain ⟨hle, hstep⟩ | ⟨hpos, ⟨-, hstep⟩ | ⟨-, hstep⟩⟩ :=
    step_cases apply precondition limits number s
  · rw [hstep]
    exact hs.rz_of_curvature hM happly hle
  · rw [hstep]
    exact hs.lowers_next hM happly hpos
  · rw [hstep]
    exact ⟨hs.next happly hpre.size hpos, hs.lowers_next hM happly hpos⟩

end Step

/-! ## The iteration -/

/-- From a state with something to gain, or one reached by iterating, the search
succeeds. What it returns is no higher than where it started, and lower if
there was an iteration left and something to gain. -/
theorem Ready.iterate (hM : M.PosDef) (happly : Multiplies apply M)
    (hpre : Positive n precondition) (limits : GradientLimits ℝ) (left done : Nat)
    (hs : s.Ready M g) (hdone : done = 0 → s.rz ≠ 0) :
    ∃ found, iterate apply precondition limits left done s = .ok found ∧ found.x.size = n ∧
      quadratic M g (found.x.toFun n) ≤ quadratic M g (s.x.toFun n) ∧
      (left ≠ 0 → s.rz ≠ 0 → quadratic M g (found.x.toFun n) < quadratic M g (s.x.toFun n)) := by
  induction left generalizing done s with
  | zero => exact ⟨_, rfl, hs.sizeX, le_refl _, fun h => absurd rfl h⟩
  | succ left ih =>
      have hstep := hs.step hM happly hpre limits (done + 1)
      rw [GradientState.iterate]
      cases hresult : GradientState.step apply precondition limits (done + 1) s with
      | stuck =>
          rw [hresult] at hstep
          have hne : done ≠ 0 := fun h => hdone h hstep
          dsimp only
          rw [if_neg hne]
          exact ⟨_, rfl, hs.sizeX, le_refl _, fun _ h => absurd hstep h⟩
      | converged x =>
          rw [hresult] at hstep
          exact ⟨_, rfl, hstep.size, hstep.le, fun _ => hstep.lt⟩
      | next s' =>
          rw [hresult] at hstep
          obtain ⟨hs', hlowers⟩ := hstep
          obtain ⟨found, hfound, hsize, hle, -⟩ := ih (done + 1) hs' fun h => absurd h (by omega)
          exact ⟨found, hfound, hsize, hle.trans hlowers.le,
            fun _ hrz => hle.trans_lt (hlowers.lt hrz)⟩

end GradientState

/-- The search for the solution of a positive definite system succeeds. Its
result lowers the quadratic model as far as there is anything to lower. -/
theorem conjugateGradients_spec {n : Nat} {M : Matrix (Fin n) (Fin n) ℝ}
    {apply precondition : Vec ℝ → Vec ℝ} {rhs : Vec ℝ} {maxIterations : Nat} (hM : M.PosDef)
    (happly : Multiplies apply M) (hpre : Positive n precondition) (hrhs : rhs.size = n)
    (minIterations : Nat) (hmax : maxIterations ≠ 0) (tolerance : ℝ) :
    ∃ found, conjugateGradients apply precondition rhs minIterations maxIterations tolerance =
      .ok found ∧ found.x.size = n ∧ quadratic M (rhs.toFun n) (found.x.toFun n) ≤ 0 ∧
        (rhs.toFun n ≠ 0 → quadratic M (rhs.toFun n) (found.x.toFun n) < 0) := by
  have hnorm : rhs.norm = 0 ↔ rhs.toFun n = 0 := Vec.norm_eq_zero_iff hrhs
  by_cases hzero : rhs.toFun n = 0
  · refine ⟨⟨Vec.zeros rhs.size, 0, true⟩, ?_, (Vec.size_zeros _).trans hrhs, ?_,
      fun h => absurd hzero h⟩
    · rw [conjugateGradients]
      exact if_pos (by simpa using hnorm.mpr hzero)
    · rw [hrhs, Vec.toFun_zeros, quadratic_zero]
  · have hrz : (GradientState.start precondition rhs).rz ≠ 0 := by
      have hpos := hpre.pos rhs hrhs hzero
      rw [← Vec.dot_eq_dotProduct hrhs] at hpos
      exact hpos.ne'
    have hx : (GradientState.start precondition rhs).x.toFun n = 0 := Vec.toFun_zeros n ▸ hrhs ▸ rfl
    obtain ⟨found, hfound, hsize, hle, hlt⟩ := (GradientState.ready_start M hpre hrhs).iterate hM
      happly hpre ⟨minIterations, maxIterations, tolerance * rhs.norm⟩ maxIterations 0
      fun _ => hrz
    rw [hx, quadratic_zero] at hle hlt
    refine ⟨found, ?_, hsize, hle, fun _ => hlt hmax hrz⟩
    rw [conjugateGradients]
    exact (if_neg (by simpa using hnorm.not.mpr hzero)).trans hfound

end LeastSquares
