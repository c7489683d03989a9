import LeastSquares.Proofs.Conjugacy
import LeastSquares.Proofs.SystemSizes
import Mathlib.Analysis.InnerProductSpace.PiL2

/-!
# Reports of conjugate gradients

The iteration compares a residual that it updates along the way, and never
computes `g - M x` from the approximation that it returns. Over the real numbers
the two are the same in every iteration, with any matrix and any approximate
inverse, since the residual moves by the image of what the approximation moves
by. A search that reports convergence has therefore found a solution, or a
vector whose true residual meets the tolerance after the iterations it was asked
for. How the directions are chosen does not matter for this.

## Main results

* `GradientState.Tracks.step` — an iteration keeps the residual true.
* `GradientState.Tracks.iterate` — the report at the end.
* `reported_residuals` — the reports of the search and of the solver of the
  normal equations.
-/

namespace LeastSquares

open Matrix WithLp

/-- The length of a vector is the Euclidean norm of its entries. -/
theorem Vec.norm_eq_euclidean {n : Nat} {u : Vec ℝ} (hu : u.size = n) :
    u.norm = ‖toLp 2 (u.toFun n)‖ := by
  rw [Vec.norm, real_sqrt, EuclideanSpace.norm_eq, Vec.normSq, Vec.dot_eq_dotProduct hu]
  congr 1
  refine Finset.sum_congr rfl fun i _ => ?_
  show u.get i * u.get i = ‖u.get i‖ ^ 2
  rw [Real.norm_eq_abs, sq_abs, sq]

namespace GradientState

variable {n : Nat} {M : Matrix (Fin n) (Fin n) ℝ} {g : Fin n → ℝ}
  {apply precondition : Vec ℝ → Vec ℝ} {limits : GradientLimits ℝ} {s : GradientState ℝ}

theorem tracks_start {rhs : Vec ℝ} (M : Matrix (Fin n) (Fin n) ℝ)
    (hpre : KeepsSize n precondition) (hrhs : rhs.size = n) :
    (start precondition rhs).Tracks M (rhs.toFun n) where
  sizeX := (Vec.size_zeros _).trans hrhs
  sizeR := hrhs
  sizeP := hpre rhs hrhs
  residual := by
    have hx : (start precondition rhs).x.toFun n = 0 := by
      rw [start, hrhs, Vec.toFun_zeros]
    rw [hx, mulVec_zero, sub_zero]
    rfl

/-- An approximation may be reported as converged in the iteration with the
given number: it is a solution, or its residual is small enough and there have
been enough iterations. -/
inductive Acceptable (M : Matrix (Fin n) (Fin n) ℝ) (g : Fin n → ℝ) (limits : GradientLimits ℝ)
    (number : Nat) (x : Vec ℝ) : Prop where
  | solved (hzero : g - M *ᵥ x.toFun n = 0)
  | small (hsmall : ‖toLp 2 (g - M *ᵥ x.toFun n)‖ ≤ limits.target)
      (hnumber : limits.minIterations ≤ number)

/-- What an iteration finds is sound, for each way in which it can end. -/
def Sound (M : Matrix (Fin n) (Fin n) ℝ) (g : Fin n → ℝ) (limits : GradientLimits ℝ)
    (number : Nat) : Progress ℝ → Prop
  | .stuck => True
  | .converged x => Acceptable M g limits number x
  | .next s => s.Tracks M g

/-- An iteration keeps the residual true, so it tests the true residual. -/
theorem Tracks.step (happly : Multiplies apply M) (hpre : KeepsSize n precondition)
    (hs : s.Tracks M g) (limits : GradientLimits ℝ) (number : Nat) :
    Sound M g limits number (step apply precondition limits number s) := by
  obtain ⟨-, hstep⟩ | ⟨-, ⟨hsuffices, hstep⟩ | ⟨-, hstep⟩⟩ :=
    step_cases apply precondition limits number s
  · rw [hstep]
    trivial
  · have hsize : (nextR apply s).size = n := (Vec.size_addScaled _ _ _).trans hs.sizeR
    rw [hstep]
    show Acceptable M g limits number (nextX apply s)
    have hresidual := hs.residual_next happly
    cases hsuffices with
    | inl hzero => exact .solved (hresidual.symm.trans ((Vec.norm_eq_zero_iff hsize).mp hzero))
    | inr hsmall =>
        rw [Vec.norm_eq_euclidean hsize, hresidual] at hsmall
        exact .small hsmall.2 hsmall.1
  · rw [hstep]
    exact hs.next happly hpre

/-- Whatever the iteration returns, it has kept to the limit, and a report of
convergence is true. -/
theorem Tracks.iterate (happly : Multiplies apply M) (hpre : KeepsSize n precondition)
    (hs : s.Tracks M g) {left done : Nat} {found : LinearSolution ℝ}
    (h : iterate apply precondition limits left done s = .ok found) :
    found.iterations ≤ done + left ∧
      (found.converged = true → Acceptable M g limits found.iterations found.x) := by
  induction left generalizing done s with
  | zero =>
      cases h
      exact ⟨Nat.le_refl _, fun hconverged => absurd hconverged Bool.false_ne_true⟩
  | succ left ih =>
      have hstep := hs.step happly hpre limits (done + 1)
      rw [GradientState.iterate] at h
      cases hresult : GradientState.step apply precondition limits (done + 1) s with
      | stuck =>
          rw [hresult] at h
          dsimp only at h
          split at h
          · cases h
          · cases h
            exact ⟨Nat.le_add_right _ _, fun hconverged => absurd hconverged Bool.false_ne_true⟩
      | converged x =>
          rw [hresult] at h hstep
          cases h
          exact ⟨Nat.add_le_add_left (Nat.le_add_left 1 left) done, fun _ => hstep⟩
      | next s' =>
          rw [hresult] at h hstep
          obtain ⟨hle, hconverged⟩ := ih hstep h
          exact ⟨by omega, hconverged⟩

end GradientState

/-- What the search returns has kept to the limit of iterations, and a report of
convergence is true. -/
theorem conjugateGradients_report {n : Nat} {M : Matrix (Fin n) (Fin n) ℝ}
    {apply precondition : Vec ℝ → Vec ℝ} {rhs : Vec ℝ} {minIterations maxIterations : Nat}
    {tolerance : ℝ} {found : LinearSolution ℝ} (happly : Multiplies apply M)
    (hpre : KeepsSize n precondition) (hrhs : rhs.size = n)
    (h : conjugateGradients apply precondition rhs minIterations maxIterations tolerance =
      .ok found) :
    found.iterations ≤ maxIterations ∧ (found.converged = true →
      rhs.toFun n - M *ᵥ found.x.toFun n = 0 ∨
        ‖toLp 2 (rhs.toFun n - M *ᵥ found.x.toFun n)‖ ≤ tolerance * ‖toLp 2 (rhs.toFun n)‖ ∧
          minIterations ≤ found.iterations) := by
  rw [conjugateGradients] at h
  split at h
  · rename_i hzero
    have hzero : rhs.toFun n = 0 := (Vec.norm_eq_zero_iff hrhs).mp (by simpa using hzero)
    cases h
    refine ⟨Nat.zero_le _, fun _ => .inl ?_⟩
    rw [hrhs, Vec.toFun_zeros, mulVec_zero, sub_zero, hzero]
  · obtain ⟨hle, hreport⟩ :=
      (GradientState.tracks_start M hpre hrhs).iterate happly hpre h
    rw [Nat.zero_add] at hle
    refine ⟨hle, fun hconverged => ?_⟩
    rw [← Vec.norm_eq_euclidean hrhs]
    cases hreport hconverged with
    | solved hzero => exact .inl hzero
    | small hsmall hnumber => exact .inr ⟨hsmall, hnumber⟩

/-! ## The normal equations -/

section NormalEquations

variable {kind : PreconditionerKind} {minIterations maxIterations : Nat} {a : BlockMatrix ℝ}
  {b : Vec ℝ} {d : Option (Vec ℝ)} {tolerance : ℝ} {found : LinearSolution ℝ}

/-- A solver of the normal equations that returns something has been given data
of the right sizes. -/
theorem normalGradients?_sizes
    (h : normalGradients? kind minIterations maxIterations a b d tolerance = .ok found) :
    b.size = a.numRows ∧ ∀ u ∈ d, u.size = a.numCols := by
  by_contra hsizes
  have hmisfit : LinearSystem.Misfit a b d := by
    by_cases hb : b.size = a.numRows
    · push Not at hsizes
      exact .inr (hsizes hb)
    · exact .inl hb
  obtain ⟨e, he, -⟩ := normalGradients?_misfit hmisfit kind minIterations maxIterations tolerance
  cases he.symm.trans h

/-- A report of the solver of the normal equations is true of the normal
equations. -/
theorem normalGradients?_report (ha : a.WellFormed)
    (h : normalGradients? kind minIterations maxIterations a b d tolerance = .ok found) :
    let M := a.toMatrixᵀ * a.toMatrix + regularizerMatrix a.numCols d ^ 2
    let g := a.toMatrixᵀ *ᵥ b.toFun a.numRows
    found.iterations ≤ maxIterations ∧ (found.converged = true →
      g - M *ᵥ found.x.toFun a.numCols = 0 ∨
        ‖toLp 2 (g - M *ᵥ found.x.toFun a.numCols)‖ ≤ tolerance * ‖toLp 2 g‖ ∧
          minIterations ≤ found.iterations) := by
  intro M g
  obtain ⟨hb, hd⟩ := normalGradients?_sizes h
  obtain ⟨d2, hd2, hsize, hsquare⟩ := regularizerSquared_spec hd
  obtain ⟨P, -, hpre⟩ := multiplies_normalPreconditioner kind
    ((Vec.size_add _ d2).trans a.size_squaredColumnNorms)
  have hM : M = normalSystem a d2 := by
    show a.toMatrixᵀ * a.toMatrix + regularizerMatrix a.numCols d ^ 2 = normalSystem a d2
    rw [normalSystem, hsquare]
  have hg : g = (a.leftMultiply b).toFun a.numCols := (ha.toFun_leftMultiply b).symm
  rw [normalGradients?_eq hb hd2] at h
  rw [hM, hg]
  exact conjugateGradients_report (multiplies_normalSystem ha hsize) hpre.size
    (a.size_leftMultiply b) h

end NormalEquations

/-- In exact arithmetic the reports of conjugate gradients are true. Whatever the
matrix and the approximate inverse are, the search keeps to its limit, and if it
reports convergence, it has solved the system or its residual meets the
tolerance after the iterations that were asked for. So a solution of the normal
equations that is reported as converged is exact or meets the tolerance. -/
theorem reported_residuals :
    (∀ {n : Nat} (M : Matrix (Fin n) (Fin n) ℝ) (apply precondition : Vec ℝ → Vec ℝ)
        (rhs : Vec ℝ) (minIterations maxIterations : Nat) (tolerance : ℝ)
        (found : LinearSolution ℝ),
      Multiplies apply M → KeepsSize n precondition → rhs.size = n →
      conjugateGradients apply precondition rhs minIterations maxIterations tolerance =
        .ok found →
      found.iterations ≤ maxIterations ∧ (found.converged = true →
        rhs.toFun n - M *ᵥ found.x.toFun n = 0 ∨
          ‖toLp 2 (rhs.toFun n - M *ᵥ found.x.toFun n)‖ ≤ tolerance * ‖toLp 2 (rhs.toFun n)‖ ∧
            minIterations ≤ found.iterations)) ∧
    ∀ (kind : PreconditionerKind) (minIterations maxIterations : Nat) (a : BlockMatrix ℝ)
        (b : Vec ℝ) (d : Option (Vec ℝ)) (tolerance : ℝ) (found : LinearSolution ℝ),
      a.WellFormed →
      normalGradients? kind minIterations maxIterations a b d tolerance = .ok found →
      found.converged = true →
      let M := a.toMatrixᵀ * a.toMatrix + regularizerMatrix a.numCols d ^ 2
      let g := a.toMatrixᵀ *ᵥ b.toFun a.numRows
      ‖toLp 2 (g - M *ᵥ found.x.toFun a.numCols)‖ ≤ tolerance * ‖toLp 2 g‖ ∨
        M *ᵥ found.x.toFun a.numCols = g := by
  constructor
  · intro n M apply precondition rhs minIterations maxIterations tolerance found happly hpre hrhs h
    exact conjugateGradients_report happly hpre hrhs h
  · intro kind minIterations maxIterations a b d tolerance found ha h hconverged
    cases (normalGradients?_report ha h).2 hconverged with
    | inl hsolved => exact .inr (sub_eq_zero.mp hsolved).symm
    | inr hsmall => exact .inl hsmall.1

theorem reported_residuals_oneEquation :
    let a := oneEquation
    let M := normalSystem a (Vec.ofList [1, 1])
    let apply := fun v : Vec ℝ =>
      a.leftMultiply (a.rightMultiply v) + (Vec.ofList [1, 1] : Vec ℝ).mulEntries v
    let rhs : Vec ℝ := Vec.ofList [3, 3]
    let d : Option (Vec ℝ) := some (Vec.ofList [1, 1])
    let g := a.toMatrixᵀ *ᵥ (Vec.ofList [3]).toFun a.numRows
    (∃ found, conjugateGradients apply id rhs 1 2 0.5 = .ok found ∧ found.converged = true ∧
      found.iterations ≤ 2 ∧ (rhs.toFun a.numCols - M *ᵥ found.x.toFun a.numCols = 0 ∨
        ‖toLp 2 (rhs.toFun a.numCols - M *ᵥ found.x.toFun a.numCols)‖ ≤
          0.5 * ‖toLp 2 (rhs.toFun a.numCols)‖ ∧ 1 ≤ found.iterations)) ∧
    ∃ found, normalGradients? .jacobi 1 2 a (Vec.ofList [3]) d 0.5 = .ok found ∧
      (‖toLp 2 (g - (a.toMatrixᵀ * a.toMatrix + regularizerMatrix a.numCols d ^ 2) *ᵥ
          found.x.toFun a.numCols)‖ ≤ 0.5 * ‖toLp 2 g‖ ∨
        (a.toMatrixᵀ * a.toMatrix + regularizerMatrix a.numCols d ^ 2) *ᵥ
          found.x.toFun a.numCols = g) := by
  intro a M apply rhs d g
  have hM : M.PosDef := posDef_normalSystem positive_oneEquation
  have happly : Multiplies apply M := multiplies_normalSystem wellFormed_oneEquation rfl
  constructor
  · obtain ⟨found, hfound, hconverged, -⟩ := conjugateGradients_converges hM PosDef.one happly
      (Preconditioner.multiplies_identity _) (show rhs.size = a.numCols from rfl) 1
      (Nat.le_refl 2) 0.5
    obtain ⟨hle, hreport⟩ := reported_residuals.1 M apply id rhs 1 2 0.5 found happly
      (fun _ h => h) rfl hfound
    exact ⟨found, hfound, hconverged, hle, hreport hconverged⟩
  · have hd : regularizerSquared d a.numCols =
        .ok ((Vec.ofList [1, 1]).mulEntries (Vec.ofList [1, 1])) := rfl
    have hsystem : (normalSystem a ((Vec.ofList [1, 1]).mulEntries (Vec.ofList [1, 1]))).PosDef :=
      posDef_normalSystem fun i hi => by
        rw [Vec.get_mulEntries hi]
        exact mul_pos (positive_oneEquation i hi) (positive_oneEquation i hi)
    obtain ⟨found, hfound, hconverged, -⟩ := normalGradients?_converges wellFormed_oneEquation
      (b := Vec.ofList [3]) rfl hd hsystem .jacobi 1 (Nat.le_refl 2) 0.5
    exact ⟨found, hfound, reported_residuals.2 .jacobi 1 2 a (Vec.ofList [3]) d 0.5 found
      wellFormed_oneEquation hfound hconverged⟩

end LeastSquares
