import LeastSquares.Minimizer.Strategy
import LeastSquares.Proofs.Products
import LeastSquares.Solve.Options

/-!
# Checked options and the bounds of a clamp

A strategy of a trust region keeps the diagonal of the normal matrix between two
bounds, and bounds that are not ordered are a fault. The check of the options
compares the bounds beforehand, for doubles that may be infinite or no numbers at
all. A comparison with a NaN is false, so a comparison that has to fail for the
options to pass says nothing about a NaN. The check asks for it in the case of the
lower bound and of the initial radius. In the case of the upper bound and of the
other two radii it does not: these pass as a NaN, and exactly then the bounds that
they belong to are not ordered.

## Main definitions

* `floatCompare` — how two doubles compare, if neither is a NaN.
* `Strategy.Follows` — a strategy in the course of a run.

## Main results

* `float_le_iff_not_lt` — one comparison of doubles by the other.
* `SolveOptions.trustRegionFlaw?_eq_none_iff` — what the check compares.
* `LinearSolver.faultsWithin_solve` — a linear solver clamps nothing.
* `SolveOptions.clamp_of_validate` — what checked options promise a strategy.
-/

namespace LeastSquares

/-! ## Comparisons of doubles -/

section Doubles

open Float.Model (UnpackedFloat)

theorem isNone_compare (a b : UnpackedFloat) :
    (a.compare b).isNone = (a.isNaN || b.isNaN) := by
  rcases a with (_ | _) | _ | (_ | _) | ⟨_ | _, _, _, _⟩ <;>
    rcases b with (_ | _) | _ | (_ | _) | ⟨_ | _, _, _, _⟩ <;> rfl

theorem compare_swap (a b : UnpackedFloat) :
    b.compare a = (a.compare b).map Ordering.swap := by
  have hsame : ∀ (m m' : Nat) (e e' : Int), (compare e' e).then (compare m' m) =
      ((compare e e').then (compare m m')).swap := by
    intro m m' e e'
    rw [Ordering.swap_then, ← Std.OrientedCmp.eq_swap, ← Std.OrientedCmp.eq_swap]
  rcases a with (_ | _) | _ | (_ | _) | ⟨_ | _, _, _, _⟩ <;>
    rcases b with (_ | _) | _ | (_ | _) | ⟨_ | _, _, _, _⟩ <;>
    first
    | rfl
    | exact congrArg some (hsame _ _ _ _)
    | exact congrArg (some ∘ Ordering.swap) (hsame _ _ _ _)

theorem compare_self {a : UnpackedFloat} (h : a.isNaN = false) : a.compare a = some .eq := by
  have hsame : ∀ (m : Nat) (e : Int), (compare e e).then (compare m m) = .eq := by
    intro m e
    have he : compare e e = .eq := Std.ReflCmp.compare_self
    have hm : compare m m = .eq := Std.ReflCmp.compare_self
    rw [he, hm]
    rfl
  rcases a with (_ | _) | _ | (_ | _) | ⟨_ | _, _, _, _⟩
  case notANumber => cases h
  case finite.negative => exact congrArg (some ∘ Ordering.swap) (hsame _ _)
  case finite.positive => exact congrArg some (hsame _ _)
  all_goals rfl

/-- How two doubles compare, if neither is a NaN. -/
def floatCompare (a b : Float) : Option Ordering := a.toModel.unpack.compare b.toModel.unpack

variable {a b : Float}

theorem isNone_floatCompare (a b : Float) : (floatCompare a b).isNone = (a.isNaN || b.isNaN) :=
  isNone_compare _ _

theorem float_lt_iff : a < b ↔ floatCompare a b = some .lt := by
  have h : (a < b) = (decide (a.toModel < b.toModel) = true) := rfl
  rw [h, decide_eq_true_iff]
  exact beq_iff_eq

theorem float_le_iff : a ≤ b ↔ ∃ o, floatCompare a b = some o ∧ o.isLE = true := by
  have h : (a ≤ b) = (decide (a.toModel ≤ b.toModel) = true) := rfl
  rw [h, decide_eq_true_iff]
  exact Option.any_eq_true Ordering.isLE (floatCompare a b)

/-- Each comparison of doubles is the failure of the other one, unless one of them
is a NaN. -/
theorem float_le_iff_not_lt : a ≤ b ↔ a.isNaN = false ∧ b.isNaN = false ∧ ¬b < a := by
  have hswap : floatCompare b a = (floatCompare a b).map Ordering.swap := compare_swap _ _
  have hnone := isNone_floatCompare a b
  rw [float_le_iff, float_lt_iff, hswap, ← and_assoc, ← Bool.or_eq_false_iff, ← hnone]
  cases floatCompare a b with
  | none => simp
  | some o => cases o <;> simp

theorem float_lt_iff_not_le : a < b ↔ a.isNaN = false ∧ b.isNaN = false ∧ ¬b ≤ a := by
  have hswap : floatCompare b a = (floatCompare a b).map Ordering.swap := compare_swap _ _
  have hnone := isNone_floatCompare a b
  rw [float_le_iff, float_lt_iff, hswap, ← and_assoc, ← Bool.or_eq_false_iff, ← hnone]
  cases floatCompare a b with
  | none => simp
  | some o => cases o <;> simp

/-- A double differs from itself if it is a NaN. -/
theorem isNaN_float (a : Float) : Scalar.isNaN a = a.isNaN := by
  have h : Scalar.isNaN a = !(floatCompare a a == some .eq) := rfl
  rw [h]
  cases hnan : a.isNaN with
  | false =>
      rw [floatCompare, compare_self hnan]
      rfl
  | true =>
      have hnone := isNone_floatCompare a a
      rw [hnan] at hnone
      rw [Option.isNone_iff_eq_none.mp hnone]
      rfl

end Doubles

/-! ## What the check compares -/

namespace SolveOptions

variable {o : SolveOptions Float}

theorem isUnpositive_eq_false_iff {a : Float} : isUnpositive a = false ↔ 0 < a := by
  have h : isUnpositive a = (Scalar.isNaN a || decide (a ≤ 0)) := rfl
  have hzero : (0 : Float).isNaN = false := by decide
  rw [h, isNaN_float, Bool.or_eq_false_iff, decide_eq_false_iff_not, float_lt_iff_not_le]
  exact ⟨fun h => ⟨hzero, h⟩, fun h => h.2⟩

theorem ite_some_eq_none_iff {β : Type} {c : Prop} [Decidable c] {e : β} {r : Option β} :
    (if c then some e else r) = none ↔ ¬c ∧ r = none := by
  split <;> simp [*]

/-- The options of a trust region pass the check if three of them are positive and
no bound exceeds what it bounds. -/
theorem trustRegionFlaw?_eq_none_iff :
    o.trustRegionFlaw? = none ↔
      0 < o.initialRadius ∧ (¬o.initialRadius < o.minRadius ∧ ¬o.maxRadius < o.initialRadius) ∧
        (0 < o.minDiagonal ∧ ¬o.maxDiagonal < o.minDiagonal) ∧ 0 < o.eta := by
  simp only [trustRegionFlaw?, ite_some_eq_none_iff, Bool.or_eq_true, decide_eq_true_iff, not_or,
    Bool.not_eq_true, isUnpositive_eq_false_iff, and_true]

end SolveOptions

/-! ## The faults of a linear solver -/

/-- The faults of a factorization: a size or a pattern that does not fit. -/
def Fault.IsMisfit (f : Fault) : Prop := f = .sizeMismatch ∨ f = .patternMismatch

open Outcome (FaultsWithin)

section Solvers

variable {α : Type} [Scalar α]

theorem faultsWithin_denseNormal? (a : BlockMatrix α) (b : Vec α) (d : Option (Vec α)) :
    FaultsWithin Fault.IsMisfit (denseNormal? a b d) := by
  unfold denseNormal?
  refine .bind (.ofExcept _) fun d2 => .ite ?_ ?_
  · exact .fault (Or.inl rfl)
  · split
    · exact .error _
    · exact .ok _

theorem faultsWithin_sparseNormal? (kept : Option SparsityAnalysis) (a : BlockMatrix α)
    (b : Vec α) (d : Option (Vec α)) :
    FaultsWithin Fault.IsMisfit (sparseNormal? kept a b d).1 := by
  unfold sparseNormal?
  split
  · exact .error _
  · split
    · rename_i f hf
      unfold BlockMatrix.leftMultiply? at hf
      split at hf
      · cases hf
      · cases hf
        exact .fault (Or.inl rfl)
    · exact (Factorizations.lawful_provided.fault_solveSparse _ _ _ _).mono fun _ hf => .inr hf.1

theorem faultsWithin_schurDirect? (sparse : Bool) (kept : Option SparsityAnalysis) (count : Nat)
    (a : BlockMatrix α) (b : Vec α) (d : Option (Vec α)) :
    FaultsWithin Fault.IsMisfit (schurDirect? sparse kept count a b d).1 := by
  have hfinish : ∀ (s : Elimination α) (y : Vec α), FaultsWithin Fault.IsMisfit
      (if (s.backSubstitute y).isFinite then .ok (s.backSubstitute y)
        else .error (.error LinearError.singular) : Outcome LinearError (Vec α)) :=
    fun s y => .ite (.ok _) (.error _)
  unfold schurDirect?
  split
  · exact .error _
  · rename_i s hs
    dsimp only
    split
    · exact hfinish s _
    · split
      · refine .bind ?_ (hfinish s)
        exact (Factorizations.lawful_provided.fault_solveSparse _ _ _ _).mono fun _ hf => .inr hf.1
      · split
        · exact .error _
        · exact hfinish s _

/-- A linear solver clamps nothing: the faults that it can meet are sizes and
patterns that do not fit. -/
theorem LinearSolver.faultsWithin_solve (s : LinearSolver) (a : BlockMatrix α) (b : Vec α)
    (settings : SolveSettings α) : FaultsWithin Fault.IsMisfit (s.solve a b settings).1 := by
  unfold solve
  cases s.kind with
  | denseNormalCholesky => exact (faultsWithin_denseNormal? _ _ _).map _
  | sparseNormalCholesky => exact (faultsWithin_sparseNormal? _ _ _ _).map _
  | denseSchur => exact (faultsWithin_schurDirect? _ _ _ _ _ _).map _
  | sparseSchur => exact (faultsWithin_schurDirect? _ _ _ _ _ _).map _
  | denseQR => exact .ofExcept _
  | iterativeSchur => exact .ofExcept _
  | conjugateGradients => exact .ofExcept _

end Solvers

/-! ## The clamp of a strategy -/

section Strategies

variable {α : Type} [Scalar α] {lo hi : α} {jacobian : BlockMatrix α} {residuals : Vec α}

theorem Vec.clampEntries_eq_error_iff {v : Vec α} {f : Fault} :
    v.clampEntries lo hi = .error f ↔ v.size ≠ 0 ∧ ¬lo ≤ hi ∧ f = .unorderedBounds := by
  unfold clampEntries
  split
  · rename_i h
    simp only [Bool.or_eq_true, decide_eq_true_eq] at h
    exact ⟨nofun, fun h' => (h.elim h'.1 h'.2.1).elim⟩
  · rename_i h
    simp only [Bool.or_eq_true, decide_eq_true_eq, not_or] at h
    rw [Except.error.injEq]
    exact ⟨fun h' => ⟨h.1, h.2, h'.symm⟩, fun h' => h'.2.2.symm⟩

/-- A fault of a clamp is the fault of its bounds. -/
def Fault.Blames (lo hi : α) (f : Fault) : Prop := f = .unorderedBounds → ¬lo ≤ hi

theorem Fault.IsMisfit.blames {f : Fault} (h : f.IsMisfit) (lo hi : α) : f.Blames lo hi := by
  rintro rfl
  cases h <;> contradiction

namespace LevenbergMarquardt

/-- The bounds of the clamp. -/
def clampBounds (s : LevenbergMarquardt α) : α × α := (s.minDiagonal, s.maxDiagonal)

theorem clampBounds_computeStep (s : LevenbergMarquardt α) (jacobian : BlockMatrix α)
    (residuals : Vec α) :
    (s.computeStep jacobian residuals).2.clampBounds = s.clampBounds := by
  unfold computeStep
  split
  · rfl
  · dsimp only
    split
    · rfl
    · split <;> rfl

theorem faultsWithin_computeStep (s : LevenbergMarquardt α) (jacobian : BlockMatrix α)
    (residuals : Vec α) :
    FaultsWithin (Fault.Blames s.minDiagonal s.maxDiagonal)
      (s.computeStep jacobian residuals).1 := by
  unfold computeStep
  split
  · rename_i f hf
    exact .fault fun _ => (Vec.clampEntries_eq_error_iff.mp hf).2.1
  · dsimp only
    split
    · rename_i e he
      rintro f ⟨⟩
      exact (s.solver.faultsWithin_solve _ _ _ f he).blames _ _
    · split
      · exact .ok _
      · exact .error _

theorem computeStep_unordered (s : LevenbergMarquardt α) (h : ¬s.minDiagonal ≤ s.maxDiagonal)
    (hcols : jacobian.numCols ≠ 0) :
    (s.computeStep jacobian residuals).1 = .error (.fault .unorderedBounds) := by
  have hclamp := Vec.clampEntries_eq_error_iff.mpr
    ⟨jacobian.size_squaredColumnNorms.trans_ne hcols, h, rfl⟩
  rw [computeStep, hclamp]

end LevenbergMarquardt

namespace Dogleg

/-- The bounds of the clamp. -/
def clampBounds (s : Dogleg α) : α × α := (s.minDiagonal, s.maxDiagonal)

theorem clampBounds_linearize (s : Dogleg α) (jacobian : BlockMatrix α) (residuals : Vec α) :
    (s.linearize jacobian residuals).2.clampBounds = s.clampBounds := by
  unfold linearize
  split
  · rfl
  · dsimp only
    split <;> rfl

theorem clampBounds_attempt (s : Dogleg α) (jacobian : BlockMatrix α) (rhs : Vec α) :
    (s.attempt jacobian rhs).2.clampBounds = s.clampBounds := by
  unfold attempt
  dsimp only
  split
  · split <;> rfl
  · rfl
  · split <;> rfl

theorem clampBounds_findGaussNewton (attempts : Nat) (s : Dogleg α) (jacobian : BlockMatrix α)
    (rhs : Vec α) :
    (findGaussNewton jacobian rhs attempts s).2.clampBounds = s.clampBounds := by
  induction attempts generalizing s with
  | zero => rfl
  | succ attempts ih =>
      have hattempt := s.clampBounds_attempt jacobian rhs
      unfold findGaussNewton
      split
      · rename_i h
        rwa [h] at hattempt
      · rename_i h
        rwa [h] at hattempt
      · rename_i h
        rw [h] at hattempt
        dsimp only
        split
        · exact hattempt
        · rw [ih]
          exact hattempt

theorem clampBounds_finish (s : Dogleg α) (iterations : Nat) :
    (s.finish iterations).2.clampBounds = s.clampBounds := by
  have hstep : s.step.2.clampBounds = s.clampBounds := by
    unfold step
    dsimp only
    split
    · rfl
    · split <;> rfl
  unfold finish
  split
  · rename_i h
    rwa [h] at hstep
  · rename_i h
    rwa [h] at hstep

theorem clampBounds_computeStep (s : Dogleg α) (jacobian : BlockMatrix α) (residuals : Vec α) :
    (s.computeStep jacobian residuals).2.clampBounds = s.clampBounds := by
  have hlinear := s.clampBounds_linearize jacobian residuals
  unfold computeStep
  split
  · exact s.clampBounds_finish 0
  · split
    · rename_i h
      rwa [h] at hlinear
    · rename_i s' h
      rw [h] at hlinear
      have hfound := s'.clampBounds_findGaussNewton maxAttempts jacobian (-residuals)
      rw [hlinear] at hfound
      split
      · rename_i h'
        rwa [h'] at hfound
      · rename_i h'
        rw [h'] at hfound
        rw [clampBounds_finish]
        exact hfound

theorem faultsWithin_step (s : Dogleg α) :
    ∀ f, s.step.1 = .error f → f = .sizeMismatch := by
  have hquotient : ∀ (u v : Vec α) f, quotient? u v = .error f → f = .sizeMismatch := by
    intro u v f hf
    unfold quotient? at hf
    split at hf
    · cases hf
    · cases hf
      rfl
  have hpath : ∀ (norm : α) f, s.boundaryStep norm = .error f → f = .sizeMismatch := by
    intro norm f hf
    unfold boundaryStep pathStep at hf
    split at hf
    · cases hf
    · dsimp only at hf
      split_ifs at hf
      cases hf
      rfl
  intro f hf
  unfold step at hf
  dsimp only at hf
  split at hf
  · exact hquotient _ _ f hf
  · split at hf
    · rename_i hboundary
      cases hf
      exact hpath _ f hboundary
    · exact hquotient _ _ f hf

theorem faultsWithin_finish (s : Dogleg α) (iterations : Nat) :
    FaultsWithin Fault.IsMisfit (s.finish iterations).1 := by
  have hstep := s.faultsWithin_step
  unfold finish
  split
  · exact .ok _
  · rename_i h
    rw [h] at hstep
    exact .fault (Or.inl (hstep _ rfl))

theorem faultsWithin_findGaussNewton (attempts : Nat) (s : Dogleg α) (jacobian : BlockMatrix α)
    (rhs : Vec α) :
    FaultsWithin Fault.IsMisfit (findGaussNewton jacobian rhs attempts s).1 := by
  induction attempts generalizing s with
  | zero => exact .error _
  | succ attempts ih =>
      unfold findGaussNewton
      split
      · exact .ok _
      · rename_i reason s' h
        rintro f ⟨⟩
        unfold attempt at h
        dsimp only at h
        split at h
        · split at h <;> cases h
        · rename_i hsolve
          cases h
          exact s.solver.faultsWithin_solve _ _ _ _ hsolve
        · split at h <;> cases h
      · dsimp only
        split
        · exact .error _
        · exact ih _

theorem faultsWithin_linearize (s : Dogleg α) (jacobian : BlockMatrix α) (residuals : Vec α) :
    ∀ f, (s.linearize jacobian residuals).1 = .error f → f.Blames s.minDiagonal s.maxDiagonal := by
  intro f hf
  unfold linearize at hf
  split at hf
  · rename_i hclamp
    cases hf
    exact fun _ => (Vec.clampEntries_eq_error_iff.mp hclamp).2.1
  · dsimp only at hf
    split at hf
    · rename_i hproduct
      cases hf
      unfold BlockMatrix.leftMultiply? at hproduct
      split at hproduct
      · cases hproduct
      · cases hproduct
        exact nofun
    · cases hf

theorem faultsWithin_computeStep (s : Dogleg α) (jacobian : BlockMatrix α) (residuals : Vec α) :
    FaultsWithin (Fault.Blames s.minDiagonal s.maxDiagonal)
      (s.computeStep jacobian residuals).1 := by
  have hmisfit : ∀ f : Fault, f.IsMisfit → f.Blames s.minDiagonal s.maxDiagonal :=
    fun f hf => hf.blames _ _
  have hlinear := s.faultsWithin_linearize jacobian residuals
  unfold computeStep
  split
  · exact (s.faultsWithin_finish 0).mono hmisfit
  · split
    · rename_i h
      rw [h] at hlinear
      exact .fault (hlinear _ rfl)
    · rename_i s' h
      have hfound := s'.faultsWithin_findGaussNewton maxAttempts jacobian (-residuals)
      split
      · rename_i h'
        rw [h'] at hfound
        rintro f ⟨⟩
        exact hmisfit f (hfound f rfl)
      · exact (faultsWithin_finish _ _).mono hmisfit

theorem computeStep_unordered (s : Dogleg α) (h : ¬s.minDiagonal ≤ s.maxDiagonal)
    (hcols : jacobian.numCols ≠ 0) (hreuse : s.reuse = false) :
    (s.computeStep jacobian residuals).1 = .error (.fault .unorderedBounds) := by
  have hclamp := Vec.clampEntries_eq_error_iff.mpr
    ⟨jacobian.size_squaredColumnNorms.trans_ne hcols, h, rfl⟩
  rw [computeStep, if_neg (by simp [hreuse]), linearize, hclamp]

end Dogleg

namespace Strategy

/-- The bounds of the clamp. -/
def clampBounds : Strategy α → α × α
  | levenbergMarquardt s => s.clampBounds
  | dogleg s => s.clampBounds

/-- A strategy in the course of a run: it has proposed any steps and was told
anything about them. -/
inductive Follows (start : Strategy α) : Strategy α → Prop where
  | start : Follows start start
  | computeStep {s : Strategy α} (h : Follows start s) (jacobian : BlockMatrix α)
      (residuals : Vec α) : Follows start (s.computeStep jacobian residuals).2
  | accepted {s : Strategy α} (h : Follows start s) (quality : α) :
      Follows start (s.accepted quality)
  | rejected {s : Strategy α} (h : Follows start s) : Follows start s.rejected
  | invalid {s : Strategy α} (h : Follows start s) : Follows start s.invalid

theorem clampBounds_computeStep (s : Strategy α) (jacobian : BlockMatrix α) (residuals : Vec α) :
    (s.computeStep jacobian residuals).2.clampBounds = s.clampBounds := by
  cases s with
  | levenbergMarquardt s => exact s.clampBounds_computeStep jacobian residuals
  | dogleg s => exact s.clampBounds_computeStep jacobian residuals

/-- No strategy ever changes the bounds. -/
theorem Follows.clampBounds_eq {start s : Strategy α} (h : Follows start s) :
    s.clampBounds = start.clampBounds := by
  induction h with
  | start => rfl
  | @computeStep s _ jacobian residuals ih =>
      exact (s.clampBounds_computeStep jacobian residuals).trans ih
  | @accepted s _ quality ih =>
      rw [← ih]
      cases s <;> rfl
  | @rejected s _ ih =>
      rw [← ih]
      cases s <;> rfl
  | @invalid s _ ih =>
      rw [← ih]
      cases s <;> rfl

theorem clampBounds_create (solver : LinearSolver) (o : MinimizerOptions α) :
    (create solver o).clampBounds = (o.minDiagonal, o.maxDiagonal) := by
  unfold create
  split <;> rfl

theorem faultsWithin_computeStep (s : Strategy α) (jacobian : BlockMatrix α) (residuals : Vec α) :
    FaultsWithin (Fault.Blames s.clampBounds.1 s.clampBounds.2)
      (s.computeStep jacobian residuals).1 := by
  cases s with
  | levenbergMarquardt s => exact s.faultsWithin_computeStep jacobian residuals
  | dogleg s => exact s.faultsWithin_computeStep jacobian residuals

/-- If the bounds are not ordered, there is no first step. -/
theorem computeStep_create_unordered (solver : LinearSolver) {o : MinimizerOptions α}
    (h : ¬o.minDiagonal ≤ o.maxDiagonal) (hcols : jacobian.numCols ≠ 0) :
    ((create solver o).computeStep jacobian residuals).1 = .error (.fault .unorderedBounds) := by
  unfold create
  split
  · exact (LevenbergMarquardt.new solver o).computeStep_unordered h hcols
  · exact (Dogleg.new solver o).computeStep_unordered h hcols rfl

end Strategy

end Strategies

/-! ## Checked options -/

namespace SolveOptions

variable {o : SolveOptions Float}

/-- Options that pass the check pass that of their kind of minimizer. -/
theorem minimizerFlaw?_of_validate {α : Type} [Scalar α] {o : SolveOptions α}
    (h : o.validate = .ok ()) : o.minimizerFlaw? = none := by
  have hflaw : o.flaw? = none := by
    unfold validate at h
    split at h
    · cases h
    · assumption
  unfold flaw? at hflaw
  split_ifs at hflaw
  split at hflaw
  · cases hflaw
  · exact (Option.or_eq_none_iff.mp hflaw).1

theorem trustRegionFlaw?_of_validate (hkind : o.minimizerKind = .trustRegion)
    (h : o.validate = .ok ()) : o.trustRegionFlaw? = none := by
  have hflaw := minimizerFlaw?_of_validate h
  rwa [minimizerFlaw?, hkind] at hflaw

/-- What checked options promise a strategy. The lower bound of the clamp and the
initial radius are positive. The other bounds hold if and only if they are not a
NaN: the clamp of every strategy in the course of a run has ordered bounds if its
upper bound is a number, and if it is a NaN, a new strategy meets a fault in place of
its first step. -/
theorem clamp_of_validate (hkind : o.minimizerKind = .trustRegion) (h : o.validate = .ok ()) :
    (0 < o.minDiagonal ∧ (o.minDiagonal ≤ o.maxDiagonal ↔ o.maxDiagonal.isNaN = false)) ∧
    (0 < o.initialRadius ∧ (o.minRadius ≤ o.initialRadius ↔ o.minRadius.isNaN = false) ∧
      (o.initialRadius ≤ o.maxRadius ↔ o.maxRadius.isNaN = false)) ∧
    (∀ solver s, Strategy.Follows (.create solver o.minimizer) s →
      s.clampBounds = (o.minDiagonal, o.maxDiagonal) ∧
      (o.maxDiagonal.isNaN = false → ∀ jacobian residuals,
        (s.computeStep jacobian residuals).1 ≠ .error (.fault .unorderedBounds))) ∧
    (o.maxDiagonal.isNaN = true → ∀ solver jacobian residuals, jacobian.numCols ≠ 0 →
      ((Strategy.create solver o.minimizer).computeStep jacobian residuals).1 =
        .error (.fault .unorderedBounds)) := by
  obtain ⟨hradius, ⟨hmin, hmax⟩, ⟨hdiagonal, hbounds⟩, -⟩ :=
    trustRegionFlaw?_eq_none_iff.mp (trustRegionFlaw?_of_validate hkind h)
  have hradiusNaN : o.initialRadius.isNaN = false := (float_lt_iff_not_le.mp hradius).2.1
  have hdiagonalNaN : o.minDiagonal.isNaN = false := (float_lt_iff_not_le.mp hdiagonal).2.1
  have hclamp : o.minDiagonal ≤ o.maxDiagonal ↔ o.maxDiagonal.isNaN = false := by
    rw [float_le_iff_not_lt, and_iff_right hdiagonalNaN, and_iff_left hbounds]
  refine ⟨⟨hdiagonal, hclamp⟩, ⟨hradius, ?_, ?_⟩, fun solver s hs => ?_,
    fun hnan solver jacobian residuals => ?_⟩
  · rw [float_le_iff_not_lt, and_iff_right hradiusNaN, and_iff_left hmin]
  · rw [float_le_iff_not_lt, and_iff_right hradiusNaN, and_iff_left hmax]
  · have heq : s.clampBounds = (o.minDiagonal, o.maxDiagonal) :=
      hs.clampBounds_eq.trans (Strategy.clampBounds_create solver o.minimizer)
    refine ⟨heq, fun hnan jacobian residuals hfault => ?_⟩
    have hblames := s.faultsWithin_computeStep jacobian residuals _ hfault rfl
    rw [heq] at hblames
    exact hblames (hclamp.mpr hnan)
  · exact Strategy.computeStep_create_unordered solver fun hle => by
      rw [hclamp.mp hle] at hnan
      cases hnan

/-- The default options pass the check and all their bounds hold. -/
theorem clamp_of_validate_default :
    let o : SolveOptions Float := {}
    o.validate = .ok () ∧ o.minDiagonal ≤ o.maxDiagonal ∧ o.minRadius ≤ o.initialRadius ∧
      o.initialRadius ≤ o.maxRadius ∧
      ∀ solver s, Strategy.Follows (.create solver o.minimizer) s → ∀ jacobian residuals,
        (s.computeStep jacobian residuals).1 ≠ .error (.fault .unorderedBounds) := by
  intro o
  have hflaw : o.flaw?.isNone = true := by decide +kernel
  have hvalid : o.validate = .ok () := by rw [validate, Option.isNone_iff_eq_none.mp hflaw]
  obtain ⟨⟨-, hclamp⟩, ⟨-, hmin, hmax⟩, hsteps, -⟩ := clamp_of_validate rfl hvalid
  have hnumber : o.maxDiagonal.isNaN = false := by decide +kernel
  exact ⟨hvalid, hclamp.mpr hnumber, hmin.mpr (by decide +kernel), hmax.mpr (by decide +kernel),
    fun solver s hs => (hsteps solver s hs).2 hnumber⟩

/-- Options whose upper bound of the clamp is a NaN pass the check. The bounds of
the clamp are then not ordered, and no strategy gets to a step. -/
theorem not_clamp_of_validate :
    let o : SolveOptions Float := { maxDiagonal := 0 / 0 }
    o.minimizerKind = .trustRegion ∧ o.validate = .ok () ∧ ¬o.minDiagonal ≤ o.maxDiagonal ∧
      ∀ solver, ((Strategy.create solver o.minimizer).computeStep ⟨[⟨1, 0⟩], []⟩ (Vec.zeros 0)).1 =
        .error (.fault .unorderedBounds) := by
  intro o
  have hflaw : o.flaw?.isNone = true := by decide +kernel
  have hvalid : o.validate = .ok () := by rw [validate, Option.isNone_iff_eq_none.mp hflaw]
  have hunordered : ¬o.minDiagonal ≤ o.maxDiagonal := by decide +kernel
  exact ⟨rfl, hvalid, hunordered,
    fun solver => Strategy.computeStep_create_unordered solver hunordered (Nat.one_ne_zero)⟩

end SolveOptions

end LeastSquares
