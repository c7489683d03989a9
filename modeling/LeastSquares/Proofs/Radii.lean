import LeastSquares.Proofs.Proposals
import LeastSquares.Proofs.SchurSolver

/-!
# Trust region radii

In exact arithmetic the radius of a trust region stays positive and within its
limit, whatever steps a strategy proposes and whatever it is told about them, as
long as the steps that were accepted achieved something.

A Levenberg-Marquardt strategy divides its radius at every failure by twice the
divisor of the failure before. So failures in a row divide it by `2`, by `2 · 4`,
by `2 · 4 · 8`, which is `2 ^ (k (k + 1) / 2)` for `k` of them. An accepted step
begins the count anew, and it multiplies the radius by more than a half and by
three at most, where the limit allows that. A dogleg strategy halves its radius
when a step is rejected, and keeps it when a step could not be used.

## Main definitions

* `LevenbergMarquardt.Bounded`, `Dogleg.Bounded` — a radius in its interval.
* `LevenbergMarquardt.Narrowed` — a radius after failures in a row.
* `Strategy.Fresh`, `Strategy.Fails` — where failures are counted from, and the
  failures.

## Main results

* `LevenbergMarquardt.widening_mem` — the divisor after an accepted step.
* `LevenbergMarquardt.Narrowed.rejected` — one more failure.
* `Strategy.radius_course` — the radius in the course of a run.
-/

namespace LeastSquares

/-! ## Levenberg-Marquardt strategies -/

namespace LevenbergMarquardt

variable {s : LevenbergMarquardt ℝ} {maxRadius quality first : ℝ} {k : Nat}

theorem widening_eq (quality : ℝ) :
    widening quality = max (1 / 3) (1 - (2 * quality - 1) ^ 3) := by
  have hthree : (3.0 : ℝ) = 3 := by norm_num
  unfold widening Scalar.cube
  simp only [real_max, real_sub, real_mul, real_div, real_one, real_ofScientific, real_two, hthree]
  ring_nf

/-- The divisor after a step that achieved something. -/
theorem widening_mem (hquality : 0 < quality) :
    1 / 3 ≤ widening quality ∧ widening quality < 2 := by
  rw [widening_eq]
  refine ⟨le_max_left _ _, max_lt (by norm_num) ?_⟩
  have hcube : (-1 : ℝ) ^ 3 < (2 * quality - 1) ^ 3 :=
    (Odd.strictMono_pow (by decide)) (by linarith)
  linarith

/-- An accepted step multiplies the radius, up to its limit. -/
theorem radius_accepted (s : LevenbergMarquardt ℝ) (quality : ℝ) :
    (s.accepted quality).radius = min (s.radius * (widening quality)⁻¹) s.maxRadius := by
  rw [accepted, real_min, real_div, div_eq_mul_inv]

/-- A radius in its interval, with a divisor that does not widen it. -/
structure Bounded (maxRadius : ℝ) (s : LevenbergMarquardt ℝ) : Prop where
  pos : 0 < s.radius
  le : s.radius ≤ maxRadius
  limit : s.maxRadius = maxRadius
  decrease : 1 ≤ s.decrease

theorem bounded_new (solver : LinearSolver) {o : MinimizerOptions ℝ} (hpos : 0 < o.initialRadius)
    (hmax : o.initialRadius ≤ o.maxRadius) : (new solver o).Bounded o.maxRadius where
  pos := hpos
  le := hmax
  limit := rfl
  decrease := by
    show (1 : ℝ) ≤ 2.0
    norm_num

theorem Bounded.accepted (hs : s.Bounded maxRadius) (hquality : 0 < quality) :
    (s.accepted quality).Bounded maxRadius where
  pos := by
    have hwidening : 0 < widening quality := lt_of_lt_of_le (by norm_num) (widening_mem hquality).1
    rw [radius_accepted]
    exact lt_min (mul_pos hs.pos (inv_pos.mpr hwidening)) (hs.limit ▸ hs.pos.trans_le hs.le)
  le := by
    rw [radius_accepted, hs.limit]
    exact min_le_right _ _
  limit := hs.limit
  decrease := by
    show (1 : ℝ) ≤ 2.0
    norm_num

theorem Bounded.rejected (hs : s.Bounded maxRadius) : s.rejected.Bounded maxRadius where
  pos := div_pos hs.pos (zero_lt_one.trans_le hs.decrease)
  le := (div_le_self hs.pos.le hs.decrease).trans hs.le
  limit := hs.limit
  decrease := by
    show 1 ≤ s.decrease * 2.0
    rw [real_two]
    linarith [hs.decrease]

/-- A radius after `k` failures, with the divisor of the next one. -/
structure Narrowed (first : ℝ) (k : Nat) (s : LevenbergMarquardt ℝ) : Prop where
  radius : s.radius = first / 2 ^ (k * (k + 1) / 2)
  decrease : s.decrease = 2 ^ (k + 1)

/-- The divisor is two at first, and after every accepted step. -/
theorem narrowed_zero (hdecrease : s.decrease = 2.0) : s.Narrowed s.radius 0 where
  radius := by rw [Nat.zero_mul, Nat.zero_div, pow_zero, div_one]
  decrease := by rw [hdecrease, real_two, pow_one]

/-- The exponents of the divisors add up. -/
theorem Narrowed.rejected (hs : s.Narrowed first k) : s.rejected.Narrowed first (k + 1) where
  radius := by
    have htriangle : (k + 1) * (k + 1 + 1) / 2 = k * (k + 1) / 2 + (k + 1) := by
      rw [Nat.mul_comm (k + 1), Nat.mul_comm k]
      exact Nat.triangle_succ (k + 1)
    show s.radius / s.decrease = _
    rw [hs.radius, hs.decrease, div_div, ← pow_add, htriangle]
  decrease := by
    show s.decrease * 2.0 = _
    rw [hs.decrease, real_two, ← pow_succ]

end LevenbergMarquardt

/-! ## Dogleg strategies -/

namespace Dogleg

variable {s s' : Dogleg ℝ} {maxRadius : ℝ}

/-- A radius in its interval. -/
structure Bounded (maxRadius : ℝ) (s : Dogleg ℝ) : Prop where
  pos : 0 < s.radius
  le : s.radius ≤ maxRadius
  limit : s.maxRadius = maxRadius

theorem Bounded.frame (hs : s.Bounded maxRadius) (h : s.Frame s') : s'.Bounded maxRadius where
  pos := h.radius ▸ hs.pos
  le := h.radius ▸ hs.le
  limit := h.maxRadius.trans hs.limit

theorem radius_rejected (s : Dogleg ℝ) : s.rejected.radius = s.radius / 2 := by
  show s.radius * 0.5 = _
  ring

/-- An accepted step narrows the radius to its half at worst. -/
theorem Bounded.accepted (hs : s.Bounded maxRadius) (quality : ℝ) :
    (s.accepted quality).Bounded maxRadius := by
  have hlimit : 0 < s.maxRadius := hs.limit ▸ hs.pos.trans_le hs.le
  have hnarrowed : ∀ (poor : Prop) [Decidable poor],
      0 < if poor then s.radius * 0.5 else s.radius := by
    intro poor _
    split
    · exact mul_pos hs.pos (by norm_num)
    · exact hs.pos
  unfold Dogleg.accepted
  simp only [real_min, real_max]
  refine ⟨lt_min ?_ hlimit, hs.limit ▸ min_le_right _ _, hs.limit⟩
  split
  · exact lt_max_of_lt_left (hnarrowed _)
  · exact hnarrowed _

theorem Bounded.rejected (hs : s.Bounded maxRadius) : s.rejected.Bounded maxRadius where
  pos := s.radius_rejected ▸ half_pos hs.pos
  le := s.radius_rejected ▸ (half_le_self hs.pos.le).trans hs.le
  limit := hs.limit

end Dogleg

/-! ## Strategies in the course of a run -/

namespace Strategy

variable {answers : Answering ℝ} {s s' start : Strategy ℝ} {k : Nat} {maxRadius : ℝ}

theorem Course.levenbergMarquardt {first : LevenbergMarquardt ℝ} (hfirst : first.Bounded maxRadius)
    (h : Course answers (0 < ·) (.levenbergMarquardt first) s) :
    ∃ t, s = .levenbergMarquardt t ∧ t.Bounded maxRadius := by
  induction h with
  | start => exact ⟨first, rfl, hfirst⟩
  | proposed _ proposal ih =>
      obtain ⟨t, rfl, ht⟩ := ih
      cases proposal
      exact ⟨_, rfl, ht.pos, ht.le, ht.limit, ht.decrease⟩
  | accepted _ good ih =>
      obtain ⟨t, rfl, ht⟩ := ih
      exact ⟨_, rfl, ht.accepted good⟩
  | rejected _ ih =>
      obtain ⟨t, rfl, ht⟩ := ih
      exact ⟨_, rfl, ht.rejected⟩
  | invalid _ ih =>
      obtain ⟨t, rfl, ht⟩ := ih
      exact ⟨_, rfl, ht.rejected⟩

/-- A strategy that has not failed yet: at the start of a run, or after an
accepted step. -/
inductive Fresh (answers : Answering ℝ) (start : Strategy ℝ) : Strategy ℝ → Prop
  | start : Fresh answers start start
  | accepted {s : Strategy ℝ} (h : Course answers (0 < ·) start s) {quality : ℝ}
      (good : 0 < quality) : Fresh answers start (s.accepted quality)

/-- Failures in a row: steps that were rejected or could not be used, with any
proposals between them. -/
inductive Fails (answers : Answering ℝ) (first : Strategy ℝ) : Nat → Strategy ℝ → Prop
  | none : Fails answers first 0 first
  | proposed {k : Nat} {s : Strategy ℝ} (h : Fails answers first k s) {jacobian : BlockMatrix ℝ}
      {residuals : Vec ℝ} {p : Outcome LinearError (TrustRegionStep ℝ) × Strategy ℝ}
      (proposal : s.Proposes answers jacobian residuals p) : Fails answers first k p.2
  | rejected {k : Nat} {s : Strategy ℝ} (h : Fails answers first k s) :
      Fails answers first (k + 1) s.rejected
  | invalid {k : Nat} {s : Strategy ℝ} (h : Fails answers first k s) :
      Fails answers first (k + 1) s.invalid

theorem Fresh.narrowed {first : LevenbergMarquardt ℝ} (hfirst : first.Bounded maxRadius)
    (hdecrease : first.decrease = 2.0) (h : Fresh answers (.levenbergMarquardt first) s) :
    ∃ t, s = .levenbergMarquardt t ∧ t.Narrowed s.radius 0 := by
  cases h with
  | start => exact ⟨first, rfl, LevenbergMarquardt.narrowed_zero hdecrease⟩
  | accepted h _ =>
      obtain ⟨t, rfl, -⟩ := h.levenbergMarquardt hfirst
      exact ⟨_, rfl, LevenbergMarquardt.narrowed_zero rfl⟩

/-- Proposals between the failures change neither radius nor divisor. -/
theorem Fails.narrowed {t : LevenbergMarquardt ℝ} {radius : ℝ} (ht : t.Narrowed radius 0)
    (h : Fails answers (.levenbergMarquardt t) k s') :
    ∃ t', s' = .levenbergMarquardt t' ∧ t'.Narrowed radius k := by
  induction h with
  | none => exact ⟨t, rfl, ht⟩
  | proposed _ proposal ih =>
      obtain ⟨t', rfl, ht'⟩ := ih
      cases proposal
      exact ⟨_, rfl, ht'.radius, ht'.decrease⟩
  | rejected _ ih =>
      obtain ⟨t', rfl, ht'⟩ := ih
      exact ⟨_, rfl, ht'.rejected⟩
  | invalid _ ih =>
      obtain ⟨t', rfl, ht'⟩ := ih
      exact ⟨_, rfl, ht'.rejected⟩

/-- In exact arithmetic, and in the course of any run in which the accepted steps
have achieved something, the radius of a strategy is positive and within its
limit. An accepted Levenberg-Marquardt step multiplies it by more than a half and
by three at most, before the limit, and `k` failures in a row divide it by
`2 ^ (k (k + 1) / 2)`. A rejection halves the radius of a dogleg strategy, and a
step that could not be used leaves it as it is. -/
theorem radius_course (solver : LinearSolver) {o : MinimizerOptions ℝ}
    (hpos : 0 < o.initialRadius) (hmax : o.initialRadius ≤ o.maxRadius)
    (h : Course answers (0 < ·) (create solver o) s) :
    (0 < s.radius ∧ s.radius ≤ o.maxRadius) ∧
    (o.strategy = .levenbergMarquardt →
      (∀ quality, 0 < quality → ∃ factor, 1 / 2 < factor ∧ factor ≤ 3 ∧
        (s.accepted quality).radius = min (s.radius * factor) o.maxRadius) ∧
      (Fresh answers (create solver o) s → ∀ k s', Fails answers s k s' →
        s'.radius = s.radius / 2 ^ (k * (k + 1) / 2))) ∧
    (o.strategy = .dogleg →
      s.rejected.radius = s.radius / 2 ∧ s.invalid.radius = s.radius) := by
  cases hkind : o.strategy with
  | levenbergMarquardt =>
      have hstart : create solver o = .levenbergMarquardt (.new solver o) := by
        rw [create, hkind]
      have hnew := LevenbergMarquardt.bounded_new solver hpos hmax
      rw [hstart] at h ⊢
      obtain ⟨t, rfl, ht⟩ := h.levenbergMarquardt hnew
      refine ⟨⟨ht.pos, ht.le⟩, fun _ => ⟨fun quality hquality => ?_, fun hfresh k s' hfails => ?_⟩,
        nofun⟩
      · obtain ⟨hthird, htwo⟩ := LevenbergMarquardt.widening_mem hquality
        have hwidening : 0 < LevenbergMarquardt.widening quality :=
          lt_of_lt_of_le (by norm_num) hthird
        refine ⟨(LevenbergMarquardt.widening quality)⁻¹, ?_, ?_, ?_⟩
        · rw [one_div]
          exact inv_strictAnti₀ hwidening htwo
        · exact (inv_anti₀ (by norm_num) hthird).trans_eq (by norm_num)
        · exact ht.limit ▸ t.radius_accepted quality
      · obtain ⟨_, ⟨⟩, hzero⟩ := hfresh.narrowed hnew rfl
        obtain ⟨t', rfl, ht'⟩ := hfails.narrowed hzero
        exact ht'.radius
  | dogleg =>
      have hstart : create solver o = .dogleg (.new solver o) := by rw [create, hkind]
      have hnew : (Dogleg.new solver o).Bounded o.maxRadius := ⟨hpos, hmax, rfl⟩
      rw [hstart] at h
      obtain ⟨t, rfl, ht⟩ := h.dogleg hnew (fun ht hproposal => ht.frame hproposal.frame)
        (fun _ ht => ht.accepted _) (fun ht => ht.rejected) fun ht => ⟨ht.pos, ht.le, ht.limit⟩
      exact ⟨⟨ht.pos, ht.le⟩, nofun, fun _ => ⟨t.radius_rejected, rfl⟩⟩

/-- A radius that an accepted step has widened, after a rejection and a step that
could not be used. -/
theorem radius_course_oneEquation :
    let solver : LinearSolver := ⟨.denseQR, .identity, 1, 1, 0, none⟩
    let o : MinimizerOptions ℝ := { initialRadius := 1, maxRadius := 2 }
    let r : Vec ℝ := Vec.ofList [3]
    let widened := (create solver o).accepted 1
    let failed := (widened.rejected.computeStep oneEquation r).2.invalid
    Course LinearSolver.answering (0 < ·) (create solver o) widened ∧
      0 < widened.radius ∧ widened.radius ≤ 2 ∧ failed.radius = widened.radius / 2 ^ 3 := by
  intro solver o r widened failed
  have hone : (0 : ℝ) < 1 := one_pos
  have hcourse : Course LinearSolver.answering (0 < ·) (create solver o) widened :=
    .accepted .start hone
  have hfails : Fails LinearSolver.answering widened 2 failed :=
    .invalid (.proposed (.rejected .none) (proposes_computeStep _ oneEquation r))
  obtain ⟨⟨hpos, hle⟩, hnarrowed, -⟩ :=
    radius_course solver (o := o) hone one_le_two hcourse
  exact ⟨hcourse, hpos, hle, (hnarrowed rfl).2 (.accepted .start hone) 2 failed hfails⟩

end Strategy

end LeastSquares
