import LeastSquares.Proofs.Effects
import LeastSquares.Solve.Solver

/-!
# Attempts

An attempt ends with a result or an error, and in both cases with a summary
and a world. `Ends` says what holds of the three if the attempt does not
meet a fault. Like the statements about computations it follows the attempt
step by step; an error skips the steps after it. `Completes` says that there
is neither a fault nor an error, and what holds then.

## Main definitions

* `Attempt.Ends` — a condition on outcome, summary and world.
* `Attempt.Completes` — an attempt that is not turned down, with a condition
  on result, summary and world.

## Main results

* `Attempt.ends_bind`, `Attempt.completes_bind` — attempts one after the other.
-/

namespace LeastSquares.Attempt

variable {α σ β γ : Type} [Scalar α] {s : SolveSummary α} {w : World α σ}

/-- If the attempt does not meet a fault, outcome, summary and world after it
satisfy a condition. -/
def Ends (a : Attempt α σ β) (s : SolveSummary α) (w : World α σ)
    (Q : Except (SolveError α) β → SolveSummary α → World α σ → Prop) : Prop :=
  Returns (a.run.run s) w fun r w' => Q r.1 r.2 w'

variable {Q : Except (SolveError α) β → SolveSummary α → World α σ → Prop}

theorem Ends.mono {a : Attempt α σ β}
    {P : Except (SolveError α) β → SolveSummary α → World α σ → Prop} (h : Ends a s w P)
    (hPQ : ∀ r s' w', P r s' w' → Q r s' w') : Ends a s w Q :=
  Returns.mono h fun r w' hP => hPQ r.1 r.2 w' hP

@[simp] theorem ends_pure {b : β} : Ends (pure b) s w Q ↔ Q (.ok b) s w := returns_pure

@[simp] theorem ends_throw {e : SolveError α} : Ends (throw e) s w Q ↔ Q (.error e) s w :=
  returns_pure

theorem ends_bind {a : Attempt α σ β} {f : β → Attempt α σ γ}
    {Q : Except (SolveError α) γ → SolveSummary α → World α σ → Prop} :
    Ends (a >>= f) s w Q ↔ Ends a s w fun r s' w' =>
      match r with
      | .ok b => Ends (f b) s' w' Q
      | .error e => Q (.error e) s' w' := by
  unfold Ends
  rw [ExceptT.run_bind, StateT.run_bind, returns_bind]
  constructor
  · intro h
    refine h.mono ?_
    rintro ⟨e | b, s'⟩ w' hb
    · exact hb (.error e, s') w' rfl
    · exact hb
  · intro h
    refine h.mono ?_
    rintro ⟨e | b, s'⟩ w' hb
    · exact returns_pure.mpr hb
    · exact hb

@[simp] theorem ends_note {f : SolveSummary α → SolveSummary α}
    {Q : Except (SolveError α) Unit → SolveSummary α → World α σ → Prop} :
    Ends (note f) s w Q ↔ Q (.ok ()) (f s) w := returns_pure

@[simp] theorem ends_ofRun {r : Run α σ β} :
    Ends (ofRun r) s w Q ↔ Returns r w fun b w' => Q (.ok b) s w' := by
  unfold Ends ofRun
  rw [ExceptT.run_lift, StateT.run_map, StateT.run_lift, returns_map, returns_bind]
  simp only [returns_pure]

@[simp] theorem ends_ofExcept {x : Except (SolveError α) β} :
    Ends (ofExcept x) s w Q ↔ Q x s w := returns_pure

@[simp] theorem ends_ofModel {x : Except ModelError β} :
    Ends (ofModel x) s w Q ↔ Q (x.mapError .model) s w := returns_pure

@[simp] theorem ends_onProblem {c : Problem α σ → Calls σ (InPlace ModelError β (Problem α σ))} :
    Ends (onProblem c) s w Q ↔ Returns (c w.problem) w.tally fun r t =>
      Q (r.1.mapError .model) s { w with problem := r.2, tally := t } := by
  rw [onProblem, ends_bind, ends_ofRun, Run.returns_onProblem]
  simp only [ends_ofModel]

/-! ## Steps in front of an attempt -/

section Sequences

variable {f : β → Attempt α σ γ} {Q : Except (SolveError α) γ → SolveSummary α → World α σ → Prop}

theorem ends_note_bind {h : SolveSummary α → SolveSummary α} {f : Unit → Attempt α σ γ} :
    Ends (note h >>= f) s w Q ↔ Ends (f ()) (h s) w Q := by
  rw [ends_bind, ends_note]

theorem ends_ofRun_bind {r : Run α σ β} :
    Ends (ofRun r >>= f) s w Q ↔ Returns r w fun b w' => Ends (f b) s w' Q := by
  rw [ends_bind, ends_ofRun]

theorem ends_ofModel_bind {x : Except ModelError β} : Ends (ofModel x >>= f) s w Q ↔
    (∀ b, x = .ok b → Ends (f b) s w Q) ∧
      ∀ e, x = .error e → Q (.error (.model e)) s w := by
  rw [ends_bind, ends_ofModel]
  cases x with
  | error e => exact ⟨fun h => ⟨nofun, fun _ he => by cases he; exact h⟩, fun h => h.2 e rfl⟩
  | ok b => exact ⟨fun h => ⟨fun _ hb => by cases hb; exact h, nofun⟩, fun h => h.1 b rfl⟩

theorem ends_ofExcept_bind {x : Except (SolveError α) β} : Ends (ofExcept x >>= f) s w Q ↔
    (∀ b, x = .ok b → Ends (f b) s w Q) ∧ ∀ e, x = .error e → Q (.error e) s w := by
  rw [ends_bind, ends_ofExcept]
  cases x with
  | error e => exact ⟨fun h => ⟨nofun, fun _ he => by cases he; exact h⟩, fun h => h.2 e rfl⟩
  | ok b => exact ⟨fun h => ⟨fun _ hb => by cases hb; exact h, nofun⟩, fun h => h.1 b rfl⟩

end Sequences

/-! ## Attempts that are not turned down -/

/-- The attempt is not turned down and does not meet a fault, and result,
summary and world after it satisfy a condition. -/
def Completes (a : Attempt α σ β) (s : SolveSummary α) (w : World α σ)
    (Q : β → SolveSummary α → World α σ → Prop) : Prop :=
  Succeeds (a.run.run s) w fun r w' => ∃ b, r.1 = .ok b ∧ Q b r.2 w'

section Completions

variable {Q : β → SolveSummary α → World α σ → Prop}

theorem Completes.mono {a : Attempt α σ β} {P : β → SolveSummary α → World α σ → Prop}
    (h : Completes a s w P) (hPQ : ∀ b s' w', P b s' w' → Q b s' w') : Completes a s w Q :=
  Succeeds.mono h fun r w' ⟨b, hb, hP⟩ => ⟨b, hb, hPQ b r.2 w' hP⟩

theorem Completes.and {a : Attempt α σ β} {P : Except (SolveError α) β → SolveSummary α →
    World α σ → Prop} (h : Completes a s w Q) (hP : Ends a s w P) :
    Completes a s w fun b s' w' => Q b s' w' ∧ P (.ok b) s' w' := by
  refine (Succeeds.and h hP).mono ?_
  rintro ⟨_, s'⟩ w' ⟨⟨b, rfl, hQ⟩, hP⟩
  exact ⟨b, rfl, hQ, hP⟩

theorem completes_pure {b : β} : Completes (pure b) s w Q ↔ Q b s w := by
  refine succeeds_pure.trans ⟨?_, fun h => ⟨b, rfl, h⟩⟩
  rintro ⟨b', hb', h⟩
  cases hb'
  exact h

theorem Completes.bind {a : Attempt α σ β} {f : β → Attempt α σ γ}
    {Q : γ → SolveSummary α → World α σ → Prop}
    (h : Completes a s w fun b s' w' => Completes (f b) s' w' Q) : Completes (a >>= f) s w Q := by
  unfold Completes
  rw [ExceptT.run_bind, StateT.run_bind, succeeds_bind]
  refine Succeeds.mono h ?_
  rintro ⟨_, s'⟩ w' ⟨b, rfl, hb⟩
  exact hb

theorem completes_note {f : SolveSummary α → SolveSummary α}
    {Q : Unit → SolveSummary α → World α σ → Prop} (h : Q () (f s) w) :
    Completes (note f) s w Q := ⟨_, _, rfl, (), rfl, h⟩

theorem completes_ofRun {r : Run α σ β} (h : Succeeds r w fun b w' => Q b s w') :
    Completes (ofRun r) s w Q := by
  unfold Completes ofRun
  rw [ExceptT.run_lift, StateT.run_map, StateT.run_lift, succeeds_map, succeeds_bind]
  exact h.mono fun b w' hb => succeeds_pure.mpr ⟨b, rfl, hb⟩

theorem completes_ofExcept {x : Except (SolveError α) β} {b : β} (hx : x = .ok b) (h : Q b s w) :
    Completes (ofExcept x) s w Q := by
  subst hx
  exact completes_pure.mpr h

theorem completes_ofModel {x : Except ModelError β} {b : β} (hx : x = .ok b) (h : Q b s w) :
    Completes (ofModel x) s w Q :=
  completes_ofExcept (hx ▸ rfl) h

end Completions

end LeastSquares.Attempt
