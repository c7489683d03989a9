import LeastSquares.Cost.Function

/-!
# Differences beside a copy of the point

Central differences move one copy of the point, and every difference puts the
copy back in its place. So each of them starts from the point itself, whatever
was moved before, and all of them together give what they would give if each
had a copy of its own.

## Main definitions

* `CostFunction.numericColumn`, `CostFunction.numericJacobian` — differences
  from the point itself.

## Main results

* `run_mapM_of_restores` — computations that leave a state as it was.
* `CostFunction.numericJacobians_eq` — differences beside a copy are
  differences from the point.
-/

namespace LeastSquares

/-- Computations that leave a state as it was do so one after the other. -/
theorem run_mapM_of_restores {m : Type → Type} [Monad m] [LawfulMonad m] {S β γ : Type} {s : S}
    {f : β → StateT S m γ} {g : β → m γ} (h : ∀ b, (f b).run s = (·, s) <$> g b) (l : List β) :
    (l.mapM f).run s = (·, s) <$> l.mapM g := by
  induction l with
  | nil => simp
  | cons b l ih =>
      rw [List.mapM_cons, List.mapM_cons, StateT.run_bind, h, bind_map_left, map_bind]
      refine bind_congr fun c => ?_
      rw [StateT.run_bind, ih, bind_map_left, map_bind]
      simp

namespace CostFunction

variable {α σ : Type} [Scalar α]

/-! ## Moving a coordinate -/

omit [Scalar α] in
theorem moved_moved (point : List (Vec α)) (block coordinate : Nat) (a b : α) :
    moved (moved point block coordinate a) block coordinate b = moved point block coordinate b := by
  rw [moved, moved, List.modify_modify_eq]
  congr 1
  funext v
  exact v.set_set coordinate a b

/-- A coordinate can be put back. -/
theorem moved_self (point : List (Vec α)) (block coordinate : Nat) :
    moved point block coordinate ((point.getD block default).get coordinate) = point := by
  refine List.ext_getElem? fun i => ?_
  rw [moved, List.getElem?_modify]
  by_cases hi : block = i
  · subst hi
    rw [List.getD_eq_getElem?_getD]
    cases point[block]? with
    | none => rfl
    | some v => simp [v.set_get]
  · simp [hi]

/-! ## Differences from the point -/

/-- The derivative of the residuals in one coordinate, by a central difference
at the point. -/
def numericColumn (f : CostFunction α σ) (relativeStep : α) (point : List (Vec α))
    (block coordinate : Nat) : OptionT (Calls σ) (Vec α) := do
  let value := (point.getD block default).get coordinate
  let h := stepLength relativeStep value
  let forward ← f.residualsAt (moved point block coordinate (value + h))
  let backward ← f.residualsAt (moved point block coordinate (value - h))
  if forward.size = f.numResiduals ∧ backward.size = f.numResiduals then
    pure ((forward - backward).map fun d => d / (2.0 * h))
  else
    OptionT.lift (throw .sizeMismatch)

/-- The derivative in one block, by central differences at the point. -/
def numericJacobian (f : CostFunction α σ) (relativeStep : α) (point : List (Vec α))
    (block : Nat) : OptionT (Calls σ) (Mat α) := do
  let n := (point.getD block default).size
  let columns ← (List.range n).mapM fun j => f.numericColumn relativeStep point block j
  pure (Mat.ofFn f.numResiduals n fun i j => (columns.getD j default).get i)

variable (f : CostFunction α σ) (step : α) (point : List (Vec α)) (block coordinate : Nat)

/-- A difference gives what it would give from the point itself, and puts the
copy back. -/
theorem run_probeColumn : (f.probeColumn step point block coordinate).run point =
    (·, point) <$> f.numericColumn step point block coordinate := by
  have hprobe : ∀ copy, f.probe.run copy = (·, copy) <$> f.residualsAt copy := fun copy => by
    simp only [probe, StateT.run_bind, StateT.run_get, pure_bind]
    rfl
  simp only [probeColumn, numericColumn, move, StateT.run_bind, StateT.run_modify, pure_bind,
    hprobe, bind_map_left, map_bind, moved_moved, moved_self]
  refine bind_congr fun forward => bind_congr fun backward => ?_
  split
  · rw [StateT.run_pure, map_pure]
  · rfl

theorem run_probeJacobian : (f.probeJacobian step point block).run point =
    (·, point) <$> f.numericJacobian step point block := by
  rw [probeJacobian, numericJacobian, StateT.run_bind,
    run_mapM_of_restores (fun j => f.run_probeColumn step point block j), bind_map_left, map_bind]
  simp

/-- Differences beside one copy are differences from the point. -/
theorem numericJacobians_eq : f.numericJacobians step point =
    ((List.range point.length).mapM fun block => f.numericJacobian step point block).run := by
  rw [numericJacobians, StateT.run'_eq,
    run_mapM_of_restores (fun block => f.run_probeJacobian step point block)]
  simp

end CostFunction

end LeastSquares
