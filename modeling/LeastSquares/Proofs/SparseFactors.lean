import LeastSquares.LinearSolver.Sparse
import LeastSquares.Proofs.Cholesky
import LeastSquares.Proofs.Traversal

/-!
# Sparse factors

A sparse factorization relabels its matrix, which changes neither definiteness
nor the solution, so in exact arithmetic it solves every positive definite
system whose pattern it has analysed. The analysis of another pattern may have
no place for an entry of the matrix. That is the only fault that a sparse
factorization can meet, and it does meet it where there are more entries than
the analysed matrix has positions.

## Main definitions

* `Outcome.FaultsWithin` — the faults that an operation may meet.

## Main results

* `SparsityAnalysis.size_solve?` — solutions have the size that was analysed.
* `SparsityAnalysis.faultsWithin_solve?`, `SparsityAnalysis.solve?_overfull` —
  matrices that do not fit an analysis.
* `SparsityAnalysis.solve?_spec` — the solution by a sparse factorization.
-/

namespace LeastSquares

open Matrix

/-! ## Faults -/

/-- The faults that an operation may meet. -/
def Outcome.FaultsWithin {ε β : Type} (P : Fault → Prop) (r : Outcome ε β) : Prop :=
  ∀ f, r = .error (.fault f) → P f

namespace Outcome.FaultsWithin

variable {ε β γ : Type} {P : Fault → Prop} {r : Outcome ε β}

theorem ok (b : β) : FaultsWithin P (.ok b : Outcome ε β) := nofun

theorem error (e : ε) : FaultsWithin P (.error (.error e) : Outcome ε β) := nofun

theorem fault {f : Fault} (h : P f) : FaultsWithin P (.error (.fault f) : Outcome ε β) := by
  rintro _ ⟨⟩
  exact h

theorem bind {k : β → Outcome ε γ} (h : FaultsWithin P r) (hk : ∀ b, FaultsWithin P (k b)) :
    FaultsWithin P (r >>= k) := by
  intro f hf
  cases r with
  | ok b => exact hk b f hf
  | error e =>
      cases hf
      exact h f rfl

theorem mono {Q : Fault → Prop} (h : FaultsWithin P r) (hPQ : ∀ f, P f → Q f) :
    FaultsWithin Q r := fun f hf => hPQ f (h f hf)

theorem map (g : β → γ) (h : FaultsWithin P r) : FaultsWithin P (r.map g) := by
  intro f hf
  cases r with
  | ok b => cases hf
  | error e =>
      cases hf
      exact h f rfl

theorem ite {c : Prop} [Decidable c] {r' : Outcome ε β} (h : FaultsWithin P r)
    (h' : FaultsWithin P r') : FaultsWithin P (if c then r else r') := by
  split
  · exact h
  · exact h'

theorem ofExcept (r : Except ε β) : FaultsWithin P (Outcome.ofExcept r) := by
  cases r <;> exact nofun

end Outcome.FaultsWithin

open Outcome (FaultsWithin)

/-! ## Factors that do not fit -/

section Faults

variable {α : Type} [Scalar α]

namespace SlotFactor

variable (layout : FactorLayout)

theorem faultsWithin_eliminateAll (columns : List Nat) (f : SlotFactor α) (pivot : α) :
    ∀ fault, f.eliminateAll layout pivot columns = .error fault → fault = .patternMismatch := by
  induction columns generalizing f pivot with
  | nil => exact nofun
  | cons j columns ih =>
      intro fault hfault
      unfold eliminateAll at hfault
      split at hfault
      · rename_i e he
        cases hfault
        unfold eliminate at he
        dsimp only at he
        split at he
        · cases he
        · cases he
          rfl
      · exact ih _ _ _ hfault

theorem faultsWithin_row? (f : SlotFactor α) (k : Nat) (entries : List (Nat × α)) :
    FaultsWithin (· = .patternMismatch) (f.row? layout k entries) := by
  unfold row?
  split
  · exact .fault rfl
  · dsimp only
    refine .bind ?_ fun p => ?_
    · intro fault hfault
      unfold Outcome.ofFault at hfault
      split at hfault
      · cases hfault
      · rename_i he
        cases hfault
        exact faultsWithin_eliminateAll layout _ _ _ _ he
    · exact .ite (.ok _) (.error _)

theorem faultsWithin_rows? (entriesOf : Nat → List (Nat × α)) (rows : List Nat)
    (f : SlotFactor α) : FaultsWithin (· = .patternMismatch) (rows? layout entriesOf rows f) := by
  induction rows generalizing f with
  | nil => exact .ok f
  | cons k rows ih =>
      unfold rows?
      split
      · rename_i e he
        rintro fault ⟨⟩
        exact faultsWithin_row? layout f k _ fault he
      · exact ih _

end SlotFactor

theorem faultsWithin_panelFactor? (layout : FactorLayout) (triangle : List (Nat × Nat))
    (h : Mat α) : FaultsWithin (· = .patternMismatch) (panelFactor? layout triangle h) := by
  unfold panelFactor?
  split
  · split
    · exact .error _
    · exact .ok _
  · split
    · exact .error _
    · exact .fault rfl

theorem length_lowerTriangle {n : Nat} (r : Relabelling n) (pattern : List (Nat × Nat)) :
    (lowerTriangle r pattern).length = (pattern.filter fun p => p.1 ≤ p.2).length := by
  induction pattern with
  | nil => rfl
  | cons p pattern ih =>
      by_cases h : p.1 ≤ p.2
      · have hcons : lowerTriangle r (p :: pattern) =
            (Nat.min (r.label p.1) (r.label p.2), Nat.max (r.label p.1) (r.label p.2)) ::
              lowerTriangle r pattern := List.filterMap_cons_some (if_pos h)
        rw [hcons, List.length_cons, ih, List.filter_cons_of_pos (by simpa using h),
          List.length_cons]
      · have hcons : lowerTriangle r (p :: pattern) = lowerTriangle r pattern :=
          List.filterMap_cons_none (if_neg h)
        rw [hcons, ih, List.filter_cons_of_neg (by simpa using h)]

namespace SparsityAnalysis

variable {s : SparsityAnalysis} {pattern : List (Nat × Nat)}

/-- A matrix whose pattern is the analysed one meets no fault, and other matrices
meet no other than that their pattern does not fit. -/
theorem faultsWithin_solve? (s : SparsityAnalysis) (pattern : List (Nat × Nat)) (h : Mat α)
    (rhs : Vec α) : FaultsWithin (fun f => f = .patternMismatch ∧ s.pattern ≠ pattern)
      (s.solve? pattern h rhs) := by
  have hfinish : ∀ y : Vec α, FaultsWithin (fun f => f = .patternMismatch ∧ s.pattern ≠ pattern)
      (if (y.unlabel s.order).isFinite then .ok (y.unlabel s.order)
        else .error (.error LinearError.singular) : Outcome LinearError (Vec α)) :=
    fun y => .ite (.ok _) (.error _)
  unfold solve?
  dsimp only
  split
  · split
    · exact .error _
    · exact hfinish _
  · rename_i hpattern
    have hother : FaultsWithin (· = .patternMismatch)
        (s.solveOther? pattern (h.relabel s.order) (rhs.relabel s.order)) := by
      refine .ite (.fault rfl) (.ite ?_ ?_)
      · exact .bind (faultsWithin_panelFactor? _ _ _) fun _ => .ok _
      · exact .bind (SlotFactor.faultsWithin_rows? _ _ _ _) fun _ => .ok _
    exact .bind (hother.mono fun _ hf => ⟨hf, hpattern⟩) hfinish

/-- There is room for as many entries as the analysed matrix has; a triangle with
more is a fault. -/
theorem solve?_overfull
    (h : s.pattern.length < (pattern.filter fun p => p.1 ≤ p.2).length) (m : Mat α) (rhs : Vec α) :
    s.solve? pattern m rhs = .error (.fault .patternMismatch) := by
  have hother : s.pattern ≠ pattern := by
    rintro rfl
    exact (List.length_filter_le _ _).not_gt h
  have hroom : s.pattern.length < (lowerTriangle s.order pattern).length :=
    (length_lowerTriangle s.order pattern).symm ▸ h
  simp only [solve?, if_neg hother, solveOther?, if_pos hroom]
  rfl

/-- A solution by a sparse factorization has the size that was analysed. -/
theorem size_solve? {m : Mat α} {b x : Vec α} (h : s.solve? pattern m b = .ok x) :
    x.size = s.dimension := by
  unfold solve? at h
  dsimp only at h
  split at h
  · split at h
    · cases h
    · exact eq_of_ite_ok h ▸ Vec.size_ofFn _ _
  · obtain ⟨y, -, hy⟩ := except_bind_eq_ok.mp h
    exact eq_of_ite_ok hy ▸ Vec.size_ofFn _ _

end SparsityAnalysis

end Faults

/-! ## Relabelled systems -/

namespace Relabelling

variable {n : Nat}

/-- The index with a label. -/
noncomputable def indexEquiv (r : Relabelling n) : Fin n ≃ Fin n where
  toFun k := ⟨r.index k, r.index_lt k.isLt⟩
  invFun i := ⟨r.label i, r.label_lt i.isLt⟩
  left_inv k := Fin.ext (r.label_index k.isLt)
  right_inv i := Fin.ext (r.index_label i.isLt)

/-- A symmetric matrix by the new labels. -/
theorem toMatrix_relabel (r : Relabelling n) {h : Mat ℝ} (hsymm : (h.toMatrix n n).IsHermitian) :
    (h.relabel r).toMatrix n n = (h.toMatrix n n).submatrix r.indexEquiv r.indexEquiv := by
  ext i j
  rw [Mat.toMatrix_apply, Mat.relabel, Mat.get_ofFn _ i.isLt j.isLt]
  have hswap : h.get (r.index j) (r.index i) = h.get (r.index i) (r.index j) :=
    hsymm.apply (r.indexEquiv i) (r.indexEquiv j)
  show h.get (max (r.index i) (r.index j)) (min (r.index i) (r.index j)) =
    h.get (r.index i) (r.index j)
  rcases le_total (r.index i) (r.index j) with hle | hle
  · rw [max_eq_right hle, min_eq_left hle, hswap]
  · rw [max_eq_left hle, min_eq_right hle]

theorem toFun_relabel (r : Relabelling n) (v : Vec ℝ) :
    (v.relabel r).toFun n = v.toFun n ∘ r.indexEquiv :=
  funext fun i => Vec.get_ofFn_of_lt _ i.isLt

theorem toFun_unlabel (r : Relabelling n) (v : Vec ℝ) :
    (v.unlabel r).toFun n = v.toFun n ∘ r.indexEquiv.symm :=
  funext fun i => Vec.get_ofFn_of_lt _ i.isLt

end Relabelling

/-- With its own pattern the sparse factorization solves every positive
definite system. -/
theorem SparsityAnalysis.solve?_spec {s : SparsityAnalysis} {pattern : List (Nat × Nat)}
    {h : Mat ℝ} {n : Nat} (rhs : Vec ℝ) (hn : s.dimension = n) (hpattern : s.pattern = pattern)
    (hpos : (h.toMatrix n n).PosDef) :
    ∃ x, s.solve? pattern h rhs = .ok x ∧ x.size = n ∧
      h.toMatrix n n *ᵥ x.toFun n = rhs.toFun n := by
  subst hn
  let σ := s.order.indexEquiv
  have hrelabel := s.order.toMatrix_relabel hpos.isHermitian
  obtain ⟨c, hc, hsolve, -⟩ := Cholesky.factor?_spec (n := s.dimension) (a := h.relabel s.order)
    .reciprocal rfl (by
      rw [hrelabel]
      exact hpos.submatrix σ.injective)
  obtain ⟨-, hy⟩ := hsolve (rhs.relabel s.order)
  refine ⟨(c.solve (rhs.relabel s.order)).unlabel s.order, ?_, Vec.size_ofFn _ _, ?_⟩
  · simp only [solve?, hpattern, if_true, hc, Vec.isFinite_real]
    rfl
  · rw [hrelabel, s.order.toFun_relabel, submatrix_mulVec_equiv] at hy
    rw [s.order.toFun_unlabel]
    exact σ.surjective.injective_comp_right hy

end LeastSquares
