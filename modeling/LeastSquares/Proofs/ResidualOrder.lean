import LeastSquares.Proofs.Buckets
import LeastSquares.Proofs.Evaluator
import LeastSquares.Solve.ResidualOrder
import Mathlib.Data.List.Basic

/-!
# Residual blocks in buckets

Putting residual blocks into buckets loses none and adds none, and leaves
each in the bucket of the lowest eliminated block it reads. So if no residual
block reads two eliminated blocks, the rows come in the order that
elimination expects: first those that read an eliminated block, in ascending
order of that block, then those that read none.

## Main results

* `Program.lowestBucket_spec` — the bucket of a list of blocks.
* `Program.orderResiduals_spec`, `Program.exists_orderResiduals` — the
  residual blocks in buckets.
* `JacobianLayout.misfit?_ascending` — rows in buckets are where elimination
  expects them.
-/

namespace LeastSquares

variable {α σ : Type} [Scalar α]

namespace Program

variable {g g' : Program} {p : Problem α σ} {ids : List BlockId} {id : BlockId}
  {i : ResidualId} {bucket k n : Nat}

/-! ## Buckets -/

/-- The block is not held constant and stands at a place of the program. -/
def FreeAt (g : Program) (p : Problem α σ) (id : BlockId) (k : Nat) : Prop :=
  ∃ b, p.block? id = some b ∧ b.constant = false ∧ id.lastPlace? g.blocks = some k

theorem lowestBucket_cons : g.lowestBucket p bucket (id :: ids) = .ok k ↔
    ∃ b, p.block? id = some b ∧ g.lowestBucket p
      (min bucket ((if b.constant then none else id.lastPlace? g.blocks).getD bucket)) ids =
        .ok k := by
  rw [lowestBucket]
  cases hb : p.block? id with
  | none => simp [Problem.block_eq_error hb]
  | some b =>
      simp only [Problem.block_eq_ok.mpr hb, Option.some.injEq, exists_eq_left']

/-- The bucket of some blocks is their lowest place, if that is low enough. -/
theorem lowestBucket_spec (h : g.lowestBucket p bucket ids = .ok k) :
    k ≤ bucket ∧ (∀ id ∈ ids, ∀ l, g.FreeAt p id l → k ≤ l) ∧
      (k < bucket → ∃ id ∈ ids, g.FreeAt p id k) := by
  induction ids generalizing bucket with
  | nil =>
      cases h
      exact ⟨Nat.le_refl _, nofun, fun hlt => absurd hlt (Nat.lt_irrefl _)⟩
  | cons id ids ih =>
      obtain ⟨b, hb, hrest⟩ := lowestBucket_cons.mp h
      obtain ⟨hle, hlow, hex⟩ := ih hrest
      refine ⟨by omega, ?_, ?_⟩
      · intro i hi l hl
        rcases List.mem_cons.mp hi with rfl | hi
        · obtain ⟨b', hb', hconst, hplace⟩ := hl
          rw [hb] at hb'
          cases hb'
          simp only [hconst, Bool.false_eq_true, if_false, hplace, Option.getD_some] at hle
          omega
        · exact hlow i hi l hl
      · intro hlt
        by_cases hk : k < min bucket ((if b.constant then none
            else id.lastPlace? g.blocks).getD bucket)
        · obtain ⟨i, hi, hfree⟩ := hex hk
          exact ⟨i, List.mem_cons_of_mem id hi, hfree⟩
        · -- the bound was lowered to `k` by the first block
          cases hconst : b.constant with
          | true =>
              simp only [hconst, if_true, Option.getD_none] at hk
              omega
          | false =>
              cases hplace : id.lastPlace? g.blocks with
              | none =>
                  simp only [hconst, hplace, Bool.false_eq_true, if_false, Option.getD_none] at hk
                  omega
              | some l =>
                  simp only [hconst, hplace, Bool.false_eq_true, if_false,
                    Option.getD_some] at hk hle
                  have hkl : k = l := by omega
                  exact ⟨id, by simp, b, hb, hconst, hkl ▸ hplace⟩

theorem exists_lowestBucket (h : ∀ id ∈ ids, p.contains id = true) :
    ∃ k, g.lowestBucket p bucket ids = .ok k := by
  induction ids generalizing bucket with
  | nil => exact ⟨bucket, rfl⟩
  | cons id ids ih =>
      obtain ⟨b, hb⟩ := Problem.contains_iff.mp (h id (by simp))
      obtain ⟨k, hk⟩ := ih fun i hi => h i (List.mem_cons_of_mem id hi)
      exact ⟨k, lowestBucket_cons.mpr ⟨b, hb, hk⟩⟩

theorem bucketOf_eq_ok : g.bucketOf p n i = .ok k ↔
    ∃ r, p.residual? i = some r ∧ g.lowestBucket p n r.blocks = .ok k := by
  unfold bucketOf
  cases hr : p.residual i with
  | error e =>
      have hnone : p.residual? i = none := by
        cases hr' : p.residual? i with
        | none => rfl
        | some r => simp [Problem.residual_eq_ok.mpr hr'] at hr
      simp [hnone]
  | ok r =>
      rw [Problem.residual_eq_ok] at hr
      simp only [hr, Option.some.injEq, exists_eq_left']

theorem bucketOf_le (h : g.bucketOf p n i = .ok k) : k ≤ n := by
  obtain ⟨r, -, hlow⟩ := bucketOf_eq_ok.mp h
  exact (lowestBucket_spec hlow).1

/-! ## The order -/

/-- The key of a residual block that was put into a bucket. -/
theorem bucketOf_of_keyed {keyed : List (Nat × ResidualId)}
    (h : g.residuals.mapM (fun r => (g.bucketOf p n r).map fun k => (k, r)) = .ok keyed) :
    keyed.map Prod.snd = g.residuals ∧ ∀ r ∈ keyed, g.bucketOf p n r.2 = .ok r.1 := by
  have hall := mapM_eq_ok_iff.mp h
  constructor
  · have hmap : g.residuals.map id = keyed.map Prod.snd := by
      refine map_eq_map_of_forall₂ hall fun i r hr => ?_
      obtain ⟨k, -, rfl⟩ := except_map_eq_ok.mp hr
      rfl
    rw [← hmap, List.map_id]
  · intro r hr
    obtain ⟨i, -, hi⟩ := exists_left_of_forall₂ hall r hr
    obtain ⟨k, hk, rfl⟩ := except_map_eq_ok.mp hi
    exact hk

/-- Residual blocks whose buckets are found can be sorted. -/
theorem reorderResiduals_of_keyed (hn : n ≠ 0) {keyed : List (Nat × ResidualId)}
    (h : g.residuals.mapM (fun r => (g.bucketOf p n r).map fun k => (k, r)) = .ok keyed) :
    g.reorderResiduals p n = (.ok (Buckets.sizes (n + 1) keyed),
      { g with residuals := (List.range (n + 1)).flatMap (Buckets.members keyed) }) := by
  have hrange : ∀ r ∈ keyed, r.1 < n + 1 := fun r hr =>
    Nat.lt_succ_of_le (bucketOf_le ((bucketOf_of_keyed h).2 r hr))
  simp only [reorderResiduals, if_neg hn, h, Buckets.sort_eq hrange]

/-- Ordering keeps the residual blocks, and lists them bucket by bucket. -/
theorem orderResiduals_spec {sizes : List Nat} (h : g.orderResiduals p n = .ok (sizes, g')) :
    g'.blocks = g.blocks ∧ g'.residuals.Perm g.residuals ∧
      ∃ rows : Nat → List ResidualId, g'.residuals = (List.range (n + 1)).flatMap rows ∧
        ∀ k, ∀ i ∈ rows k, g.bucketOf p n i = .ok k := by
  by_cases hn : n = 0
  · simp [orderResiduals, reorderResiduals, hn, InPlace.result] at h
  · cases hkeyed : g.residuals.mapM fun r => (g.bucketOf p n r).map fun k => (k, r) with
    | error e => simp [orderResiduals, reorderResiduals, hn, hkeyed, InPlace.result] at h
    | ok keyed =>
        obtain ⟨hall, hbucket⟩ := bucketOf_of_keyed hkeyed
        rw [orderResiduals, reorderResiduals_of_keyed hn hkeyed] at h
        cases h
        refine ⟨rfl, ?_, Buckets.members keyed, rfl, ?_⟩
        · have hrange : ∀ r ∈ keyed, r.1 < n + 1 := fun r hr =>
            Nat.lt_succ_of_le (bucketOf_le (hbucket r hr))
          rw [Buckets.flatMap_members hrange, ← hall]
          exact (List.mergeSort_perm keyed _).map Prod.snd
        · intro k i hi
          obtain ⟨r, hr, rfl⟩ := List.mem_map.mp hi
          obtain ⟨hr, hk⟩ := List.mem_filter.mp hr
          rw [← eq_of_beq hk]
          exact hbucket r hr

/-- Residual blocks can be ordered if what they read is live and there is
something to eliminate. -/
theorem exists_orderResiduals (hn : n ≠ 0)
    (h : ∀ i ∈ g.residuals, ∃ r, p.residual? i = some r ∧
      ∀ id ∈ r.blocks, p.contains id = true) :
    ∃ r, g.orderResiduals p n = .ok r := by
  obtain ⟨keyed, hkeyed⟩ := exists_mapM_eq_ok
    (f := fun i => (g.bucketOf p n i).map fun k => (k, i)) (l := g.residuals) fun i hi => by
      obtain ⟨r, hr, hlive⟩ := h i hi
      obtain ⟨k, hk⟩ : ∃ k, g.lowestBucket p n r.blocks = .ok k := exists_lowestBucket hlive
      exact ⟨(k, i), except_map_eq_ok.mpr ⟨k, bucketOf_eq_ok.mpr ⟨r, hr, hk⟩, rfl⟩⟩
  rw [orderResiduals, reorderResiduals_of_keyed hn hkeyed]
  exact ⟨_, rfl⟩

end Program

/-! ## Rows -/

namespace JacobianLayout

/-- A row that reads the given eliminated block, or none if there is none. -/
def Reads (n : Nat) (columns : List Nat) (e : Option Nat) : Prop :=
  columns.filter (· < n) = e.toList

theorem misfit?_free {n row : Nat} {last : Option Nat} {seenFree : Bool}
    {rows : List (List Nat)} (h : ∀ c ∈ rows, Reads n c none) :
    misfit? n row last seenFree rows = none := by
  induction rows generalizing row seenFree with
  | nil => rfl
  | cons c rows ih =>
      have hc : c.filter (· < n) = [] := h c (by simp)
      rw [misfit?, hc]
      exact ih fun c' hc' => h c' (List.mem_cons_of_mem c hc')

/-- Rows that read ascending eliminated blocks, followed by rows that read
none. -/
theorem misfit?_ascending {n row : Nat} {last : Option Nat} {front back : List (List Nat)}
    {es : List Nat} (hfront : List.Forall₂ (fun c e => Reads n c (some e)) front es)
    (hes : es.Pairwise (· ≤ ·)) (hlast : ∀ l ∈ last, ∀ e ∈ es, l ≤ e)
    (hback : ∀ c ∈ back, Reads n c none) :
    misfit? n row last false (front ++ back) = none := by
  induction hfront generalizing row last with
  | nil => exact misfit?_free hback
  | cons hc _ ih =>
      rename_i c e front es _
      obtain ⟨he, hes⟩ := List.pairwise_cons.mp hes
      have hc' : c.filter (· < n) = [e] := hc
      have hany : last.any (e < ·) = false := by
        cases last with
        | none => rfl
        | some l =>
            have := hlast l rfl e (by simp)
            simp only [Option.any_some, decide_eq_false_iff_not]
            omega
      rw [List.cons_append, misfit?, hc']
      simp only [List.isEmpty_nil, Bool.not_true, Bool.false_eq_true, if_false, hany,
        Bool.or_self]
      exact ih hes fun l hl e' he' => by
        cases hl
        exact he e' he'

end JacobianLayout

end LeastSquares
