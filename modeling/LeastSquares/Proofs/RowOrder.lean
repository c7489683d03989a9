import LeastSquares.Proofs.Coherent
import LeastSquares.Proofs.Real
import LeastSquares.Proofs.Reduction

/-!
# The order of rows is a stable sort

Every residual block has a key: the lowest place in the program of a block
that it reads and that is not held constant, or the number of eliminated
blocks if none of these places is lower. Residual blocks in buckets are
sorted by this key, and those of one key stay in their order; the sizes of
the buckets are the numbers of residual blocks of each key. Ordering a second
time changes nothing.

The handles of the residual blocks are looked up, and one that is not live
ends the ordering before anything is changed. The handles of the parameter
blocks of the program are only compared with those that the residual blocks
read, so one that is not live goes unnoticed.

## Main definitions

* `Program.freePlaces`, `Program.rowKey` — the key of a residual block.

## Main results

* `Program.reorderResiduals_eq` — live residual blocks are sorted.
* `Program.reorderResiduals_outcome` — what ordering does in every case.
-/

namespace LeastSquares

variable {α σ : Type} [Scalar α]

namespace Program

variable {p : Problem α σ} {g : Program} {i : ResidualId} {id : BlockId} {n : Nat}

/-! ## Keys -/

/-- The place of a block in the program, if the block is not held constant. A
block that stands at several places has the last one. -/
def freePlace? (g : Program) (p : Problem α σ) (id : BlockId) : Option Nat :=
  if (p.block? id).any fun b => !b.constant then id.lastPlace? g.blocks else none

/-- The places of the blocks that a residual block reads and that are not held
constant. -/
def freePlaces (g : Program) (p : Problem α σ) (i : ResidualId) : List Nat :=
  (((p.residual? i).map ResidualBlock.blocks).getD []).filterMap (g.freePlace? p)

/-- The lowest of these places, but at most `n`. -/
def rowKey (g : Program) (p : Problem α σ) (n : Nat) (i : ResidualId) : Nat :=
  (g.freePlaces p i).foldl min n

/-- Live blocks have a lowest bucket. -/
theorem lowestBucket_eq {bucket : Nat} {ids : List BlockId}
    (h : ∀ id ∈ ids, p.contains id = true) :
    g.lowestBucket p bucket ids = .ok ((ids.filterMap (g.freePlace? p)).foldl min bucket) := by
  induction ids generalizing bucket with
  | nil => rfl
  | cons id ids ih =>
      obtain ⟨b, hb⟩ := Problem.contains_iff.mp (h id (by simp))
      have hplace : g.freePlace? p id = if b.constant then none else id.lastPlace? g.blocks := by
        cases hconst : b.constant with
        | true => simp [freePlace?, hb, hconst]
        | false => simp [freePlace?, hb, hconst]
      rw [lowestBucket_cons]
      refine ⟨b, hb, ?_⟩
      rw [ih fun id hid => h id (List.mem_cons_of_mem _ hid), ← hplace]
      cases hfree : g.freePlace? p id with
      | none => simp [hfree]
      | some place => simp [hfree]

/-- The bucket of a live residual block is its key. -/
theorem bucketOf_eq (hp : p.Sound) {r : ResidualBlock α σ} (hr : p.residual? i = some r) :
    g.bucketOf p n i = .ok (g.rowKey p n i) := by
  rw [bucketOf_eq_ok]
  refine ⟨r, hr, ?_⟩
  rw [lowestBucket_eq (hp.reads i r hr).2, rowKey, freePlaces, hr]
  rfl

/-- A residual block without a bucket is not live. -/
theorem bucketOf_eq_error (hp : p.Sound) {e : ModelError} (h : g.bucketOf p n i = .error e) :
    p.residual i = .error e := by
  cases hr : p.residual i with
  | error e' =>
      simp only [bucketOf, hr] at h
      cases h
      rfl
  | ok r =>
      rw [bucketOf_eq hp (Problem.residual_eq_ok.mp hr)] at h
      cases h

/-! ## Sorting -/

/-- Live residual blocks are sorted by their keys. -/
theorem reorderResiduals_eq (hp : p.Sound) (hn : 1 ≤ n)
    (h : ∀ i ∈ g.residuals, ∃ r, p.residual? i = some r) :
    g.reorderResiduals p n =
      (.ok ((List.range (n + 1)).map fun k => g.residuals.countP fun i => g.rowKey p n i == k),
        { g with residuals := g.residuals.mergeSort fun i j => g.rowKey p n i ≤ g.rowKey p n j }) := by
  have hbucket : ∀ i ∈ g.residuals, g.bucketOf p n i = .ok (g.rowKey p n i) := by
    intro i hi
    obtain ⟨r, hr⟩ := h i hi
    exact bucketOf_eq hp hr
  have hkeyed : g.residuals.mapM (fun i => (g.bucketOf p n i).map fun k => (k, i)) =
      .ok (g.residuals.map fun i => (g.rowKey p n i, i)) := by
    rw [mapM_eq_ok_iff, List.forall₂_map_right_iff, List.forall₂_same]
    intro i hi
    rw [hbucket i hi]
    rfl
  have hmembers : ∀ k, Buckets.members (g.residuals.map fun i => (g.rowKey p n i, i)) k =
      g.residuals.filter fun i => g.rowKey p n i == k := by
    intro k
    simp [Buckets.members, List.filter_map, Function.comp_def]
  have hrange : ∀ i ∈ g.residuals, g.rowKey p n i < n + 1 :=
    fun i hi => Nat.lt_succ_of_le (bucketOf_le (hbucket i hi))
  rw [reorderResiduals_of_keyed (by omega) hkeyed]
  have hsizes : Buckets.sizes (n + 1) (g.residuals.map fun i => (g.rowKey p n i, i)) =
      (List.range (n + 1)).map fun k => g.residuals.countP fun i => g.rowKey p n i == k := by
    simp only [Buckets.sizes, hmembers, List.countP_eq_length_filter]
  have hsorted : (List.range (n + 1)).flatMap
      (Buckets.members (g.residuals.map fun i => (g.rowKey p n i, i))) =
        g.residuals.mergeSort fun i j => g.rowKey p n i ≤ g.rowKey p n j := by
    rw [← Buckets.flatMap_filter_eq_mergeSort hrange]
    exact congrArg (fun f => (List.range (n + 1)).flatMap f) (funext hmembers)
  rw [hsizes, hsorted]

/-- Sorted residual blocks stay as they are. -/
theorem reorderResiduals_sorted (hp : p.Sound) (hn : 1 ≤ n)
    (h : ∀ i ∈ g.residuals, ∃ r, p.residual? i = some r) :
    (g.reorderResiduals p n).2.reorderResiduals p n = g.reorderResiduals p n := by
  have hperm := List.mergeSort_perm g.residuals fun i j => g.rowKey p n i ≤ g.rowKey p n j
  have hsorted : (g.residuals.mergeSort fun i j => g.rowKey p n i ≤ g.rowKey p n j).Pairwise
      fun i j => decide (g.rowKey p n i ≤ g.rowKey p n j) = true := by
    simpa only [decide_eq_true_eq] using
      List.pairwise_mergeSort' (fun i j => g.rowKey p n i ≤ g.rowKey p n j) g.residuals
  have hkey : ∀ residuals, rowKey { g with residuals } p n = g.rowKey p n := fun _ => rfl
  rw [reorderResiduals_eq hp hn h,
    reorderResiduals_eq hp hn fun i hi => h i (hperm.mem_iff.mp hi)]
  simp only [hkey, hperm.countP_eq, List.mergeSort_of_pairwise hsorted]

/-- A residual block that is not live ends the ordering before anything is
changed. -/
theorem reorderResiduals_of_not_live (hp : p.Sound) (hn : 1 ≤ n)
    (h : ∃ i ∈ g.residuals, p.residual? i = none) :
    ∃ i ∈ g.residuals, ∃ e, p.residual i = .error e ∧
      g.reorderResiduals p n = (.error (.error e), g) := by
  have hn' : n ≠ 0 := by omega
  cases hkeyed : g.residuals.mapM fun i => (g.bucketOf p n i).map fun k => (k, i) with
  | error e =>
      obtain ⟨i, hi, he⟩ := exists_of_mapM_eq_error hkeyed
      have hbucket : g.bucketOf p n i = .error e := by
        cases hb : g.bucketOf p n i with
        | error e' =>
            rw [hb] at he
            cases he
            rfl
        | ok k =>
            rw [hb] at he
            cases he
      refine ⟨i, hi, e, bucketOf_eq_error hp hbucket, ?_⟩
      simp only [reorderResiduals, if_neg hn', hkeyed]
  | ok keyed =>
      -- every residual block has been looked up
      exfalso
      obtain ⟨i, hi, hnone⟩ := h
      obtain ⟨r, hr, hir⟩ := exists_right_of_forall₂ (mapM_eq_ok_iff.mp hkeyed) i hi
      obtain ⟨k, hk, -⟩ := except_map_eq_ok.mp hir
      obtain ⟨block, hblock, -⟩ := bucketOf_eq_ok.mp hk
      rw [hnone] at hblock
      cases hblock

/-- What ordering does in every case. If the residual blocks are live, they are
sorted by their keys, those of one key in their order; the answer is how many
there are of each key; the parameter blocks stay; and ordering again changes
nothing. Otherwise an error names a residual block that is not live, and the
program is as it was. -/
theorem reorderResiduals_outcome (hp : p.Reachable) (hn : 1 ≤ n) (g : Program) :
    ((∀ i ∈ g.residuals, ∃ r, p.residual? i = some r) →
      g.reorderResiduals p n =
        (.ok ((List.range (n + 1)).map fun k => g.residuals.countP fun i => g.rowKey p n i == k),
          ⟨g.blocks,
            g.residuals.mergeSort fun i j => g.rowKey p n i ≤ g.rowKey p n j⟩) ∧
      (g.reorderResiduals p n).2.reorderResiduals p n = g.reorderResiduals p n) ∧
    ((∃ i ∈ g.residuals, p.residual? i = none) →
      ∃ i ∈ g.residuals, ∃ e, p.residual i = .error e ∧
        g.reorderResiduals p n = (.error (.error e), g)) :=
  ⟨fun h => ⟨reorderResiduals_eq hp.sound hn h, reorderResiduals_sorted hp.sound hn h⟩,
    reorderResiduals_of_not_live hp.sound hn⟩

/-- The residual block of the free block comes first. -/
theorem reorderResiduals_outcome_anchored :
    let p := Gallery.anchored ℝ
    let g : Program := ⟨[⟨0, 0⟩, ⟨1, 0⟩], [⟨0⟩, ⟨1⟩]⟩
    let sorted : Program := ⟨[⟨0, 0⟩, ⟨1, 0⟩], [⟨1⟩, ⟨0⟩]⟩
    g.reorderResiduals p 1 = (.ok [1, 1], sorted) ∧
    (g.residuals.mergeSort fun i j => g.rowKey p 1 i ≤ g.rowKey p 1 j) = sorted.residuals ∧
    sorted.reorderResiduals p 1 = (.ok [1, 1], sorted) := by
  intro p g sorted
  have hlive : ∀ i ∈ g.residuals, ∃ r, p.residual? i = some r := by
    simp [g, p, Gallery.anchored, Problem.residual?]
  have hrun : g.reorderResiduals p 1 = (.ok [1, 1], sorted) := by rfl
  obtain ⟨hordered, hagain⟩ := (reorderResiduals_outcome (Gallery.reachable_anchored (α := ℝ))
    (Nat.le_refl 1) g).1 hlive
  rw [hrun] at hordered hagain
  exact ⟨hrun, (congrArg (fun out => out.2.residuals) hordered).symm, hagain⟩

end Program

/-! ## Handles that go unnoticed -/

namespace Gallery

/-- Two blocks, of which the first one has been removed, and a point that draws
the second one. -/
def vacated (α : Type) [Scalar α] : Problem α Unit where
  slots := #[⟨1, none⟩, ⟨0, some { values := .ofList [0] }⟩]
  residuals := #[some ⟨[⟨1, 0⟩], anchor (.ofList [4.0]), none⟩]
  freeSlots := [0]
  numBlocks := 1
  numResidualBlocks := 1

theorem reachable_vacated : (vacated α).Reachable := by
  have h : Problem.Reachable (α := α) (σ := Unit) .empty := .empty
  have h := h.addBlock (.inr (show 0 < UInt32.size by decide)) (.ofList [0])
  have h := h.addBlock (.inr (show 1 < UInt32.size by decide)) (.ofList [0])
  have h := h.addResidual
    (show Problem.addResidual _ (anchor (.ofList [4.0])) none [⟨1, 0⟩] = .ok (_, _) from rfl)
  exact h.removeBlock (show Problem.removeBlock _ ⟨0, 0⟩ = .ok _ from rfl)

end Gallery

namespace Program

/-- A program is ordered that lists a block which has been removed. -/
theorem not_reorderResiduals_refuses_stale : ¬ ∀ (p : Problem ℝ Unit) (g : Program) (n : Nat),
    p.Reachable → 1 ≤ n → (∃ id ∈ g.blocks, p.contains id = false) →
      ∃ e, g.reorderResiduals p n = (.error (.error e), g) := by
  intro h
  obtain ⟨e, he⟩ := h (Gallery.vacated ℝ) ⟨[⟨0, 0⟩, ⟨1, 0⟩], [⟨0⟩]⟩ 1 Gallery.reachable_vacated
    (Nat.le_refl 1) ⟨⟨0, 0⟩, by simp, by rfl⟩
  have hrun : reorderResiduals ⟨[⟨0, 0⟩, ⟨1, 0⟩], [⟨0⟩]⟩ (Gallery.vacated ℝ) 1 =
      (.ok [0, 1], ⟨[⟨0, 0⟩, ⟨1, 0⟩], [⟨0⟩]⟩) := by rfl
  rw [hrun] at he
  cases he

end Program

end LeastSquares
