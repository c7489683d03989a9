import LeastSquares.Proofs.Arrangement
import LeastSquares.Proofs.Coherent
import LeastSquares.Proofs.Real

/-!
# Which orders pass the checks

An order is compared with a problem or with a program by two questions only:
whether every member of the order is a block of the other side, and whether
the two have as many blocks. That is enough because no order has a block
twice, and neither does a problem; and a program that has a block twice has
fewer blocks than places, so that it never passes. An order that passes has
exactly the blocks of the other side.

## Main definitions

* `EliminationOrder.IsFirst` — the group that is eliminated first.

## Main results

* `Program.checkOrder_eq_ok_iff` — which orders fit a problem.
* `Program.reorderBlocks_eq_ok_iff` — which orders fit a program.
* `Program.order_checks` — both, and what following an order does.
-/

namespace LeastSquares

variable {α σ : Type} [Scalar α]

namespace EliminationOrder

variable {o : EliminationOrder} {group : Nat} {id : BlockId}

/-- The group is the lowest one that has a block. -/
def IsFirst (o : EliminationOrder) (group : Nat) : Prop :=
  (∃ id, o.group? id = some group) ∧ ∀ id k, o.group? id = some k → group ≤ k

theorem WellFormed.mem_head_iff (h : o.WellFormed) {ms : List BlockId}
    (hhead : o.groups.head? = some (group, ms)) : id ∈ ms ↔ o.group? id = some group := by
  rw [h.group?_eq_some_iff, h.grouped.inGroup_iff (List.mem_of_head? hhead)]

/-- The lowest group heads the list of groups. -/
theorem WellFormed.isFirst_iff (h : o.WellFormed) :
    o.IsFirst group ↔ ∃ ms, o.groups.head? = some (group, ms) := by
  have hhead : ∀ {g ms}, o.groups.head? = some (g, ms) → o.IsFirst g := by
    intro g ms hms
    constructor
    · have hne := (h.grouped.members g ms (List.mem_of_head? hms)).2
      obtain ⟨id, hid⟩ := List.exists_mem_of_ne_nil ms hne
      exact ⟨id, (h.mem_head_iff hms).mp hid⟩
    · intro id k hk
      obtain ⟨ns, hns, -⟩ := h.group?_eq_some_iff.mp hk
      exact h.grouped.head_le hms hns
  constructor
  · intro ⟨⟨id, hid⟩, hlow⟩
    obtain ⟨ns, hns, -⟩ := h.group?_eq_some_iff.mp hid
    obtain ⟨⟨g, ms⟩, hms⟩ : ∃ e, o.groups.head? = some e :=
      ⟨_, List.head?_eq_some_head (List.ne_nil_of_mem hns)⟩
    obtain ⟨⟨first, hfirst⟩, hlow'⟩ := hhead hms
    have hle := hlow first g hfirst
    have hle' := hlow' id group hid
    have heq : g = group := by omega
    exact ⟨ms, by rw [hms, heq]⟩
  · intro ⟨ms, hms⟩
    exact hhead hms

end EliminationOrder

namespace Program

variable {p : Problem α σ} {g : Program} {o : EliminationOrder} {kind : LinearSolverKind}
  {group : Nat} {ms : List BlockId}

/-! ## Against a problem -/

/-- The first group is independent if no residual block reads two of its
members. -/
theorem independent_ofProblem_iff (hp : p.Sound) (ho : o.WellFormed)
    (hhead : o.groups.head? = some (group, ms)) :
    (ofProblem p).Independent p ms ↔ ∀ i r, p.residual? i = some r →
      ∀ a ∈ r.blocks, ∀ b ∈ r.blocks,
        o.group? a = some group → o.group? b = some group → a = b := by
  have hmem : ∀ {r : ResidualBlock α σ} {id}, id ∈ r.blocks.filter ms.contains ↔
      id ∈ r.blocks ∧ o.group? id = some group := by
    intro r id
    rw [List.mem_filter, List.contains_iff_mem, ho.mem_head_iff hhead]
  have hnodup : ∀ {i r}, p.residual? i = some r → (r.blocks.filter ms.contains).Nodup :=
    fun hr => (hp.reads _ _ hr).1.filter _
  constructor
  · intro h i r hr a ha b hb hga hgb
    have hlen := h i (Problem.mem_residualIds.mpr ⟨r, hr⟩) r hr
    exact (length_le_one_iff (hnodup hr)).mp hlen a (hmem.mpr ⟨ha, hga⟩) b (hmem.mpr ⟨hb, hgb⟩)
  · intro h i _ r hr
    rw [length_le_one_iff (hnodup hr)]
    intro a ha b hb
    obtain ⟨ha, hga⟩ := hmem.mp ha
    obtain ⟨hb, hgb⟩ := hmem.mp hb
    exact h i r hr a ha b hb hga hgb

/-- An order passes the check against a problem if it has exactly the blocks of
the problem and a Schur solver that is told of several groups can eliminate
the first one. -/
theorem checkOrder_eq_ok_iff (hp : p.Sound) (ho : o.WellFormed) :
    (ofProblem p).checkOrder p o kind = .ok () ↔
      (∀ id, o.contains id = true ↔ p.contains id = true) ∧
      (kind.isSchur = true → 1 < o.numGroups → ∀ group, o.IsFirst group →
        ∀ i r, p.residual? i = some r → ∀ a ∈ r.blocks, ∀ b ∈ r.blocks,
          o.group? a = some group → o.group? b = some group → a = b) := by
  have hblocks : ∀ id, id ∈ (ofProblem p).blocks ↔ p.contains id = true :=
    fun id => Problem.mem_blockIds hp.room
  constructor
  · intro h
    have hfits := fits_of_checkOrder hp ho h
    constructor
    · intro id
      rw [ho.contains_iff, hfits.covers, hblocks]
    · intro hs hgroups group hfirst
      obtain ⟨ms, hms⟩ := ho.isFirst_iff.mp hfirst
      exact (independent_ofProblem_iff hp ho hms).mp (hfits.independent hs hgroups group ms hms)
  · intro ⟨hcovers, hind⟩
    apply checkOrder_of_fits hp
    constructor
    · exact ho
    · intro id
      rw [← ho.contains_iff, hcovers, hblocks]
    · intro hs hgroups group ms hms
      rw [independent_ofProblem_iff hp ho hms]
      exact hind hs hgroups group (ho.isFirst_iff.mpr ⟨ms, hms⟩)

/-! ## Against a program -/

/-- An order can be followed if the program has no block twice and the order
has exactly the blocks of the program. -/
theorem reorderBlocks_eq_ok_iff (ho : o.WellFormed) :
    (g.reorderBlocks o).1 = .ok () ↔
      g.blocks.Nodup ∧ ∀ id, id ∈ g.blocks ↔ o.contains id = true := by
  simp only [ho.contains_iff]
  constructor
  · intro h
    rcases reorderBlocks_cases ho g with ⟨e, he⟩ | ⟨hperm, -⟩
    · rw [he] at h
      cases h
    · exact ⟨hperm.nodup ho.nodup_toList, fun id => hperm.mem_iff.symm⟩
  · intro ⟨hn, hcovers⟩
    rw [reorderBlocks_of_covers ho hn fun id => (hcovers id).symm]

/-- What the two checks of an order say and what following an order does: the
blocks of the program stand in ascending order of group and handle, or the
program is as it was. -/
theorem order_checks (hp : p.Reachable) (ho : o.Reachable) (kind : LinearSolverKind)
    (g : Program) :
    ((ofProblem p).checkOrder p o kind = .ok () ↔
      (∀ id, o.contains id = true ↔ p.contains id = true) ∧
      (kind.isSchur = true → 1 < o.numGroups → ∀ group, o.IsFirst group →
        ∀ i r, p.residual? i = some r → ∀ a ∈ r.blocks, ∀ b ∈ r.blocks,
          o.group? a = some group → o.group? b = some group → a = b)) ∧
    ((g.reorderBlocks o).1 = .ok () ↔
      g.blocks.Nodup ∧ ∀ id, id ∈ g.blocks ↔ o.contains id = true) ∧
    ((g.reorderBlocks o).1 = .ok () →
      (g.reorderBlocks o).2.residuals = g.residuals ∧
      (g.reorderBlocks o).2.blocks.Perm g.blocks ∧
      (g.reorderBlocks o).2.blocks.Pairwise o.Before) ∧
    ∀ e, (g.reorderBlocks o).1 = .error e → (g.reorderBlocks o).2 = g := by
  have hwf := ho.wellFormed
  refine ⟨checkOrder_eq_ok_iff hp.sound hwf, reorderBlocks_eq_ok_iff hwf, ?_, ?_⟩
  · intro hok
    rcases reorderBlocks_cases hwf g with ⟨e, he⟩ | ⟨hperm, hg⟩
    · rw [he] at hok
      cases hok
    · rw [hg]
      exact ⟨rfl, hperm, hwf.pairwise_toList⟩
  · intro e herror
    rcases reorderBlocks_cases hwf g with ⟨e', he⟩ | ⟨-, hg⟩
    · rw [he]
    · rw [hg] at herror
      cases herror

/-- Two groups that pass both checks, and what following them does. -/
theorem order_checks_anchored :
    let o := EliminationOrder.ofList [(⟨1, 0⟩, 3), (⟨0, 0⟩, 5)]
    let g : Program := ⟨[⟨0, 0⟩, ⟨1, 0⟩], [⟨1⟩]⟩
    (ofProblem (Gallery.anchored ℝ)).checkOrder (Gallery.anchored ℝ) o .denseSchur = .ok () ∧
    (∀ id, o.contains id = true ↔ (Gallery.anchored ℝ).contains id = true) ∧
    g.reorderBlocks o = (.ok (), ⟨[⟨1, 0⟩, ⟨0, 0⟩], [⟨1⟩]⟩) ∧
    [⟨1, 0⟩, ⟨0, 0⟩].Pairwise o.Before := by
  intro o g
  obtain ⟨hcheck, -, hok, -⟩ := order_checks (Gallery.reachable_anchored (α := ℝ))
    (EliminationOrder.reachable_ofList [(⟨1, 0⟩, 3), (⟨0, 0⟩, 5)]) .denseSchur g
  have hpassed : (ofProblem (Gallery.anchored ℝ)).checkOrder (Gallery.anchored ℝ) o
      .denseSchur = .ok () := by rfl
  have hreordered : g.reorderBlocks o = (.ok (), ⟨[⟨1, 0⟩, ⟨0, 0⟩], [⟨1⟩]⟩) := by rfl
  have hascending := (hok (by rw [hreordered])).2.2
  rw [hreordered] at hascending
  exact ⟨hpassed, (hcheck.mp hpassed).1, hreordered, hascending⟩

end Program

end LeastSquares
