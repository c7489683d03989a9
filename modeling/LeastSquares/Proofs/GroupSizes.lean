import LeastSquares.Proofs.Peeling
import Mathlib.Algebra.BigOperators.Group.List.Basic
import Mathlib.Algebra.Order.BigOperators.Ring.Finset
import Mathlib.Combinatorics.Enumerative.DoubleCounting

/-!
# Sizes of peeled groups

Every block of a later group is read together with some block of an earlier
one, so the later group is covered by what the members of the earlier group
are read together with. That alone does not make it the smaller one: blocks
of low degree go first, and two of them can keep three others out. Groups do
not grow if reading is balanced: of two blocks that are read together, the
one in the earlier group has at most as many partners in the later group as
the other one has in the earlier group.

## Main definitions

* `Program.Balanced` — blocks of earlier groups have no more partners.

## Main results

* `card_le_card_of_balanced` — double counting with weights.
* `Program.peeledOrder_sizes` — how large later groups can be.
* `Program.not_peeledOrder_sizes_descending` — two blocks in front of three.
-/

namespace LeastSquares

/-! ## Double counting -/

section DoubleCounting

open Finset

variable {β γ : Type} {s : Finset β} {t : Finset γ} {r : β → γ → Prop} [∀ b c, Decidable (r b c)]

/-- What is covered by partners is no more than all partners together. -/
theorem card_le_sum_partners (hcover : ∀ c ∈ t, ∃ b ∈ s, r b c) :
    #t ≤ ∑ b ∈ s, #(t.bipartiteAbove r b) := by
  rw [sum_card_bipartiteAbove_eq_sum_card_bipartiteBelow, card_eq_sum_ones]
  refine sum_le_sum fun c hc => card_pos.mpr ?_
  obtain ⟨b, hb, hbc⟩ := hcover c hc
  exact ⟨b, (mem_bipartiteBelow r).mpr ⟨hb, hbc⟩⟩

/-- Each member of the second set has a weight of one to give to its partners in
equal parts. If partners have no more partners than the giver, none of them
gets more than one. -/
theorem card_le_card_of_balanced (hcover : ∀ c ∈ t, ∃ b ∈ s, r b c)
    (hbalanced : ∀ b ∈ s, ∀ c ∈ t, r b c → #(t.bipartiteAbove r b) ≤ #(s.bipartiteBelow r c)) :
    #t ≤ #s := by
  have hgiven : ∀ c ∈ t, ∑ _b ∈ s.bipartiteBelow r c, (#(s.bipartiteBelow r c) : ℚ)⁻¹ = 1 := by
    intro c hc
    obtain ⟨b, hb, hbc⟩ := hcover c hc
    have hpos : 0 < #(s.bipartiteBelow r c) :=
      card_pos.mpr ⟨b, (mem_bipartiteBelow r).mpr ⟨hb, hbc⟩⟩
    rw [sum_const, nsmul_eq_mul]
    exact mul_inv_cancel₀ (by exact_mod_cast hpos.ne')
  have hpart : ∀ c ∈ t, ∀ b ∈ s.bipartiteBelow r c,
      (#(s.bipartiteBelow r c) : ℚ)⁻¹ ≤ (#(t.bipartiteAbove r b) : ℚ)⁻¹ := by
    intro c hc b hb
    obtain ⟨hb, hbc⟩ := (mem_bipartiteBelow r).mp hb
    have hpos : 0 < #(t.bipartiteAbove r b) :=
      card_pos.mpr ⟨c, (mem_bipartiteAbove r).mpr ⟨hc, hbc⟩⟩
    exact inv_anti₀ (by exact_mod_cast hpos) (by exact_mod_cast hbalanced b hb c hc hbc)
  have hgot : ∀ b ∈ s, ∑ _c ∈ t.bipartiteAbove r b, (#(t.bipartiteAbove r b) : ℚ)⁻¹ ≤ 1 := by
    intro b _
    rw [sum_const, nsmul_eq_mul]
    exact mul_inv_le_one
  have hsum : (#t : ℚ) ≤ #s :=
    calc (#t : ℚ) = ∑ c ∈ t, ∑ _b ∈ s.bipartiteBelow r c, (#(s.bipartiteBelow r c) : ℚ)⁻¹ := by
          rw [sum_congr rfl hgiven, sum_const, nsmul_eq_mul, mul_one]
      _ ≤ ∑ c ∈ t, ∑ b ∈ s.bipartiteBelow r c, (#(t.bipartiteAbove r b) : ℚ)⁻¹ :=
          sum_le_sum fun c hc => sum_le_sum fun b hb => hpart c hc b hb
      _ = ∑ b ∈ s, ∑ _c ∈ t.bipartiteAbove r b, (#(t.bipartiteAbove r b) : ℚ)⁻¹ :=
          (sum_sum_bipartiteAbove_eq_sum_sum_bipartiteBelow r _).symm
      _ ≤ ∑ _b ∈ s, 1 := sum_le_sum hgot
      _ = #s := by rw [sum_const, nsmul_eq_mul, mul_one]
  exact_mod_cast hsum

end DoubleCounting

/-! ## Groups and their sizes -/

namespace EliminationOrder

variable {o : EliminationOrder} {k : Nat} {ms : List BlockId}

theorem WellFormed.groupSize_of_mem (h : o.WellFormed) (hms : (k, ms) ∈ o.groups) :
    o.groupSize k = ms.length := by
  rw [groupSize, members, (Table.find?_eq_some_iff h.grouped.sorted).mpr hms]
  rfl

/-- If no group is larger than an earlier one, the sizes do not increase, and
without gaps group zero is a largest one. -/
theorem WellFormed.groupSizes_descending (h : o.WellFormed)
    {n : Nat} (hkeys : o.groups.keys = List.range n)
    (hle : ∀ s ∈ o.groups, ∀ t ∈ o.groups, s.1 < t.1 → t.2.length ≤ s.2.length) :
    o.groupSizes.Pairwise (· ≥ ·) ∧ ∀ k, o.groupSize k ≤ o.groupSize 0 := by
  have hsorted : o.groups.keys.Pairwise (· < ·) := h.grouped.sorted
  constructor
  · rw [groupSizes, Table.values, List.pairwise_map, List.pairwise_map]
    rw [Table.keys, List.pairwise_map] at hsorted
    exact hsorted.imp_of_mem fun hs ht hlt => hle _ hs _ ht hlt
  · intro k
    cases hfind : o.groups.find? k with
    | none =>
        have hzero : o.groupSize k = 0 := by rw [groupSize, members, hfind]; rfl
        omega
    | some ms =>
        have hms := (Table.find?_eq_some_iff h.grouped.sorted).mp hfind
        have hk : k ∈ o.groups.keys := List.mem_map.mpr ⟨(k, ms), hms, rfl⟩
        have hzero : 0 ∈ o.groups.keys := by
          rw [hkeys, List.mem_range] at hk ⊢
          omega
        obtain ⟨⟨z, first⟩, hfirst, rfl⟩ := List.mem_map.mp hzero
        rw [h.groupSize_of_mem hms, h.groupSize_of_mem hfirst]
        rcases Nat.eq_zero_or_pos k with rfl | hpos
        · rw [h.grouped.sorted.unique hms hfirst]
        · exact hle _ hfirst _ hms hpos

end EliminationOrder

/-! ## Groups that are peeled off -/

namespace Program

variable {α σ : Type} [Scalar α] {g : Program} {p : Problem α σ} {o : EliminationOrder}

/-- Of two blocks that are read together, the one in the earlier group is read
together with no more members of the later group than the other with members of
the earlier one. -/
def Balanced (g : Program) (p : Problem α σ) (o : EliminationOrder) : Prop :=
  ∀ s ∈ o.groups, ∀ t ∈ o.groups, s.1 < t.1 → ∀ a ∈ s.2, ∀ b ∈ t.2, g.shares p a b = true →
    t.2.countP (g.shares p a) ≤ s.2.countP (g.shares p b)

instance : Decidable (g.Balanced p o) := by
  unfold Balanced
  infer_instance

section Partners

variable {s t : List BlockId}

/-- The members of a list that a block is read together with, counted as a
set. -/
theorem card_partners (ht : t.Nodup) (a : BlockId) :
    (t.toFinset.bipartiteAbove (fun a b => g.shares p a b = true) a).card =
      t.countP (g.shares p a) := by
  rw [Finset.bipartiteAbove, ← List.toFinset_filter, List.toFinset_card_of_nodup (ht.filter _),
    List.countP_eq_length_filter]

theorem card_partners_below (hs : s.Nodup) (b : BlockId) :
    (s.toFinset.bipartiteBelow (fun a b => g.shares p a b = true) b).card =
      s.countP (g.shares p b) := by
  rw [← card_partners hs b]
  simp only [Finset.bipartiteBelow, Finset.bipartiteAbove, shares_comm _ b]

theorem exists_shares_toFinset (hcover : ∀ b ∈ t, ∃ a ∈ s, g.shares p a b = true) :
    ∀ b ∈ t.toFinset, ∃ a ∈ s.toFinset, g.shares p a b = true := by
  simpa only [List.mem_toFinset] using hcover

theorem length_le_sum_partners (hs : s.Nodup) (ht : t.Nodup)
    (hcover : ∀ b ∈ t, ∃ a ∈ s, g.shares p a b = true) :
    t.length ≤ (s.map fun a => t.countP (g.shares p a)).sum := by
  have hle := card_le_sum_partners (exists_shares_toFinset hcover)
  rw [List.toFinset_card_of_nodup ht, Finset.sum_congr rfl fun a _ => card_partners ht a,
    List.sum_toFinset _ hs] at hle
  exact hle

theorem length_le_of_balanced (hs : s.Nodup) (ht : t.Nodup)
    (hcover : ∀ b ∈ t, ∃ a ∈ s, g.shares p a b = true)
    (hbalanced : ∀ a ∈ s, ∀ b ∈ t, g.shares p a b = true →
      t.countP (g.shares p a) ≤ s.countP (g.shares p b)) : t.length ≤ s.length := by
  have hle := card_le_card_of_balanced (exists_shares_toFinset hcover) fun a ha b hb hab => by
    rw [card_partners ht, card_partners_below hs]
    exact hbalanced a (List.mem_toFinset.mp ha) b (List.mem_toFinset.mp hb) hab
  rwa [List.toFinset_card_of_nodup ht, List.toFinset_card_of_nodup hs] at hle

end Partners

/-- Every member of a later group is read together with a member of the earlier
one. -/
theorem exists_shares_of_peeled {rest graph : Graph} {last : Nat} (hgraph : g.graph p = .ok graph)
    (hpeeled : Graph.Peeled graph last rest o) {s t : Nat × List BlockId} (hs : s ∈ o.groups)
    (ht : t ∈ o.groups) (hlt : s.1 < t.1) : ∀ b ∈ t.2, ∃ a ∈ s.2, g.shares p a b = true := by
  intro b hb
  have hwf := hpeeled.wellFormed
  have hgroup : o.group? b = some t.1 := hwf.group?_eq_some_iff.mpr ⟨t.2, ht, hb⟩
  obtain ⟨a, ha, hadj⟩ := hpeeled.placed b t.1 s.1 hgroup hlt
  refine ⟨a, (hwf.grouped.inGroup_iff hs).mp (hwf.group?_eq_some_iff.mp ha), ?_⟩
  rw [shares_comm]
  exact (graph_outcome hgraph).2 b a hadj

/-- A later group has at most as many members as there are pairs of one of them
and a member of the earlier group that it is read together with. If reading is
balanced, the sizes of the groups do not increase. -/
theorem peeledOrder_sizes (h : g.peeledOrder p = .ok o) :
    (∀ s ∈ o.groups, ∀ t ∈ o.groups, s.1 < t.1 →
      t.2.length ≤ (s.2.map fun a => t.2.countP (g.shares p a)).sum) ∧
    (g.Balanced p o → o.groupSizes.Pairwise (· ≥ ·) ∧ ∀ k, o.groupSize k ≤ o.groupSize 0) := by
  obtain ⟨graph, hgraph, -⟩ := except_map_eq_ok.mp h
  obtain ⟨last, rest, -, hpeeled, -⟩ := peeled_peeledOrder hgraph h
  have hwf := hpeeled.wellFormed
  have hnodup : ∀ s ∈ o.groups, s.2.Nodup := fun s hs => (hwf.grouped.members s.1 s.2 hs).1.nodup
  constructor
  · intro s hs t ht hlt
    exact length_le_sum_partners (hnodup s hs) (hnodup t ht)
      (exists_shares_of_peeled hgraph hpeeled hs ht hlt)
  · intro hbalanced
    refine hwf.groupSizes_descending hpeeled.keys_eq fun s hs t ht hlt => ?_
    exact length_le_of_balanced (hnodup s hs) (hnodup t ht)
      (exists_shares_of_peeled hgraph hpeeled hs ht hlt) (hbalanced s hs t ht hlt)

/-- The square alone is balanced, and has two groups of two. -/
theorem peeledOrder_sizes_square :
    let g : Program := ⟨[⟨1, 0⟩, ⟨3, 0⟩, ⟨4, 0⟩, ⟨5, 0⟩], [⟨1⟩, ⟨2⟩, ⟨3⟩, ⟨4⟩]⟩
    let o : EliminationOrder :=
      .ofList [(⟨1, 0⟩, 0), (⟨5, 0⟩, 0), (⟨3, 0⟩, 1), (⟨4, 0⟩, 1)]
    g.peeledOrder (Gallery.skewed ℝ) = .ok o ∧ g.Balanced (Gallery.skewed ℝ) o ∧
      o.groupSizes = [2, 2] ∧ o.groupSizes.Pairwise (· ≥ ·) := by
  intro g o
  have hgraph : g.graph (Gallery.skewed ℝ) = .ok
      ⟨[⟨1, 0⟩, ⟨3, 0⟩, ⟨4, 0⟩, ⟨5, 0⟩],
        [(⟨1, 0⟩, [⟨3, 0⟩, ⟨4, 0⟩]), (⟨3, 0⟩, [⟨1, 0⟩, ⟨5, 0⟩]), (⟨4, 0⟩, [⟨1, 0⟩, ⟨5, 0⟩]),
          (⟨5, 0⟩, [⟨3, 0⟩, ⟨4, 0⟩])]⟩ := by rfl
  have ho : g.peeledOrder (Gallery.skewed ℝ) = .ok o := by
    rw [peeledOrder, hgraph]
    unfold o
    cbv
  have hbalanced : g.Balanced (Gallery.skewed ℝ) o := by decide
  exact ⟨ho, hbalanced, rfl, ((peeledOrder_sizes ho).2 hbalanced).1⟩

/-- With the triangle there are two blocks in front of three: the corner of the
square that is in the first group is read together with two of them, which
are read together with no other member of it. -/
theorem not_peeledOrder_sizes_descending :
    (Gallery.skewed ℝ).Reachable ∧
    ∃ o, (ofProblem (Gallery.skewed ℝ)).peeledOrder (Gallery.skewed ℝ) = .ok o ∧
      o.groupSizes = [2, 3, 1] ∧ ¬ o.groupSizes.Pairwise (· ≥ ·) ∧
      o.groupSize 0 < o.groupSize 1 :=
  ⟨Gallery.reachable_skewed, _, Gallery.peeledOrder_skewed, rfl, by decide, by decide⟩

end Program

end LeastSquares
