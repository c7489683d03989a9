import LeastSquares.Proofs.Ascending
import LeastSquares.Solve.Reduction
import Mathlib.Data.Nat.Basic
import Mathlib.Data.List.Nodup

/-!
# Elimination orders agree with themselves

An elimination order is kept twice, by group and by block. Whatever moves
are made, starting from the order without blocks, the two stay in agreement:
a block is listed under a group if and only if it is a member of it, groups
and members are in order, and no group is empty. So an order is a list
without repetitions of the blocks it has, cut into groups.

## Main definitions

* `EliminationOrder.Reachable` — the orders that moves lead to.
* `EliminationOrder.WellFormed` — the agreement.
* `EliminationOrder.Before` — ascending group and, within a group, handle.

## Main results

* `EliminationOrder.Reachable.wellFormed` — moves keep the agreement.
* `EliminationOrder.WellFormed.nodup_toList`,
  `EliminationOrder.WellFormed.length_toList`,
  `EliminationOrder.WellFormed.pairwise_toList` — an order as a list of blocks.
* `EliminationOrder.Grouped.reverse_groups` — what the groups are rebuilt to.
* `EliminationOrder.WellFormed.group?_removeAll` — what is left of the groups
  without some blocks.
-/

namespace LeastSquares

/-! ## The order of handles -/

theorem BlockId.lt_iff {a b : BlockId} :
    a < b ↔ a.slot.toNat < b.slot.toNat ∨
      a.slot = b.slot ∧ a.generation.toNat < b.generation.toNat := Iff.rfl

instance : IsStrictTotalOrder BlockId (· < ·) where
  trichotomous a b hab hba := by
    rw [BlockId.lt_iff] at hab hba
    have hs : a.slot = b.slot := UInt32.toNat_inj.mp (by omega)
    have hg : a.generation = b.generation := by
      simp only [hs, true_and] at hab hba
      exact UInt32.toNat_inj.mp (by omega)
    cases a
    cases b
    simp_all
  irrefl a h := by
    rw [BlockId.lt_iff] at h
    omega
  trans a b c hab hbc := by
    rw [BlockId.lt_iff] at *
    rcases hab with hab | ⟨hs, hab⟩ <;> rcases hbc with hbc | ⟨hs', hbc⟩
    · exact .inl (by omega)
    · exact .inl (hs' ▸ hab)
    · exact .inl (hs ▸ hbc)
    · exact .inr ⟨hs.trans hs', by omega⟩

namespace EliminationOrder

/-! ## Groups -/

/-- The block is a member of the group. -/
def InGroup (groups : Table Nat (List BlockId)) (id : BlockId) (group : Nat) : Prop :=
  ∃ members, (group, members) ∈ groups ∧ id ∈ members

/-- Groups by number, each an ascending set with at least one member. -/
structure Grouped (groups : Table Nat (List BlockId)) : Prop where
  sorted : groups.Sorted
  members : ∀ group ms, (group, ms) ∈ groups → Ascending.Sorted ms ∧ ms ≠ []

variable {groups : Table Nat (List BlockId)} {id x : BlockId} {group g : Nat}

theorem Grouped.inGroup_iff (h : Grouped groups) {ms : List BlockId}
    (hms : (g, ms) ∈ groups) : InGroup groups x g ↔ x ∈ ms := by
  constructor
  · rintro ⟨ms', hms', hx⟩
    rwa [h.sorted.unique hms hms']
  · exact fun hx => ⟨ms, hms, hx⟩

theorem not_inGroup_of_find? (h : groups.Sorted) (hf : groups.find? g = none) :
    ¬ InGroup groups x g := by
  rintro ⟨ms, hms, -⟩
  exact (Table.find?_eq_none_iff h).mp hf ms hms

/-- The members under a group that may not be there. -/
theorem Grouped.mem_getD (h : Grouped groups) :
    x ∈ (groups.find? g).getD [] ↔ InGroup groups x g := by
  cases hf : groups.find? g with
  | none => simpa using not_inGroup_of_find? h.sorted hf
  | some ms =>
      rw [h.inGroup_iff ((Table.find?_eq_some_iff h.sorted).mp hf)]
      rfl

theorem Grouped.sorted_getD (h : Grouped groups) :
    Ascending.Sorted ((groups.find? g).getD []) := by
  cases hf : groups.find? g with
  | none => exact .nil
  | some ms => exact (h.members g ms ((Table.find?_eq_some_iff h.sorted).mp hf)).1

theorem Grouped.joinGroup (h : Grouped groups) : Grouped (joinGroup id group groups) := by
  refine ⟨h.sorted.put _ _, ?_⟩
  intro g ms hms
  rcases (Table.mem_put h.sorted).mp hms with ⟨-, rfl⟩ | ⟨-, hms⟩
  · refine ⟨h.sorted_getD.insert id, ?_⟩
    exact List.ne_nil_of_mem (Ascending.mem_insert.mpr (.inl rfl))
  · exact h.members g ms hms

theorem inGroup_joinGroup (h : Grouped groups) :
    InGroup (joinGroup id group groups) x g ↔ x = id ∧ g = group ∨ InGroup groups x g := by
  constructor
  · rintro ⟨ms, hms, hx⟩
    rcases (Table.mem_put h.sorted).mp hms with ⟨rfl, rfl⟩ | ⟨-, hms⟩
    · exact (Ascending.mem_insert.mp hx).imp (fun hx => ⟨hx, rfl⟩) h.mem_getD.mp
    · exact .inr ⟨ms, hms, hx⟩
  · intro hx
    by_cases hg : g = group
    · subst hg
      refine ⟨_, (Table.mem_put h.sorted).mpr (.inl ⟨rfl, rfl⟩), Ascending.mem_insert.mpr ?_⟩
      exact hx.imp And.left h.mem_getD.mpr
    · obtain ⟨ms, hms, hx⟩ := hx.resolve_left fun hx => hg hx.2
      exact ⟨ms, (Table.mem_put h.sorted).mpr (.inr ⟨hg, hms⟩), hx⟩

theorem Grouped.leaveGroup (h : Grouped groups) : Grouped (leaveGroup id group groups) := by
  unfold EliminationOrder.leaveGroup
  split
  · exact h
  · rename_i ms hf
    have hms := (Table.find?_eq_some_iff h.sorted).mp hf
    dsimp only
    split
    · refine ⟨h.sorted.erase _, fun g ms' hms' => ?_⟩
      exact h.members g ms' ((Table.mem_erase h.sorted).mp hms').2
    · rename_i hEmpty
      refine ⟨h.sorted.put _ _, fun g ms' hms' => ?_⟩
      rcases (Table.mem_put h.sorted).mp hms' with ⟨-, rfl⟩ | ⟨-, hms'⟩
      · exact ⟨(h.members _ ms hms).1.erase id, by simpa using hEmpty⟩
      · exact h.members g ms' hms'

theorem inGroup_leaveGroup (h : Grouped groups) :
    InGroup (leaveGroup id group groups) x g ↔ InGroup groups x g ∧ ¬ (x = id ∧ g = group) := by
  unfold EliminationOrder.leaveGroup
  split
  · rename_i hf
    refine ⟨fun hx => ⟨hx, ?_⟩, And.left⟩
    rintro ⟨rfl, rfl⟩
    exact not_inGroup_of_find? h.sorted hf hx
  · rename_i ms hf
    have hms := (Table.find?_eq_some_iff h.sorted).mp hf
    have herase : ∀ y, y ∈ Ascending.erase id ms ↔ y ≠ id ∧ y ∈ ms := fun y =>
      Ascending.mem_erase (h.members _ ms hms).1
    -- the group itself is settled by its members, every other one is as before
    by_cases hg : g = group
    · subst hg
      rw [h.inGroup_iff hms]
      dsimp only
      split
      · rename_i hEmpty
        constructor
        · rintro ⟨ms', hms', -⟩
          exact absurd rfl ((Table.mem_erase h.sorted).mp hms').1
        · rintro ⟨hx, hne⟩
          have := (herase x).mpr ⟨fun hEq => hne ⟨hEq, rfl⟩, hx⟩
          rw [List.isEmpty_iff.mp hEmpty] at this
          cases this
      · constructor
        · rintro ⟨ms', hms', hx⟩
          rcases (Table.mem_put h.sorted).mp hms' with ⟨-, rfl⟩ | ⟨hne, -⟩
          · exact ⟨((herase x).mp hx).2, fun hEq => ((herase x).mp hx).1 hEq.1⟩
          · exact absurd rfl hne
        · rintro ⟨hx, hne⟩
          refine ⟨_, (Table.mem_put h.sorted).mpr (.inl ⟨rfl, rfl⟩), (herase x).mpr ⟨?_, hx⟩⟩
          exact fun hEq => hne ⟨hEq, rfl⟩
    · have hne : ¬ (x = id ∧ g = group) := fun hEq => hg hEq.2
      simp only [hne, not_false_eq_true, and_true]
      refine exists_congr fun ms' => and_congr_left fun _ => ?_
      split
      · simp [Table.mem_erase h.sorted, hg]
      · simp [Table.mem_put h.sorted, hg]

/-! ## The agreement -/

/-- Both tables are in order and say the same. -/
structure WellFormed (o : EliminationOrder) : Prop where
  grouped : Grouped o.groups
  listed : o.groupOf.Sorted
  agree : ∀ id group, (id, group) ∈ o.groupOf ↔ InGroup o.groups id group

theorem wellFormed_empty : empty.WellFormed where
  grouped := ⟨.nil, by simp [empty]⟩
  listed := .nil
  agree := by simp [empty, InGroup]

variable {o : EliminationOrder}

theorem WellFormed.unlisted (h : o.WellFormed) (hf : o.groupOf.find? id = none) :
    ¬ InGroup o.groups id g :=
  fun hx => (Table.find?_eq_none_iff h.listed).mp hf g ((h.agree id g).mpr hx)

theorem WellFormed.inGroup_iff_of_find? (h : o.WellFormed) {before : Nat}
    (hf : o.groupOf.find? id = some before) : InGroup o.groups id g ↔ g = before := by
  have hb := (Table.find?_eq_some_iff h.listed).mp hf
  rw [← h.agree]
  constructor
  · exact fun hg => h.listed.unique hg hb
  · rintro rfl
    exact hb

/-- After a move a block is in the group it was moved to, and the others are
where they were. -/
theorem WellFormed.inGroup_add (h : o.WellFormed) :
    InGroup (o.add id group).groups x g ↔
      x = id ∧ g = group ∨ x ≠ id ∧ InGroup o.groups x g := by
  have hout : ∀ {P : Prop}, x ≠ id → ((x = id ∧ P ∨ InGroup o.groups x g) ↔
      (x = id ∧ P ∨ x ≠ id ∧ InGroup o.groups x g)) := by
    intro P hx
    simp [hx]
  unfold EliminationOrder.add
  split
  · rename_i hf
    rw [inGroup_joinGroup h.grouped]
    by_cases hx : x = id
    · subst hx
      simp [h.unlisted hf]
    · exact hout hx
  · rename_i before hf
    split
    · rename_i hb
      by_cases hx : x = id
      · subst hx
        simp [h.inGroup_iff_of_find? hf, hb]
      · simp [hx]
    · rw [inGroup_joinGroup h.grouped.leaveGroup, inGroup_leaveGroup h.grouped]
      by_cases hx : x = id
      · subst hx
        simp [h.inGroup_iff_of_find? hf]
      · simp [hx]

theorem WellFormed.add (h : o.WellFormed) (id : BlockId) (group : Nat) :
    (o.add id group).WellFormed := by
  have hput : (o.groupOf.put id group).Sorted := h.listed.put id group
  have hagree : ∀ x g, (x, g) ∈ o.groupOf.put id group ↔
      x = id ∧ g = group ∨ x ≠ id ∧ InGroup o.groups x g := by
    intro x g
    rw [Table.mem_put h.listed, h.agree]
  have hgroups := @WellFormed.inGroup_add id
  unfold EliminationOrder.add at hgroups ⊢
  split
  · rename_i hf
    refine ⟨h.grouped.joinGroup, hput, fun x g => ?_⟩
    have := @hgroups x group g o h
    rw [hf] at this
    rw [hagree, this]
  · rename_i before hf
    split
    · exact h
    · rename_i hb
      refine ⟨h.grouped.leaveGroup.joinGroup, hput, fun x g => ?_⟩
      have := @hgroups x group g o h
      rw [hf] at this
      simp only [hb, if_false] at this
      rw [hagree, this]

theorem WellFormed.inGroup_remove (h : o.WellFormed) :
    InGroup (o.remove id).groups x g ↔ x ≠ id ∧ InGroup o.groups x g := by
  unfold EliminationOrder.remove
  split
  · rename_i hf
    refine ⟨fun hx => ⟨?_, hx⟩, And.right⟩
    rintro rfl
    exact h.unlisted hf hx
  · rename_i before hf
    rw [inGroup_leaveGroup h.grouped]
    by_cases hx : x = id
    · subst hx
      simp [h.inGroup_iff_of_find? hf]
    · simp [hx]

theorem WellFormed.remove (h : o.WellFormed) (id : BlockId) : (o.remove id).WellFormed := by
  have hgroups := @WellFormed.inGroup_remove id
  unfold EliminationOrder.remove at hgroups ⊢
  split
  · exact h
  · rename_i before hf
    refine ⟨h.grouped.leaveGroup, h.listed.erase id, fun x g => ?_⟩
    have := @hgroups x g o h
    rw [hf] at this
    rw [this, Table.mem_erase h.listed, h.agree]

/-! ## Orders as lists -/

theorem mem_toList : x ∈ o.toList ↔ ∃ g, InGroup o.groups x g := by
  simp only [toList, Table.values, List.mem_flatten, List.mem_map]
  constructor
  · rintro ⟨ms, ⟨⟨g, ms'⟩, hms, rfl⟩, hx⟩
    exact ⟨g, ms', hms, hx⟩
  · rintro ⟨g, ms, hms, hx⟩
    exact ⟨ms, ⟨(g, ms), hms, rfl⟩, hx⟩

theorem WellFormed.mem_toList_iff_listed (h : o.WellFormed) :
    x ∈ o.toList ↔ x ∈ o.groupOf.keys := by
  simp only [mem_toList, ← h.agree, Table.keys, List.mem_map, Prod.exists, exists_eq_right,
    exists_and_right]

/-- No block stands twice in an order. -/
theorem WellFormed.nodup_toList (h : o.WellFormed) : o.toList.Nodup := by
  rw [toList, List.nodup_flatten, Table.values]
  constructor
  · intro ms hms
    obtain ⟨⟨g, ms'⟩, hg, rfl⟩ := List.mem_map.mp hms
    exact (h.grouped.members g ms' hg).1.nodup
  · rw [List.pairwise_map]
    refine (List.pairwise_map.mp h.grouped.sorted).imp_of_mem ?_
    rintro ⟨a, ns⟩ ⟨b, ms⟩ ha hb hab x hx hx'
    have := h.listed.unique ((h.agree x a).mpr ⟨ns, ha, hx⟩) ((h.agree x b).mpr ⟨ms, hb, hx'⟩)
    simp only at hab
    omega

theorem WellFormed.length_toList (h : o.WellFormed) : o.toList.length = o.numElements := by
  have hperm : o.toList.Perm o.groupOf.keys :=
    (List.perm_ext_iff_of_nodup h.nodup_toList h.listed.nodup).mpr fun x =>
      h.mem_toList_iff_listed
  rw [hperm.length_eq, Table.keys, List.length_map, numElements]

/-! ## Reversing -/

theorem Grouped.le_lastGroup (h : Grouped o.groups) {ms : List BlockId}
    (hms : (g, ms) ∈ o.groups) : g ≤ o.lastGroup := by
  unfold lastGroup
  obtain ⟨l, ⟨k, ns⟩, hl⟩ := (List.eq_nil_or_concat o.groups).resolve_left (List.ne_nil_of_mem hms)
  have hsorted : Ascending.Sorted (l.map Prod.fst ++ [k]) := by
    have := h.sorted
    rwa [hl, Table.Sorted, Table.keys, List.concat_eq_append, List.map_append] at this
  rw [hl, List.concat_eq_append] at hms ⊢
  simp only [List.getLast?_append, List.getLast?_singleton, Option.some_or, Option.map_some,
    Option.getD_some]
  rcases List.mem_append.mp hms with hms | hms
  · have := (List.pairwise_append.mp hsorted).2.2 g (List.mem_map.mpr ⟨_, hms, rfl⟩) k (by simp)
    omega
  · cases List.mem_singleton.mp hms
    exact Nat.le_refl _

/-- Numbering down and listing backwards cancel out. -/
theorem Grouped.reverse_groups (h : Grouped o.groups) :
    o.reverse.groups = (o.groups.map fun e => (o.lastGroup - e.1, e.2)).reverse := by
  have hpair : o.groups.Pairwise fun a b => a.1 < b.1 := List.pairwise_map.mp h.sorted
  rw [← Table.foldl_put_eq_reverse, List.foldl_map]
  · rfl
  · rw [List.pairwise_map]
    refine hpair.imp_of_mem ?_
    rintro ⟨a, ns⟩ ⟨b, ms⟩ - hb hab
    have := h.le_lastGroup hb
    simp only at hab ⊢
    omega

theorem Grouped.inGroup_reverse (h : Grouped o.groups) :
    InGroup o.reverse.groups x g ↔ ∃ k, InGroup o.groups x k ∧ o.lastGroup - k = g := by
  simp only [InGroup, h.reverse_groups, List.mem_reverse, List.mem_map, Prod.mk.injEq]
  constructor
  · rintro ⟨ms, ⟨⟨k, ns⟩, hk, rfl, rfl⟩, hx⟩
    exact ⟨k, ⟨ns, hk, hx⟩, rfl⟩
  · rintro ⟨k, ⟨ms, hms, hx⟩, rfl⟩
    exact ⟨ms, ⟨(k, ms), hms, rfl, rfl⟩, hx⟩

/-- The blocks of an order with the groups that they have when it is
reversed. -/
def renumbered (o : EliminationOrder) : List (BlockId × Nat) :=
  o.groups.flatMap fun e => e.2.map fun id => (id, o.lastGroup - e.1)

theorem map_fst_renumbered : o.renumbered.map Prod.fst = o.toList := by
  simp [renumbered, toList, Table.values, List.flatMap_def, Function.comp_def]

theorem mem_renumbered :
    (x, g) ∈ o.renumbered ↔ ∃ k, InGroup o.groups x k ∧ o.lastGroup - k = g := by
  simp only [renumbered, InGroup, List.mem_flatMap, List.mem_map, Prod.mk.injEq]
  constructor
  · rintro ⟨⟨k, ms⟩, hms, id, hid, rfl, rfl⟩
    exact ⟨k, ⟨ms, hms, hid⟩, rfl⟩
  · rintro ⟨k, ⟨ms, hms, hx⟩, rfl⟩
    exact ⟨(k, ms), hms, x, hx, rfl, rfl⟩

theorem groupOf_reverse :
    o.reverse.groupOf = o.renumbered.foldl (fun t e => Table.put e.1 e.2 t) [] := by
  simp only [EliminationOrder.reverse, renumbered, List.foldl_flatMap, List.foldl_map]

theorem WellFormed.reverse (h : o.WellFormed) : o.reverse.WellFormed := by
  refine ⟨⟨?_, ?_⟩, ?_, ?_⟩
  · have hpair : o.groups.Pairwise fun a b => a.1 < b.1 := List.pairwise_map.mp h.grouped.sorted
    show (List.map Prod.fst _).Pairwise _
    rw [h.grouped.reverse_groups, List.pairwise_map, List.pairwise_reverse, List.pairwise_map]
    refine hpair.imp_of_mem ?_
    rintro ⟨a, ns⟩ ⟨b, ms⟩ - hb hab
    have := h.grouped.le_lastGroup hb
    simp only at hab ⊢
    omega
  · intro g ms hms
    rw [h.grouped.reverse_groups, List.mem_reverse, List.mem_map] at hms
    obtain ⟨⟨k, ns⟩, hk, heq⟩ := hms
    cases heq
    exact h.grouped.members k ns hk
  · rw [groupOf_reverse]
    exact Table.sorted_foldl_put _ .nil
  · intro id g
    have hnodup : (o.renumbered.map Prod.fst).Nodup := map_fst_renumbered ▸ h.nodup_toList
    have hempty : Table.Sorted ([] : Table BlockId Nat) := .nil
    rw [groupOf_reverse, Table.mem_foldl_put hnodup hempty, mem_renumbered,
      h.grouped.inGroup_reverse]
    simp

/-- The orders that can be built: from the empty one, by moving blocks into
groups and out, and by reversing. -/
inductive Reachable : EliminationOrder → Prop where
  | empty : Reachable empty
  | add {o : EliminationOrder} (h : Reachable o) (id : BlockId) (group : Nat) :
      Reachable (o.add id group)
  | remove {o : EliminationOrder} (h : Reachable o) (id : BlockId) : Reachable (o.remove id)
  | reverse {o : EliminationOrder} (h : Reachable o) : Reachable o.reverse

/-- Every order that can be built agrees with itself. -/
theorem Reachable.wellFormed (h : o.Reachable) : o.WellFormed := by
  induction h with
  | empty => exact wellFormed_empty
  | add _ id group ih => exact ih.add id group
  | remove _ id ih => exact ih.remove id
  | reverse _ ih => exact ih.reverse

/-! ## Groups as they are asked for -/

theorem WellFormed.group?_eq_some_iff (h : o.WellFormed) :
    o.group? id = some group ↔ InGroup o.groups id group := by
  rw [group?, Table.find?_eq_some_iff h.listed, h.agree]

theorem WellFormed.contains_iff (h : o.WellFormed) : o.contains id = true ↔ id ∈ o.toList := by
  rw [contains, Option.isSome_iff_exists, mem_toList]
  exact exists_congr fun _ => h.group?_eq_some_iff

/-- One block stands before the other: in a lower group, or in the same group
with a lower handle. -/
def Before (o : EliminationOrder) (a b : BlockId) : Prop :=
  ∃ k l, o.group? a = some k ∧ o.group? b = some l ∧ (k < l ∨ k = l ∧ a < b)

/-- The list of an order is ascending. -/
theorem WellFormed.pairwise_toList (h : o.WellFormed) : o.toList.Pairwise o.Before := by
  have hgroup : ∀ {g ms}, (g, ms) ∈ o.groups → ∀ x ∈ ms, o.group? x = some g :=
    fun hms x hx => h.group?_eq_some_iff.mpr ⟨_, hms, hx⟩
  rw [toList, List.pairwise_flatten, Table.values]
  constructor
  · intro ms hms
    obtain ⟨⟨g, ms'⟩, hg, rfl⟩ := List.mem_map.mp hms
    refine (h.grouped.members g ms' hg).1.imp_of_mem ?_
    intro a b ha hb hab
    exact ⟨g, g, hgroup hg a ha, hgroup hg b hb, .inr ⟨rfl, hab⟩⟩
  · rw [List.pairwise_map]
    refine (List.pairwise_map.mp h.grouped.sorted).imp_of_mem ?_
    intro ⟨k, ns⟩ ⟨l, ms⟩ hk hl hkl a ha b hb
    exact ⟨k, l, hgroup hk a ha, hgroup hl b hb, .inl hkl⟩

/-! ## Taking blocks out -/

theorem WellFormed.removeAll (h : o.WellFormed) (ids : List BlockId) :
    (o.removeAll ids).WellFormed := by
  induction ids generalizing o with
  | nil => exact h
  | cons id ids ih => exact ih (h.remove id)

/-- What is left of the groups when blocks are taken out. -/
theorem WellFormed.inGroup_removeAll (h : o.WellFormed) {ids : List BlockId} :
    InGroup (o.removeAll ids).groups x g ↔ x ∉ ids ∧ InGroup o.groups x g := by
  induction ids generalizing o with
  | nil => simp [EliminationOrder.removeAll]
  | cons id ids ih =>
      show InGroup ((o.remove id).removeAll ids).groups x g ↔ _
      rw [ih (h.remove id), h.inGroup_remove, List.mem_cons, not_or]
      tauto

/-- Taking blocks out leaves the others in their groups. -/
theorem WellFormed.group?_removeAll (h : o.WellFormed) (ids : List BlockId) (id : BlockId) :
    (o.removeAll ids).group? id = if id ∈ ids then none else o.group? id := by
  apply Option.ext
  intro group
  rw [(h.removeAll ids).group?_eq_some_iff, h.inGroup_removeAll]
  by_cases hid : id ∈ ids
  · simp [hid]
  · simp [hid, h.group?_eq_some_iff]

theorem Reachable.removeAll (h : o.Reachable) (ids : List BlockId) :
    (o.removeAll ids).Reachable := by
  induction ids generalizing o with
  | nil => exact h
  | cons id ids ih => exact ih (h.remove id)

theorem WellFormed.mem_toList_removeAll (h : o.WellFormed) {ids : List BlockId} :
    x ∈ (o.removeAll ids).toList ↔ x ∉ ids ∧ x ∈ o.toList := by
  simp only [mem_toList, h.inGroup_removeAll, exists_and_left]

/-! ## Orders from lists -/

theorem reachable_ofList (l : List (BlockId × Nat)) : (ofList l).Reachable := by
  suffices h : ∀ o : EliminationOrder, o.Reachable →
      (l.foldl (fun o e => o.add e.1 e.2) o).Reachable from h _ .empty
  induction l with
  | nil => exact fun o h => h
  | cons e l ih => exact fun o h => ih _ (h.add e.1 e.2)

/-- An order made of a list puts every block where the list puts it last. -/
theorem inGroup_ofList {l : List (BlockId × Nat)} (hl : (l.map Prod.fst).Nodup) :
    InGroup (ofList l).groups x g ↔ (x, g) ∈ l := by
  suffices h : ∀ o : EliminationOrder, o.WellFormed →
      (InGroup (l.foldl (fun o e => o.add e.1 e.2) o).groups x g ↔
        (x, g) ∈ l ∨ x ∉ l.map Prod.fst ∧ InGroup o.groups x g) by
    rw [ofList, h _ wellFormed_empty]
    simp [empty, InGroup]
  induction l with
  | nil => simp
  | cons e l ih =>
      obtain ⟨id, group⟩ := e
      rw [List.map_cons, List.nodup_cons] at hl
      intro o h
      rw [List.foldl_cons, ih hl.2 _ (h.add id group), h.inGroup_add]
      have hid : ∀ g, (id, g) ∉ l := fun g hg => hl.1 (List.mem_map.mpr ⟨_, hg, rfl⟩)
      by_cases hx : x = id
      · subst hx
        have hl1 := hl.1
        simp only [List.map_cons, List.mem_cons, Prod.mk.injEq, hid, true_and, hl1]
        tauto
      · simp [hx]

theorem inGroup_single {blocks : List BlockId} (h : blocks.Nodup) :
    InGroup (single blocks).groups x g ↔ x ∈ blocks ∧ g = 0 := by
  have hfst : ((blocks.map fun id => (id, 0)).map Prod.fst).Nodup := by
    rw [List.map_map]
    exact (List.map_id blocks).symm ▸ h
  rw [single, inGroup_ofList hfst]
  simp only [List.mem_map, Prod.mk.injEq]
  constructor
  · rintro ⟨id, hid, rfl, rfl⟩
    exact ⟨hid, rfl⟩
  · rintro ⟨hx, rfl⟩
    exact ⟨x, hx, rfl, rfl⟩

end EliminationOrder

end LeastSquares
