import LeastSquares.Proofs.EliminationOrder
import Mathlib.Data.List.Induction

/-!
# Moves between groups

An elimination order is what a list of moves makes of the order without
blocks: a block is placed in a group, a block is taken out, the groups are
reversed. Where a block ends up is decided by the last move that names it.
If it was placed in a group, it stays with that group whatever happens to
other blocks; a reversal only gives the group another number.

## Main definitions

* `EliminationOrder.Move`, `EliminationOrder.after` — moves and the order
  that they lead to.
* `EliminationOrder.carried` — the number of a group after further moves.

## Main results

* `EliminationOrder.group?_moves` — a block that is not named stays with its
  group.
* `EliminationOrder.values_reverse` — reversing turns the list of groups
  around.
* `EliminationOrder.after_outcome` — the two tables and the last move.
-/

namespace LeastSquares

namespace EliminationOrder

variable {o : EliminationOrder} {id : BlockId} {group : Nat} {m : Move} {later : List Move}

/-- A change of an order. -/
inductive Move where
  | add (id : BlockId) (group : Nat)
  | remove (id : BlockId)
  | reverse
deriving DecidableEq, Repr

/-- The block that a move names. -/
def Move.block? : Move → Option BlockId
  | .add id _ => some id
  | .remove id => some id
  | .reverse => none

/-- An order after a move. -/
def move (o : EliminationOrder) : Move → EliminationOrder
  | .add id group => o.add id group
  | .remove id => o.remove id
  | .reverse => o.reverse

/-- An order after several moves. -/
def moves (o : EliminationOrder) (ms : List Move) : EliminationOrder := ms.foldl move o

/-- The order that moves lead to, from the order without blocks on. -/
def after (ms : List Move) : EliminationOrder := empty.moves ms

/-- The number of a group after a move. -/
def numberAfter (o : EliminationOrder) (group : Nat) : Move → Nat
  | .add _ _ => group
  | .remove _ => group
  | .reverse => o.lastGroup - group

/-- The number of a group after several moves: every reversal counts it down
from the highest number of its time. -/
def carried (o : EliminationOrder) (group : Nat) : List Move → Nat
  | [] => group
  | m :: later => carried (o.move m) (o.numberAfter group m) later

/-- Only reversals give a group another number. -/
theorem carried_of_not_reversed (h : Move.reverse ∉ later) : carried o group later = group := by
  induction later generalizing o group with
  | nil => rfl
  | cons m later ih =>
      rw [List.mem_cons, not_or] at h
      rw [carried, ih h.2]
      cases m with
      | add => rfl
      | remove => rfl
      | reverse => exact absurd rfl h.1

/-! ## One move -/

theorem WellFormed.move (h : o.WellFormed) (m : Move) : (o.move m).WellFormed := by
  cases m with
  | add id group => exact h.add id group
  | remove id => exact h.remove id
  | reverse => exact h.reverse

theorem WellFormed.group?_add_self (h : o.WellFormed) : (o.add id group).group? id = some group := by
  rw [(h.add id group).group?_eq_some_iff, h.inGroup_add]
  exact .inl ⟨rfl, rfl⟩

theorem WellFormed.group?_remove_self (h : o.WellFormed) : (o.remove id).group? id = none := by
  rw [Option.eq_none_iff_forall_ne_some]
  intro group hgroup
  rw [(h.remove id).group?_eq_some_iff, h.inGroup_remove] at hgroup
  exact hgroup.1 rfl

theorem WellFormed.group?_reverse (h : o.WellFormed) :
    o.reverse.group? id = (o.group? id).map (o.lastGroup - ·) := by
  ext group
  simp only [h.reverse.group?_eq_some_iff, h.grouped.inGroup_reverse, Option.map_eq_some_iff,
    h.group?_eq_some_iff]

/-- A move leaves the blocks that it does not name with their groups. -/
theorem WellFormed.group?_move (h : o.WellFormed) (hm : m.block? ≠ some id) :
    (o.move m).group? id = (o.group? id).map (o.numberAfter · m) := by
  cases m with
  | add x k =>
      have hx : id ≠ x := fun heq => hm (congrArg some heq.symm)
      ext group
      simp [EliminationOrder.move, numberAfter, (h.add x k).group?_eq_some_iff, h.inGroup_add, hx,
        h.group?_eq_some_iff]
  | remove x =>
      have hx : id ≠ x := fun heq => hm (congrArg some heq.symm)
      ext group
      simp [EliminationOrder.move, numberAfter, (h.remove x).group?_eq_some_iff, h.inGroup_remove,
        hx, h.group?_eq_some_iff]
  | reverse => exact h.group?_reverse

/-! ## Many moves -/

theorem WellFormed.moves (h : o.WellFormed) (ms : List Move) : (o.moves ms).WellFormed := by
  induction ms generalizing o with
  | nil => exact h
  | cons m ms ih => exact ih (h.move m)

theorem wellFormed_after (ms : List Move) : (after ms).WellFormed := wellFormed_empty.moves ms

theorem after_append (before later : List Move) :
    after (before ++ later) = (after before).moves later := List.foldl_append

/-- Moves from the order without blocks lead to all orders that can be built. -/
theorem reachable_iff_exists_after : o.Reachable ↔ ∃ ms, after ms = o := by
  constructor
  · intro h
    induction h with
    | empty => exact ⟨[], rfl⟩
    | add _ id group ih =>
        obtain ⟨ms, rfl⟩ := ih
        exact ⟨ms ++ [.add id group], after_append ms _⟩
    | remove _ id ih =>
        obtain ⟨ms, rfl⟩ := ih
        exact ⟨ms ++ [.remove id], after_append ms _⟩
    | reverse _ ih =>
        obtain ⟨ms, rfl⟩ := ih
        exact ⟨ms ++ [.reverse], after_append ms _⟩
  · rintro ⟨ms, rfl⟩
    induction ms using List.reverseRecOn with
    | nil => exact .empty
    | append_singleton ms m ih =>
        rw [after_append]
        cases m with
        | add id group => exact ih.add id group
        | remove id => exact ih.remove id
        | reverse => exact ih.reverse

/-- Moves leave the blocks that none of them names with their groups. -/
theorem WellFormed.group?_moves (h : o.WellFormed) (hlater : ∀ m ∈ later, m.block? ≠ some id) :
    (o.moves later).group? id = (o.group? id).map (carried o · later) := by
  induction later generalizing o with
  | nil => exact Option.map_id'.symm
  | cons m later ih =>
      obtain ⟨hm, hlater⟩ := List.forall_mem_cons.mp hlater
      show ((o.move m).moves later).group? id = _
      rw [ih (h.move m) hlater, h.group?_move hm, Option.map_map]
      rfl

/-- A block is where it was placed last. -/
theorem group?_after_add (before : List Move) (group : Nat)
    (hlater : ∀ m ∈ later, m.block? ≠ some id) :
    (after (before ++ .add id group :: later)).group? id =
      some (carried (after (before ++ [.add id group])) group later) := by
  have hsplit : before ++ .add id group :: later = (before ++ [.add id group]) ++ later := by simp
  rw [hsplit, after_append, (wellFormed_after _).group?_moves hlater, after_append]
  show (((after before).add id group).group? id).map _ = _
  rw [(wellFormed_after before).group?_add_self]
  rfl

/-- A block that was taken out last is in no group. -/
theorem group?_after_remove (before : List Move) (hlater : ∀ m ∈ later, m.block? ≠ some id) :
    (after (before ++ .remove id :: later)).group? id = none := by
  have hsplit : before ++ .remove id :: later = (before ++ [.remove id]) ++ later := by simp
  rw [hsplit, after_append, (wellFormed_after _).group?_moves hlater, after_append]
  show (((after before).remove id).group? id).map _ = _
  rw [(wellFormed_after before).group?_remove_self]
  rfl

/-- A block that was never named is in no group. -/
theorem group?_after_unnamed (hms : ∀ m ∈ later, m.block? ≠ some id) :
    (after later).group? id = none := wellFormed_empty.group?_moves hms

/-! ## The groups in ascending order -/

/-- Reversing turns the list of groups around. -/
theorem Grouped.values_reverse (h : Grouped o.groups) :
    o.reverse.groups.values = o.groups.values.reverse := by
  rw [h.reverse_groups, Table.values, Table.values, List.map_reverse, List.map_map]
  rfl

theorem WellFormed.contains_reverse (h : o.WellFormed) :
    o.reverse.contains id = o.contains id := by
  have hgroup : o.reverse.group? id = (o.group? id).map (o.lastGroup - ·) := h.group?_reverse
  rw [group?, group?] at hgroup
  rw [contains, contains, hgroup, Option.isSome_map]

theorem WellFormed.mem_members_iff (h : o.WellFormed) :
    id ∈ o.members group ↔ o.group? id = some group := by
  rw [members, h.grouped.mem_getD, h.group?_eq_some_iff]

/-- What holds after any moves. The two tables say the same, no group is empty
and no block is in two groups. The last move that names a block decides: the
block is in the group where it was placed, which only reversals renumber, or
in none. Reversing keeps the blocks and turns the list of groups around. -/
theorem after_outcome (ms : List Move) :
    (∀ id k, id ∈ (after ms).members k ↔ (after ms).group? id = some k) ∧
    (∀ k members, (k, members) ∈ (after ms).groups → members ≠ []) ∧
    (∀ id k l, id ∈ (after ms).members k → id ∈ (after ms).members l → k = l) ∧
    (∀ before id k later, ms = before ++ .add id k :: later →
      (∀ m ∈ later, m.block? ≠ some id) →
        (after ms).group? id = some (carried (after (before ++ [.add id k])) k later) ∧
        (.reverse ∉ later → (after ms).group? id = some k)) ∧
    (∀ before id later, ms = before ++ .remove id :: later →
      (∀ m ∈ later, m.block? ≠ some id) → (after ms).group? id = none) ∧
    (∀ id, (∀ m ∈ ms, m.block? ≠ some id) → (after ms).group? id = none) ∧
    (∀ id, (after ms).reverse.contains id = (after ms).contains id) ∧
    (after ms).groups.keys.Pairwise (· < ·) ∧
    (after ms).reverse.groups.keys.Pairwise (· < ·) ∧
    (after ms).reverse.groups.values = (after ms).groups.values.reverse := by
  have h := wellFormed_after ms
  refine ⟨fun id k => h.mem_members_iff, fun k members hk => (h.grouped.members k members hk).2,
    ?_, ?_, ?_, fun id hms => group?_after_unnamed hms, fun id => h.contains_reverse,
    h.grouped.sorted, h.reverse.grouped.sorted, h.grouped.values_reverse⟩
  · intro id k l hk hl
    rw [h.mem_members_iff] at hk hl
    exact Option.some.inj (hk.symm.trans hl)
  · rintro before id k later rfl hlater
    have hplaced := group?_after_add before k hlater
    refine ⟨hplaced, fun hforward => ?_⟩
    rw [hplaced, carried_of_not_reversed hforward]
  · rintro before id later rfl hlater
    exact group?_after_remove before hlater

/-- A block that was moved into the highest group before the reversal is in
group zero, alone after the other one was taken out. -/
theorem after_outcome_moved :
    let o := after [.add ⟨0, 0⟩ 2, .add ⟨1, 0⟩ 5, .add ⟨0, 0⟩ 5, .reverse, .remove ⟨1, 0⟩]
    o.group? ⟨0, 0⟩ = some 0 ∧ o.group? ⟨1, 0⟩ = none ∧ ⟨0, 0⟩ ∈ o.members 0 ∧
      o.reverse.groups.values = o.groups.values.reverse := by
  intro o
  obtain ⟨hmembers, -, -, hadd, hremove, -, -, -, -, hreverse⟩ := after_outcome
    [.add ⟨0, 0⟩ 2, .add ⟨1, 0⟩ 5, .add ⟨0, 0⟩ 5, .reverse, .remove ⟨1, 0⟩]
  have hplaced : o.group? ⟨0, 0⟩ = some 0 :=
    (hadd [.add ⟨0, 0⟩ 2, .add ⟨1, 0⟩ 5] ⟨0, 0⟩ 5 [.reverse, .remove ⟨1, 0⟩] rfl (by decide)).1
  have hgone : o.group? ⟨1, 0⟩ = none :=
    hremove [.add ⟨0, 0⟩ 2, .add ⟨1, 0⟩ 5, .add ⟨0, 0⟩ 5, .reverse] ⟨1, 0⟩ [] rfl (by decide)
  exact ⟨hplaced, hgone, (hmembers ⟨0, 0⟩ 0).mpr hplaced, hreverse⟩

/-- Two reversals count the lowest group down to zero. -/
example : (after [.add ⟨0, 0⟩ 1, .add ⟨1, 0⟩ 4, .reverse, .reverse]).groups =
    [(0, [⟨0, 0⟩]), (3, [⟨1, 0⟩])] := by decide

end EliminationOrder

end LeastSquares
