import LeastSquares.Ascending
import LeastSquares.Problem.Handle

/-!
# Elimination orders

An elimination order divides parameter blocks into numbered groups. Groups
of lower number come first: a Schur solver eliminates the first group, and
inner iterations visit the groups in turn. Within a group blocks stand in
the order of their handles.

The division is kept twice, by group and by block. No group is ever empty.

## Main definitions

* `EliminationOrder.add`, `EliminationOrder.remove` — moving a block into a
  group and out of the order.
* `EliminationOrder.reverse` — the groups in opposite order.
-/

namespace LeastSquares

/-- Parameter blocks in numbered groups. -/
structure EliminationOrder where
  groups : Table Nat (List BlockId) := []
  groupOf : Table BlockId Nat := []
deriving DecidableEq, Repr, Inhabited

namespace EliminationOrder

/-- The order without blocks. -/
def empty : EliminationOrder := {}

/-- Groups without a block of one of them. A group left empty is dropped. -/
def leaveGroup (id : BlockId) (group : Nat) (groups : Table Nat (List BlockId)) :
    Table Nat (List BlockId) :=
  match groups.find? group with
  | none => groups
  | some members =>
      let members := Ascending.erase id members
      if members.isEmpty then groups.erase group else groups.put group members

/-- Groups with a block added to one of them. -/
def joinGroup (id : BlockId) (group : Nat) (groups : Table Nat (List BlockId)) :
    Table Nat (List BlockId) :=
  groups.put group (Ascending.insert id ((groups.find? group).getD []))

/-- Places a block in a group, out of the one it was in. -/
def add (o : EliminationOrder) (id : BlockId) (group : Nat) : EliminationOrder :=
  match o.groupOf.find? id with
  | none => ⟨joinGroup id group o.groups, o.groupOf.put id group⟩
  | some before =>
      if before = group then o
      else ⟨joinGroup id group (leaveGroup id before o.groups), o.groupOf.put id group⟩

/-- Whether a block is in the order. -/
def contains (o : EliminationOrder) (id : BlockId) : Bool := (o.groupOf.find? id).isSome

/-- Takes a block out of the order. -/
def remove (o : EliminationOrder) (id : BlockId) : EliminationOrder :=
  match o.groupOf.find? id with
  | none => o
  | some group => ⟨leaveGroup id group o.groups, o.groupOf.erase id⟩

/-- The highest group number, zero for the empty order. -/
def lastGroup (o : EliminationOrder) : Nat := (o.groups.getLast?.map Prod.fst).getD 0

/-- The groups in opposite order, numbered down from the highest number. Both
tables are made anew from the groups. -/
def reverse (o : EliminationOrder) : EliminationOrder :=
  ⟨o.groups.foldl (fun t (g, members) => t.put (o.lastGroup - g) members) [],
    o.groups.foldl
      (fun t (g, members) => members.foldl (fun t id => t.put id (o.lastGroup - g)) t) []⟩

/-- The group of a block. -/
def group? (o : EliminationOrder) (id : BlockId) : Option Nat := o.groupOf.find? id

/-- Number of groups. -/
def numGroups (o : EliminationOrder) : Nat := o.groups.length

/-- Number of blocks. -/
def numElements (o : EliminationOrder) : Nat := o.groupOf.length

/-- The blocks of a group. -/
def members (o : EliminationOrder) (group : Nat) : List BlockId := (o.groups.find? group).getD []

/-- Number of blocks in a group. -/
def groupSize (o : EliminationOrder) (group : Nat) : Nat := (o.members group).length

/-- Number of blocks in the first group. -/
def firstGroupSize (o : EliminationOrder) : Nat := (o.groups.head?.map fun g => g.2.length).getD 0

/-- Sizes of the groups in order. -/
def groupSizes (o : EliminationOrder) : List Nat := o.groups.values.map List.length

/-- The blocks in order: group by group, and by handle within a group. -/
def toList (o : EliminationOrder) : List BlockId := o.groups.values.flatten

/-- The order of a list of blocks with their groups. -/
def ofList (l : List (BlockId × Nat)) : EliminationOrder :=
  l.foldl (fun o (id, group) => o.add id group) empty

/-- All blocks in one group. -/
def single (blocks : List BlockId) : EliminationOrder := ofList (blocks.map fun id => (id, 0))

end EliminationOrder

end LeastSquares
