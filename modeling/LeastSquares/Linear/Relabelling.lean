import LeastSquares.Linear.Mat

/-!
# Relabellings

A relabelling visits the indices below `n` in another order. It is a list
with the proof that it is a permutation, so whoever solves a relabelled
system and carries the solution back has solved the system itself.

## Main definitions

* `Relabelling` — an order of the indices below `n`.
* `Relabelling.ofList` — a list as a relabelling, checked.
* `Vec.relabel`, `Vec.unlabel`, `Mat.relabel` — the new labels, and back.

## Main results

* `Relabelling.index_label`, `Relabelling.label_index` — labels and indices
  determine each other.
-/

namespace LeastSquares

/-- An order of the indices below `n`: the member at place `i` is the index
that gets the label `i`. -/
structure Relabelling (n : Nat) where
  order : List Nat
  perm : order.Perm (List.range n)
deriving DecidableEq, Repr

namespace Relabelling

variable {n : Nat}

/-- The order that changes nothing. -/
def identity (n : Nat) : Relabelling n := ⟨List.range n, List.Perm.refl _⟩

/-- The order of a list. A list that is not a permutation of the indices
gives way to the identity. -/
def ofList (n : Nat) (l : List Nat) : Relabelling n :=
  if h : l.Perm (List.range n) then ⟨l, h⟩ else identity n

/-- The index with the given label. -/
def index (r : Relabelling n) (label : Nat) : Nat := r.order.getD label 0

/-- The label of the given index. -/
def label (r : Relabelling n) (index : Nat) : Nat := r.order.idxOf index

@[simp] theorem length_order (r : Relabelling n) : r.order.length = n := by
  simpa using r.perm.length_eq

theorem mem_order {r : Relabelling n} {i : Nat} : i ∈ r.order ↔ i < n := by
  rw [r.perm.mem_iff, List.mem_range]

theorem nodup_order (r : Relabelling n) : r.order.Nodup :=
  r.perm.nodup_iff.mpr List.nodup_range

theorem label_lt (r : Relabelling n) {i : Nat} (h : i < n) : r.label i < n := by
  have := List.idxOf_lt_length_of_mem (mem_order.mpr h : i ∈ r.order)
  rwa [length_order] at this

/-- The index with the label of an index is that index. -/
theorem index_label (r : Relabelling n) {i : Nat} (h : i < n) : r.index (r.label i) = i := by
  have hl : r.label i < r.order.length := by
    rw [length_order]
    exact r.label_lt h
  rw [index, List.getD_eq_getElem?_getD, List.getElem?_eq_getElem hl, Option.getD_some]
  exact List.getElem_idxOf hl

theorem index_lt (r : Relabelling n) {k : Nat} (h : k < n) : r.index k < n := by
  have hk : k < r.order.length := by rwa [length_order]
  rw [index, List.getD_eq_getElem?_getD, List.getElem?_eq_getElem hk, Option.getD_some]
  exact mem_order.mp (List.getElem_mem hk)

/-- The label of the index with a label is that label. -/
theorem label_index (r : Relabelling n) {k : Nat} (h : k < n) : r.label (r.index k) = k := by
  have hk : k < r.order.length := by rwa [length_order]
  rw [index, List.getD_eq_getElem?_getD, List.getElem?_eq_getElem hk, Option.getD_some]
  exact r.nodup_order.idxOf_getElem k hk

end Relabelling

variable {α : Type} [Scalar α] {n : Nat}

/-- The vector by the new labels. -/
def Vec.relabel (v : Vec α) (r : Relabelling n) : Vec α := Vec.ofFn n fun i => v.get (r.index i)

/-- The vector by the indices again. -/
def Vec.unlabel (v : Vec α) (r : Relabelling n) : Vec α := Vec.ofFn n fun i => v.get (r.label i)

/-- A symmetric matrix by the new labels. Only its lower triangle is read. -/
def Mat.relabel (a : Mat α) (r : Relabelling n) : Mat α :=
  Mat.ofFn n n fun i j =>
    a.get (Nat.max (r.index i) (r.index j)) (Nat.min (r.index i) (r.index j))

end LeastSquares
