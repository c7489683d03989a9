import LeastSquares.Linear.BlockMatrix
import Mathlib.Algebra.BigOperators.Intervals

/-!
# Indices by blocks

Vectors and matrices of a problem are cut into blocks that lie one after the
other. An index below the total of the sizes is an index within one block, so
a sum over all indices is a sum over the blocks, and the entries of vectors
put one after the other are found at the places of the blocks.

## Main results

* `getElem?_layout` — where the blocks of a layout lie.
* `exists_block_index`, `blockIndex` — an index as an index within a block.
* `range_total` — all indices, block by block.
* `sum_range_total` — a sum over all indices, block by block.
* `getElem?_flatMap`, `Vec.get_concat` — what lists and vectors put one after
  the other hold.
-/

namespace LeastSquares

/-! ## Layouts -/

section Layout

variable {sizes : List Nat} {k n : Nat}

theorem getElem?_layoutFrom (start : Nat) (sizes : List Nat) (k : Nat) :
    (Block.layoutFrom start sizes)[k]? =
      sizes[k]?.map fun n => ⟨n, start + total (sizes.take k)⟩ := by
  induction sizes generalizing start k with
  | nil => rfl
  | cons m sizes ih =>
      cases k with
      | zero => rfl
      | succ k =>
          rw [Block.layoutFrom, List.getElem?_cons_succ, List.getElem?_cons_succ, ih,
            List.take_succ_cons, total_cons, Nat.add_assoc]

/-- A block starts where the blocks before it end. -/
theorem getElem?_layout (sizes : List Nat) (k : Nat) :
    (Block.layout sizes)[k]? = sizes[k]?.map fun n => ⟨n, total (sizes.take k)⟩ := by
  rw [Block.layout, getElem?_layoutFrom, Nat.zero_add]

theorem map_size_layout (sizes : List Nat) : (Block.layout sizes).map Block.size = sizes := by
  apply List.ext_getElem?
  intro k
  rw [List.getElem?_map, getElem?_layout, Option.map_map]
  exact congrFun Option.map_id sizes[k]?

theorem length_layout (sizes : List Nat) : (Block.layout sizes).length = sizes.length := by
  rw [← List.length_map, map_size_layout]

theorem total_take_succ {l : List Nat} {k n : Nat} (h : l[k]? = some n) :
    total (l.take (k + 1)) = total (l.take k) + n := by
  rw [List.take_add_one, h, total_append]
  rfl

/-- A block ends before the total. -/
theorem total_take_add_le (h : sizes[k]? = some n) : total (sizes.take k) + n ≤ total sizes := by
  have hsplit : total sizes = total (sizes.take k) + total (sizes.drop k) := by
    rw [← total_append, List.take_append_drop]
  obtain ⟨hk, rfl⟩ := List.getElem?_eq_some_iff.mp h
  rw [hsplit, List.drop_eq_getElem_cons hk, total_cons]
  omega

/-- An index below the total lies in a block. -/
theorem exists_block_index {sizes : List Nat} {p : Nat} (h : p < total sizes) :
    ∃ k n, sizes[k]? = some n ∧ ∃ i < n, p = total (sizes.take k) + i := by
  induction sizes generalizing p with
  | nil => cases h
  | cons m sizes ih =>
      by_cases hp : p < m
      · exact ⟨0, m, rfl, p, hp, (Nat.zero_add p).symm⟩
      · rw [total_cons] at h
        have hrest : p - m < total sizes := by omega
        obtain ⟨k, n, hk, i, hi, hpi⟩ := ih hrest
        refine ⟨k + 1, n, hk, i, hi, ?_⟩
        rw [List.take_succ_cons, total_cons]
        omega

theorem map_range_total_from (start : Nat) (sizes : List Nat) :
    (List.range (total sizes)).map (start + ·) = (Block.layoutFrom start sizes).flatMap fun b =>
      (List.range b.size).map (b.position + ·) := by
  induction sizes generalizing start with
  | nil => rfl
  | cons n sizes ih =>
      rw [Block.layoutFrom, List.flatMap_cons, ← ih, total_cons, List.range_add, List.map_append,
        List.map_map]
      simp only [Function.comp_def, Nat.add_assoc]

/-- All indices, block by block. -/
theorem range_total (sizes : List Nat) :
    List.range (total sizes) = (Block.layout sizes).flatMap fun b =>
      (List.range b.size).map (b.position + ·) := by
  rw [Block.layout, ← map_range_total_from]
  simp only [Nat.zero_add, List.map_id']

/-- Indices in blocks that start at different places differ. -/
theorem block_index_inj {k l i j m : Nat} (hk : sizes[k]? = some n) (hl : sizes[l]? = some m)
    (hi : i < n) (hj : j < m) (h : total (sizes.take k) + i = total (sizes.take l) + j) :
    k = l ∧ i = j := by
  induction sizes generalizing k l with
  | nil => cases hk
  | cons s sizes ih =>
      cases k with
      | zero =>
          cases hk
          cases l with
          | zero => exact ⟨rfl, by simpa using h⟩
          | succ l =>
              rw [List.take_succ_cons, total_cons] at h
              simp only [List.take_zero, total_nil] at h
              omega
      | succ k =>
          cases l with
          | zero =>
              cases hl
              rw [List.take_succ_cons, total_cons] at h
              simp only [List.take_zero, total_nil] at h
              omega
          | succ l =>
              rw [List.take_succ_cons, List.take_succ_cons, total_cons, total_cons] at h
              obtain ⟨rfl, hij⟩ := ih hk hl (by omega)
              exact ⟨rfl, hij⟩

/-- The indices within the blocks, one block after the other. -/
noncomputable def blockIndex {sizes : List Nat} {n : Nat} (width : Nat → Nat)
    (hn : sizes.length = n) (hwidth : ∀ k < n, sizes[k]? = some (width k)) :
    (Σ k : Fin n, Fin (width k)) ≃ Fin (total sizes) :=
  Equiv.ofBijective
    (fun x => ⟨total (sizes.take x.1) + x.2, Nat.lt_of_lt_of_le (Nat.add_lt_add_left x.2.isLt _)
      (total_take_add_le (hwidth x.1 x.1.isLt))⟩) <| by
    constructor
    · rintro ⟨k, i⟩ ⟨l, j⟩ h
      obtain ⟨hkl, hij⟩ := block_index_inj (hwidth k k.isLt) (hwidth l l.isLt) i.isLt j.isLt
        (congrArg Fin.val h)
      obtain rfl : k = l := Fin.ext hkl
      exact congrArg _ (Fin.ext hij)
    · rintro ⟨p, hp⟩
      obtain ⟨k, m, hk, i, hi, rfl⟩ := exists_block_index hp
      have hkn : k < n := hn ▸ (List.getElem?_eq_some_iff.mp hk).1
      rw [hwidth k hkn] at hk
      cases hk
      exact ⟨⟨⟨k, hkn⟩, ⟨i, hi⟩⟩, rfl⟩

end Layout

/-! ## Sums -/

section Sums

variable {M : Type} [AddCommMonoid M]

theorem sum_range_total_from (start : Nat) (sizes : List Nat) (f : Nat → M) :
    ∑ p ∈ Finset.range (total sizes), f (start + p) =
      ((Block.layoutFrom start sizes).map fun b =>
        ∑ i ∈ Finset.range b.size, f (b.position + i)).sum := by
  induction sizes generalizing start with
  | nil => rfl
  | cons n sizes ih =>
      rw [Block.layoutFrom, List.map_cons, List.sum_cons, ← ih, total_cons,
        Finset.sum_range_add]
      simp only [Nat.add_assoc]

/-- A sum over all indices is a sum over the blocks. -/
theorem sum_range_total (sizes : List Nat) (f : Nat → M) :
    ∑ p ∈ Finset.range (total sizes), f p =
      ((Block.layout sizes).map fun b =>
        ∑ i ∈ Finset.range b.size, f (b.position + i)).sum := by
  rw [Block.layout, ← sum_range_total_from]
  simp only [Nat.zero_add]

end Sums

/-! ## Lists and vectors one after the other -/

/-- The members of lists put one after the other. -/
theorem getElem?_flatMap {β γ : Type} {l : List β} {f : β → List γ} {k i : Nat} {b : β}
    (h : l[k]? = some b) (hi : i < (f b).length) :
    (l.flatMap f)[total ((l.take k).map fun b => (f b).length) + i]? = (f b)[i]? := by
  induction l generalizing k with
  | nil => cases h
  | cons c l ih =>
      rw [List.flatMap_cons]
      cases k with
      | zero =>
          cases h
          rw [List.take_zero, List.map_nil, total_nil, Nat.zero_add, List.getElem?_append_left hi]
      | succ k =>
          rw [List.take_succ_cons, List.map_cons, total_cons, Nat.add_assoc,
            List.getElem?_append_right (Nat.le_add_right _ _), Nat.add_sub_cancel_left, ih h]

namespace Vec

variable {α : Type} {vs : List (Vec α)}

@[simp] theorem size_concat (vs : List (Vec α)) : (concat vs).size = total (vs.map size) := by
  rw [concat, size_ofList]
  induction vs with
  | nil => rfl
  | cons v vs ih =>
      rw [List.flatMap_cons, List.length_append, ih, length_toList, List.map_cons, total_cons]

variable [Scalar α]

theorem get_eq_of_getElem? {u v : Vec α} {i j : Nat} (h : u.toList[i]? = v.toList[j]?) :
    u.get i = v.get j := by
  simp only [toList, Array.getElem?_toList] at h
  rw [get, get, Array.getD_eq_getD_getElem?, Array.getD_eq_getD_getElem?, h]

/-- The entries of vectors put one after the other. -/
theorem get_concat {k i : Nat} {v : Vec α} (h : vs[k]? = some v) (hi : i < v.size) :
    (concat vs).get (total ((vs.take k).map size) + i) = v.get i := by
  apply get_eq_of_getElem?
  rw [← length_toList] at hi
  simp only [← getElem?_flatMap h hi, length_toList]
  rfl

omit [Scalar α] in
/-- The sizes of vectors that are made from the blocks of a list. -/
theorem map_size_mapIdx {β : Type} {l : List β} {f : Nat → β → Vec α} {n : β → Nat}
    (hn : ∀ k b, l[k]? = some b → (f k b).size = n b) : (l.mapIdx f).map size = l.map n := by
  apply List.ext_getElem?
  intro m
  rw [List.getElem?_map, List.getElem?_mapIdx, List.getElem?_map, Option.map_map]
  cases hm : l[m]? with
  | none => rfl
  | some c => exact congrArg some (hn m c hm)

/-- The entries of such vectors put one after the other. -/
theorem get_concat_mapIdx {β : Type} {l : List β} {f : Nat → β → Vec α} {n : β → Nat}
    (hn : ∀ k b, l[k]? = some b → (f k b).size = n b) {k i : Nat} {b : β} (hb : l[k]? = some b)
    (hi : i < n b) :
    (concat (l.mapIdx f)).get (total ((l.take k).map n) + i) = (f k b).get i := by
  have hget : (l.mapIdx f)[k]? = some (f k b) := by
    rw [List.getElem?_mapIdx, hb, Option.map_some]
  rw [List.map_take, ← map_size_mapIdx hn, ← List.map_take, get_concat hget (hn k b hb ▸ hi)]

/-- The part of a concatenation at the place of one of its vectors. -/
theorem slice_concat {k : Nat} {v : Vec α} (h : vs[k]? = some v) :
    (concat vs).slice (total ((vs.take k).map size)) v.size = v := by
  apply ext_get (size_slice _ _ _)
  intro i hi
  rw [size_slice] at hi
  rw [slice, get_ofFn_of_lt _ hi, get_concat h hi]

end Vec

/-- The entries of a matrix that is put together from blocks of rows. -/
theorem Mat.get_flatMap_rows {α β : Type} [Scalar α] {l : List β} (size : β → Nat)
    {rowOf : β → Nat → Vec α} {k i : Nat} {b : β} (h : l[k]? = some b) (hi : i < size b)
    (m n j : Nat) :
    (Mat.mk m n (l.flatMap fun b => (List.range (size b)).map fun i =>
      (rowOf b i).entries).toArray).get (total ((l.take k).map size) + i) j =
        (rowOf b i).get j := by
  have hlen : ∀ b, ((List.range (size b)).map fun i => (rowOf b i).entries).length = size b :=
    fun b => by rw [List.length_map, List.length_range]
  have hrow : (l.flatMap fun b => (List.range (size b)).map fun i => (rowOf b i).entries)[
      total ((l.take k).map size) + i]? = some (rowOf b i).entries := by
    have h := getElem?_flatMap (f := fun b => (List.range (size b)).map fun i =>
      (rowOf b i).entries) h (i := i) (by rwa [hlen])
    simp only [hlen, List.getElem?_map, List.getElem?_range hi, Option.map_some] at h
    exact h
  refine congrArg (Array.getD · j 0) ?_
  rw [Array.getD_eq_getD_getElem?, List.getElem?_toArray, hrow, Option.getD_some]

end LeastSquares
