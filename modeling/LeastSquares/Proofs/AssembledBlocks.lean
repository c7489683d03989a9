import LeastSquares.Proofs.EliminationWalk

/-!
# Matrices assembled from a table of blocks

A table of blocks is assembled into a matrix by copying every block to where its
block row and its block column meet, or by listing the entries of the blocks with
their rows and columns. Blocks at different places do not overlap, so an entry of
the matrix is the entry of one block, or zero where no block lies, and the list
names no place twice.

## Main definitions

* `Elimination.Places` — the blocks of a table have the shapes of their places.
* `sumAt` — the sum of the listed entries at one place.

## Main results

* `Elimination.Places.get_assembleDense` — the copied blocks.
* `Elimination.Places.nodup_positions`, `Elimination.Places.sumAt_assembleSparse`
  — the listed entries.
-/

namespace LeastSquares

variable {α : Type} [Scalar α]

namespace Elimination

variable {s : Elimination α} {t : ReducedBlocks α} {key : BlockKey} {m : Mat α} {b c : Block}
  {k l i j : Nat}

/-- The blocks of a table have the shapes of their places. -/
structure Places (s : Elimination α) (t : ReducedBlocks α) : Prop where
  sorted : t.Sorted
  shapes : ∀ key m, (key, m) ∈ t → ∃ b c, s.remaining[key.row]? = some b ∧
    s.remaining[key.column]? = some c ∧ m.rows = b.size ∧ m.cols = c.size

omit [Scalar α] in
theorem Places.nodup (ht : s.Places t) : (t.map Prod.fst).Nodup := Ascending.Sorted.nodup ht.sorted

/-! ## The gathered blocks -/

section Gathered

variable {row : BlockRow α} {e : EliminatedBlock α}

omit [Scalar α] in
theorem Regular.exists_of_remainingCell? (hs : s.Regular) (hrow : row ∈ s.matrix.rows)
    (hm : s.remainingCell? row k = some m) :
    ∃ b, s.remaining[k]? = some b ∧ m.cols = b.size := by
  obtain ⟨b, hb, -, hcols⟩ := hs.matrix.shapes row hrow _ (BlockRow.mem_of_cell? hm)
  exact ⟨_, getElem?_remaining hb, hcols⟩

omit [Scalar α] in
theorem Regular.exists_of_coupling? (hs : s.Regular) (he : e ∈ s.eliminated)
    (hm : e.coupling? k = some m) : ∃ b, s.remaining[k]? = some b ∧ m.cols = b.size := by
  obtain ⟨p, hp, rfl⟩ := Option.map_eq_some_iff.mp hm
  have hk : p.1 = k := eq_of_beq (List.find?_some (p := fun c : Nat × Mat α => c.1 == k) hp)
  obtain ⟨b, hb, hcols⟩ := hs.fits e he p (List.mem_of_find?_eq_some hp)
  exact ⟨b, hk ▸ hb, hcols⟩

/-- A block of the reduced matrix has the shape of its place. -/
theorem Regular.shape_reducedBlock? (hs : s.Regular) (h : s.reducedBlock? k l = some m) :
    ∃ b c, s.remaining[k]? = some b ∧ s.remaining[l]? = some c ∧
      m.rows = b.size ∧ m.cols = c.size := by
  obtain ⟨m', hm', hrows, hcols⟩ := shape_of_sumMats h
  rw [hrows, hcols]
  rcases List.mem_append.mp hm' with hm' | hthrough
  · rcases List.mem_append.mp hm' with hdiagonal | hdirect
    · split at hdiagonal
      · rename_i hkl
        subst hkl
        cases hb : s.remaining[k]? with
        | none =>
            rw [hb] at hdiagonal
            cases hdiagonal
        | some b =>
            rw [hb] at hdiagonal
            cases List.mem_singleton.mp hdiagonal
            exact ⟨b, b, rfl, rfl, Vec.size_slice _ _ _, Vec.size_slice _ _ _⟩
      · cases hdiagonal
    · obtain ⟨row, hrow, hterm⟩ := List.mem_filterMap.mp hdirect
      split at hterm
      · rename_i c d hc hd
        cases hterm
        obtain ⟨b, hb, hbcols⟩ := hs.exists_of_remainingCell? hrow hc
        obtain ⟨b', hb', hbcols'⟩ := hs.exists_of_remainingCell? hrow hd
        exact ⟨b, b', hb, hb', hbcols, hbcols'⟩
      · cases hterm
  · obtain ⟨e, he, hterm⟩ := List.mem_filterMap.mp hthrough
    split at hterm
    · rename_i c d hc hd
      cases hterm
      obtain ⟨b, hb, hbcols⟩ := hs.exists_of_coupling? he hc
      obtain ⟨b', hb', hbcols'⟩ := hs.exists_of_coupling? he hd
      exact ⟨b, b', hb, hb', hbcols, hbcols'⟩
    · cases hterm

/-- The blocks that are gathered, by their places. -/
theorem Regular.mem_gather (hs : s.Regular) {diagonalOnly : Bool} :
    (⟨k, l⟩, m) ∈ s.gather diagonalOnly ↔
      (diagonalOnly = true → k = l) ∧ s.reducedBlock? k l = some m := by
  obtain ⟨hsorted, hfind⟩ := hs.readsAs_gather diagonalOnly k l
  rw [← Table.find?_eq_some_iff hsorted, hfind]
  cases diagonalOnly
  · simp
  · by_cases hkl : k = l
    · simp [hkl]
    · simp [hkl]

theorem Regular.mem_keys_gather (hs : s.Regular) {diagonalOnly : Bool} {x : BlockKey} :
    x ∈ Table.keys (s.gather diagonalOnly) ↔
      (diagonalOnly = true → x.row = x.column) ∧ (s.reducedBlock? x.row x.column).isSome = true := by
  rw [Table.keys, List.mem_map, Option.isSome_iff_exists]
  constructor
  · rintro ⟨⟨x, m⟩, hm, rfl⟩
    obtain ⟨hdiagonal, hblock⟩ := hs.mem_gather.mp hm
    exact ⟨hdiagonal, m, hblock⟩
  · rintro ⟨hdiagonal, m, hblock⟩
    exact ⟨_, hs.mem_gather.mpr ⟨hdiagonal, hblock⟩, rfl⟩

theorem Regular.places_gather (hs : s.Regular) (diagonalOnly : Bool) :
    s.Places (s.gather diagonalOnly) where
  sorted := (hs.readsAs_gather diagonalOnly 0 0).sorted
  shapes _ _ hm := hs.shape_reducedBlock? (hs.mem_gather.mp hm).2

end Gathered

/-! ## Copying -/

theorem shape_assembleDense (s : Elimination α) (t : ReducedBlocks α) :
    (s.assembleDense t).rows = s.dimension ∧ (s.assembleDense t).cols = s.dimension :=
  List.foldlRecOn (motive := fun m : Mat α => m.rows = s.dimension ∧ m.cols = s.dimension)
    t _ ⟨rfl, rfl⟩ fun _ hm _ _ => hm

/-- An entry of the assembled matrix is that of the block in which it lies. -/
theorem Places.get_assembleDense (ht : s.Places t) (hs : s.matrix.WellFormed)
    (hb : s.remaining[k]? = some b) (hc : s.remaining[l]? = some c) (hi : i < b.size)
    (hj : j < c.size) : (s.assembleDense t).get (b.position + i) (c.position + j) =
      (Table.find? ⟨k, l⟩ t).elim 0 fun m => m.get i j := by
  have hrow := (Nat.add_lt_add_left hi b.position).trans_le (stop_remaining_le hs hb)
  have hcolumn := (Nat.add_lt_add_left hj c.position).trans_le (stop_remaining_le hs hc)
  have hwalk : (s.assembleDense t).get (b.position + i) (c.position + j) =
      t.foldl (fun v e => if e.1 = ⟨k, l⟩ then e.2.get i j else v) 0 := by
    rw [assembleDense]
    refine (List.foldl_rel (r := fun (d : Mat α) v => d.rows = s.dimension ∧
      d.cols = s.dimension ∧ d.get (b.position + i) (c.position + j) = v) ⟨rfl, rfl, ?_⟩ ?_).2.2
    · rw [Mat.zeros, Mat.get_ofFn _ hrow hcolumn]
    · rintro ⟨⟨k', l'⟩, m⟩ hm d v ⟨hrows, hcols, rfl⟩
      obtain ⟨b', c', hb', hc', hmrows, hmcols⟩ := ht.shapes _ m hm
      refine ⟨hrows, hcols, ?_⟩
      dsimp only
      rw [keptBlock_eq hb', keptBlock_eq hc', Mat.get_copyAt (hrows ▸ hrow) (hcols ▸ hcolumn), hmrows,
        hmcols]
      simp only [reaches_remaining_iff hs hb hb' hi, reaches_remaining_iff hs hc hc' hj,
        BlockKey.mk.injEq]
      split
      · rename_i hkl
        obtain ⟨rfl, rfl⟩ := hkl
        cases hb.symm.trans hb'
        cases hc.symm.trans hc'
        rw [Nat.add_sub_cancel_left, Nat.add_sub_cancel_left]
      · rfl
  rw [hwalk, foldl_key ht.nodup ⟨k, l⟩ (fun _ e => e.2.get i j), Table.find?_eq ht.sorted,
    Option.elim_map]
  rfl

/-! ## Listing -/

theorem assembleSparse_eq_flatMap (s : Elimination α) (t : ReducedBlocks α) :
    s.assembleSparse t = t.flatMap fun e => (List.range (s.keptBlock e.1.row).size).flatMap fun i =>
      (List.range (s.keptBlock e.1.column).size).map fun j =>
        ((s.keptBlock e.1.row).position + i, (s.keptBlock e.1.column).position + j,
          e.2.get i j) := by
  simp only [assembleSparse, List.foldl_append_eq_append, List.nil_append, ← List.flatMap_def]

/-- The listed entries are those of the blocks. -/
theorem Places.mem_assembleSparse (ht : s.Places t) {p q : Nat} {v : α} :
    (p, q, v) ∈ s.assembleSparse t ↔ ∃ key m b c, (key, m) ∈ t ∧ s.remaining[key.row]? = some b ∧
      s.remaining[key.column]? = some c ∧ ∃ i < b.size, ∃ j < c.size,
        p = b.position + i ∧ q = c.position + j ∧ v = m.get i j := by
  simp only [assembleSparse_eq_flatMap, List.mem_flatMap, List.mem_map, List.mem_range,
    Prod.mk.injEq]
  constructor
  · rintro ⟨⟨key, m⟩, hm, i, hi, j, hj, rfl, rfl, rfl⟩
    obtain ⟨b, c, hb, hc, -⟩ := ht.shapes key m hm
    rw [keptBlock_eq hb] at hi
    rw [keptBlock_eq hc] at hj
    exact ⟨key, m, b, c, hm, hb, hc, i, hi, j, hj, by rw [keptBlock_eq hb],
      by rw [keptBlock_eq hc], rfl⟩
  · rintro ⟨key, m, b, c, hm, hb, hc, i, hi, j, hj, rfl, rfl, rfl⟩
    refine ⟨(key, m), hm, i, ?_, j, ?_, ?_⟩
    · rwa [keptBlock_eq hb]
    · rwa [keptBlock_eq hc]
    · rw [keptBlock_eq hb, keptBlock_eq hc]
      exact ⟨rfl, rfl, rfl⟩

/-- The listed entries lie within the matrix. -/
theorem Places.lt_dimension (ht : s.Places t) (hs : s.matrix.WellFormed) :
    ∀ e ∈ s.assembleSparse t, e.1 < s.dimension ∧ e.2.1 < s.dimension := by
  rintro ⟨p, q, v⟩ he
  obtain ⟨key, m, b, c, -, hb, hc, i, hi, j, hj, rfl, rfl, -⟩ := ht.mem_assembleSparse.mp he
  exact ⟨(Nat.add_lt_add_left hi _).trans_le (stop_remaining_le hs hb),
    (Nat.add_lt_add_left hj _).trans_le (stop_remaining_le hs hc)⟩

/-- No place is listed twice: different blocks and different entries of a block
stand in different places. -/
theorem Places.nodup_positions (ht : s.Places t) (hs : s.matrix.WellFormed) :
    ((s.assembleSparse t).map fun e => (e.1, e.2.1)).Nodup := by
  simp only [assembleSparse_eq_flatMap, List.map_flatMap, List.map_map, Function.comp_def]
  refine List.nodup_flatMap.mpr ⟨fun e _ => List.nodup_flatMap.mpr ⟨fun i _ => ?entries, ?rows⟩,
    ?blocks⟩
  case entries =>
    refine List.nodup_range.map fun j j' h => ?_
    exact Nat.add_left_cancel (congrArg Prod.snd h)
  case rows =>
    refine List.nodup_range.imp fun {i i'} hne p hp hp' => ?_
    obtain ⟨j, -, rfl⟩ := List.mem_map.mp hp
    obtain ⟨j', -, hEq⟩ := List.mem_map.mp hp'
    exact hne (Nat.add_left_cancel (congrArg Prod.fst hEq)).symm
  case blocks =>
    refine (List.pairwise_map.mp ht.nodup).imp_of_mem ?_
    rintro ⟨key, m⟩ ⟨key', m'⟩ he he' hne p hp hp'
    simp only [List.mem_flatMap, List.mem_map, List.mem_range] at hp hp'
    obtain ⟨i, hi, j, hj, rfl⟩ := hp
    obtain ⟨i', hi', j', hj', hEq⟩ := hp'
    obtain ⟨b, c, hb, hc, -⟩ := ht.shapes key m he
    obtain ⟨b', c', hb', hc', -⟩ := ht.shapes key' m' he'
    rw [keptBlock_eq hb] at hi hEq
    rw [keptBlock_eq hc] at hj hEq
    rw [keptBlock_eq hb'] at hi' hEq
    rw [keptBlock_eq hc'] at hj' hEq
    have hrow := (remaining_inj hs hb' hb hi' hi (congrArg Prod.fst hEq)).1
    have hcolumn := (remaining_inj hs hc' hc hj' hj (congrArg Prod.snd hEq)).1
    cases key
    cases key'
    exact hne (congrArg₂ BlockKey.mk hrow.symm hcolumn.symm)

end Elimination

/-- The sum of the listed entries at one place. -/
def sumAt (entries : List (Nat × Nat × ℝ)) (p q : Nat) : ℝ :=
  ((entries.filter fun e => (e.1, e.2.1) == (p, q)).map fun e => e.2.2).sum

/-- The listed entries at a place add up to the entry of the block in which it
lies. -/
theorem Elimination.Places.sumAt_assembleSparse {s : Elimination ℝ} {t : ReducedBlocks ℝ}
    {b c : Block} {k l i j : Nat} (ht : s.Places t) (hs : s.matrix.WellFormed)
    (hb : s.remaining[k]? = some b) (hc : s.remaining[l]? = some c) (hi : i < b.size)
    (hj : j < c.size) : sumAt (s.assembleSparse t) (b.position + i) (c.position + j) =
      (Table.find? ⟨k, l⟩ t).elim 0 fun m => m.get i j := by
  rw [sumAt, filter_key (ht.nodup_positions hs)]
  cases hfind : (s.assembleSparse t).find? fun e =>
      (e.1, e.2.1) == (b.position + i, c.position + j) with
  | none =>
      have hnone := List.find?_eq_none.mp hfind
      cases hm : Table.find? ⟨k, l⟩ t with
      | none => rfl
      | some m =>
          have hmem := (Table.find?_eq_some_iff ht.sorted).mp hm
          have hentry := ht.mem_assembleSparse.mpr
            ⟨⟨k, l⟩, m, b, c, hmem, hb, hc, i, hi, j, hj, rfl, rfl, rfl⟩
          exact absurd (beq_self_eq_true _) (hnone _ hentry)
  | some e =>
      obtain ⟨p, q, v⟩ := e
      have hplace := eq_of_beq (List.find?_some (p := fun e : Nat × Nat × ℝ =>
        (e.1, e.2.1) == (b.position + i, c.position + j)) hfind)
      obtain ⟨⟨k', l'⟩, m, b', c', hm, hb', hc', i', hi', j', hj', rfl, rfl, rfl⟩ :=
        ht.mem_assembleSparse.mp (List.mem_of_find?_eq_some hfind)
      obtain ⟨rfl, rfl⟩ := remaining_inj hs hb' hb hi' hi (congrArg Prod.fst hplace)
      obtain ⟨rfl, rfl⟩ := remaining_inj hs hc' hc hj' hj (congrArg Prod.snd hplace)
      rw [(Table.find?_eq_some_iff ht.sorted).mpr hm]
      exact List.sum_singleton

end LeastSquares
