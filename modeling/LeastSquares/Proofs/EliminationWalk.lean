import LeastSquares.LinearSolver.EliminationWalk
import LeastSquares.Proofs.CellWalk
import LeastSquares.Proofs.ReducedSystem

/-!
# What a walk through an elimination gathers

The table of the blocks of a reduced matrix is filled by rows and by eliminated
blocks, and what is read off it is a block at a time. Seen from one block, a row
contributes the product of two of its cells, if it has both, and an eliminated
block what goes from one of its couplings to the other. So the block is the sum
that `Elimination.reducedBlock?` puts together, with its terms in the same
order, in every arithmetic, rounded or not. A block to which nothing contributes
is missing from both.

## Main definitions

* `ReducedBlocks.ReadsAs` — what a table holds at one place.
* `Elimination.Regular` — what a successful elimination makes sure of.

## Main results

* `ReducedBlocks.ReadsAs.foldl_pairs` — terms for all pairs of cells or
  couplings, seen from one place.
* `Elimination.Regular.readsAs_gather` — the blocks that are gathered.
* `Elimination.remaining_inj`, `Elimination.exists_remaining` — indices of the
  reduced system by remaining blocks.
-/

namespace LeastSquares

variable {α : Type} [Scalar α]

/-! ## Tables of blocks -/

namespace BlockKey

theorem lt_iff {a b : BlockKey} :
    a < b ↔ a.row < b.row ∨ a.row = b.row ∧ a.column < b.column := Iff.rfl

instance : IsStrictTotalOrder BlockKey (· < ·) where
  trichotomous a b hab hba := by
    rw [lt_iff] at hab hba
    cases a
    cases b
    simp only [BlockKey.mk.injEq]
    dsimp only at hab hba
    omega
  irrefl a h := by
    rw [lt_iff] at h
    omega
  trans a b c hab hbc := by
    rw [lt_iff] at *
    omega

end BlockKey

/-- A block that may be missing, with something added. -/
def addTo (o : Option (Mat α)) (m : Mat α) : Option (Mat α) := some (o.elim m (· + m))

/-- Sums are continued by adding. -/
theorem foldl_addTo (l ms : List (Mat α)) : l.foldl addTo (sumMats ms) = sumMats (ms ++ l) := by
  induction l generalizing ms with
  | nil => rw [List.append_nil, List.foldl_nil]
  | cons m l ih =>
      have hadd : addTo (sumMats ms) m = sumMats (ms ++ [m]) := by
        cases ms with
        | nil => rfl
        | cons m' ms =>
            rw [List.cons_append, sumMats, sumMats, List.foldl_append]
            rfl
      rw [List.foldl_cons, hadd, ih, List.append_assoc, List.singleton_append]

namespace ReducedBlocks

variable {t : ReducedBlocks α} {x : BlockKey} {o : Option (Mat α)}

/-- The table is in order and holds this at a place. -/
structure ReadsAs (t : ReducedBlocks α) (x : BlockKey) (o : Option (Mat α)) : Prop where
  sorted : t.Sorted
  find : Table.find? x t = o

omit [Scalar α] in
theorem ReadsAs.put (h : t.ReadsAs x o) (key : BlockKey) (m : Mat α) :
    ReadsAs (Table.put key m t) x (if key = x then some m else o) where
  sorted := h.sorted.put key m
  find := by
    by_cases hk : key = x
    · subst hk
      rw [if_pos rfl, Table.find?_put_self h.sorted]
    · rw [if_neg hk, Table.find?_put_of_ne h.sorted (Ne.symm hk), h.find]

theorem add_eq (t : ReducedBlocks α) (key : BlockKey) (m : Mat α) :
    t.add key m = Table.put key ((Table.find? key t).elim m (· + m)) t := by
  rw [add]
  cases Table.find? key t <;> rfl

/-- Adding to a block changes this block. -/
theorem ReadsAs.add (h : t.ReadsAs x o) (key : BlockKey) (m : Mat α) :
    ReadsAs (t.add key m) x (if key = x then addTo o m else o) := by
  rw [add_eq]
  have hput := h.put key ((Table.find? key t).elim m (· + m))
  by_cases hk : key = x
  · subst hk
    rw [h.find] at hput ⊢
    exact hput
  · rwa [if_neg hk] at hput ⊢

/-- Adding to a block, unless only blocks on the diagonal are wanted. -/
theorem ReadsAs.addUnless (h : t.ReadsAs x o) (diagonalOnly : Bool) (key : BlockKey) (m : Mat α) :
    ReadsAs (if diagonalOnly && key.row != key.column then t else t.add key m) x
      (if key = x then if diagonalOnly && x.row != x.column then o else addTo o m else o) := by
  by_cases hk : key = x
  · subst hk
    rw [if_pos rfl]
    have hadd := h.add key m
    rw [if_pos rfl] at hadd
    split
    · exact h
    · exact hadd
  · rw [if_neg hk]
    have hadd := h.add key m
    rw [if_neg hk] at hadd
    split
    · exact h
    · exact hadd

omit [Scalar α] in
/-- What is done to a table step by step, seen from one place. -/
theorem ReadsAs.foldl {β : Type} {l : List β} {f : ReducedBlocks α → β → ReducedBlocks α}
    {g : Option (Mat α) → β → Option (Mat α)} (h : t.ReadsAs x o)
    (hstep : ∀ b ∈ l, ∀ t o, t.ReadsAs x o → (f t b).ReadsAs x (g o b)) :
    ReadsAs (l.foldl f t) x (l.foldl g o) :=
  List.foldl_rel (r := fun t o => ReadsAs t x o) h fun b hb t o ht => hstep b hb t o ht

/-- Terms for all pairs of members of a list, seen from a place that belongs to one
pair of keys. -/
theorem ReadsAs.foldl_pairs {β : Type} {l : List β} {key : β → Nat} (hn : (l.map key).Nodup)
    (h : t.ReadsAs x o) (diagonalOnly : Bool) (place : β → β → BlockKey) (term : β → β → Mat α)
    {i j : Nat} (hplace : ∀ c ∈ l, ∀ d ∈ l, place c d = x ↔ key c = i ∧ key d = j) :
    ReadsAs (l.foldl (fun t c => l.foldl (fun t d =>
        if diagonalOnly && (place c d).row != (place c d).column then t
        else t.add (place c d) (term c d)) t) t) x
      ((l.find? fun c => key c == i).elim o fun c => (l.find? fun d => key d == j).elim o fun d =>
        if diagonalOnly && x.row != x.column then o else addTo o (term c d)) := by
  rw [← foldl_key hn i fun o c => (l.find? fun d => key d == j).elim o fun d =>
    if diagonalOnly && x.row != x.column then o else addTo o (term c d)]
  refine h.foldl fun c hc t o ht => ?_
  rw [← foldl_key hn j fun o d =>
    if diagonalOnly && x.row != x.column then o else addTo o (term c d)]
  have hinner := ht.foldl (l := l) fun d hd t o ht =>
    ht.addUnless diagonalOnly (place c d) (term c d)
  by_cases hi : key c = i
  · rw [if_pos hi]
    refine (congrArg (ReadsAs _ x) (List.foldl_ext _ _ _ fun o d hd => ?_)).mp hinner
    simp only [hplace c hc d hd, hi, true_and]
  · rw [if_neg hi]
    refine (congrArg (ReadsAs _ x) (foldl_eq_self (fun d hd o => ?_) o)).mp hinner
    rw [if_neg fun hx => hi ((hplace c hc d hd).mp hx).1]

end ReducedBlocks

namespace Elimination

variable {s : Elimination α} {row : BlockRow α} {e : EliminatedBlock α} {b c : Block} {k l : Nat}

/-! ## Cells and couplings -/

/-- What a successful elimination makes sure of. -/
structure Regular (s : Elimination α) : Prop where
  matrix : s.matrix.WellFormed
  distinct : ∀ e ∈ s.eliminated, (e.couplings.map Prod.fst).Nodup
  fits : ∀ e ∈ s.eliminated, ∀ p ∈ e.couplings,
    ∃ b, s.remaining[p.1]? = some b ∧ p.2.cols = b.size

/-- A sum of matrices has the shape of one of them. -/
theorem shape_of_sumMats {ms : List (Mat α)} {m : Mat α} (h : sumMats ms = some m) :
    ∃ m' ∈ ms, m.rows = m'.rows ∧ m.cols = m'.cols := by
  cases ms with
  | nil => cases h
  | cons m' ms =>
      cases h
      exact ⟨m', List.mem_cons_self, List.foldlRecOn
        (motive := fun n : Mat α => n.rows = m'.rows ∧ n.cols = m'.cols) ms _ ⟨rfl, rfl⟩
        fun _ hn _ _ => hn⟩

/-- The couplings of an eliminated block, one for each remaining block that shares
a row with it. -/
theorem couplings_of_eliminateBlock? {a : BlockMatrix α} {v d2 : Vec α} {count i : Nat}
    (h : eliminateBlock? a v d2 count i = .ok e) :
    e.couplings = (List.range (a.columns.length - count)).filterMap fun k =>
      (sumMats ((a.rows.filterMap fun row => (row.cell? i).map fun cell => (row, cell)).filterMap
        fun p => (p.1.cell? (count + k)).map fun other => p.2.tMul other)).map fun m => (k, m) := by
  unfold eliminateBlock? at h
  dsimp only at h
  split at h
  · cases h
  · cases h
    rfl

theorem regular_of_new? {a : BlockMatrix α} {v d2 : Vec α} {count : Nat} (ha : a.WellFormed)
    (h : new? a v d2 count = .ok s) : s.Regular := by
  have hs := creates_of_new? h
  have hmatrix : s.matrix = a := by rw [hs.eq]
  have hcount : s.count = count := by rw [hs.eq]
  refine ⟨hmatrix ▸ ha, fun e he => ?_, fun e he p hp => ?_⟩
  · obtain ⟨i, -, hi⟩ := exists_left_of_forall₂ hs.blocks e he
    rw [couplings_of_eliminateBlock? hi, List.map_filterMap]
    refine List.nodup_range.filterMap fun k k' x hx hx' => ?_
    simp only [Option.map_map, Option.mem_def, Option.map_eq_some_iff] at hx hx'
    obtain ⟨_, -, rfl⟩ := hx
    obtain ⟨_, -, hEq⟩ := hx'
    exact hEq.symm
  · obtain ⟨i, -, hi⟩ := exists_left_of_forall₂ hs.blocks e he
    rw [couplings_of_eliminateBlock? hi] at hp
    obtain ⟨k, hk, hp⟩ := List.mem_filterMap.mp hp
    obtain ⟨m, hm, rfl⟩ := Option.map_eq_some_iff.mp hp
    obtain ⟨m', hmem, -, hcols⟩ := shape_of_sumMats hm
    obtain ⟨⟨row, cell⟩, hrow, hother⟩ := List.mem_filterMap.mp hmem
    obtain ⟨row', hrow', hpair⟩ := List.mem_filterMap.mp hrow
    obtain ⟨other, hcell, rfl⟩ := Option.map_eq_some_iff.mp hother
    obtain ⟨_, -, hEq⟩ := Option.map_eq_some_iff.mp hpair
    cases hEq
    have hc := BlockMatrix.getElem?_column (Nat.add_lt_of_lt_sub' (List.mem_range.mp hk))
    refine ⟨_, getElem?_remaining (s := s) (by rw [hmatrix, hcount, hc]), ?_⟩
    exact hcols.trans (ha.shape hrow' hc hcell).2

omit [Scalar α] in
theorem find?_keptCells (s : Elimination α) (row : BlockRow α) (k : Nat) :
    ((s.keptCells row).find? fun c => c.column == s.count + k) =
      row.cells.find? fun c => c.column == s.count + k := by
  rw [keptCells, List.find?_filter]
  refine congrArg (List.find? · row.cells) (funext fun c => ?_)
  by_cases hc : c.column = s.count + k
  · simp [hc]
  · simp [hc]

omit [Scalar α] in
theorem Regular.nodup_keptCells (hs : s.Regular) (hrow : row ∈ s.matrix.rows) :
    ((s.keptCells row).map Cell.column).Nodup :=
  (hs.matrix.ascending row hrow).nodup.sublist (List.filter_sublist.map _)

/-! ## The blocks of the reduced matrix -/

section Gather

variable {t : ReducedBlocks α} {o : Option (Mat α)} {diagonalOnly : Bool}

/-- Before anything is added the table holds the regularizer. -/
theorem readsAs_startBlocks (s : Elimination α) (k l : Nat) :
    s.startBlocks.ReadsAs ⟨k, l⟩
      (if k = l then s.remaining[k]?.map fun b => Mat.diagonal (s.regularizerOf b) else none) := by
  let entries : List (BlockKey × Mat α) :=
    s.remaining.mapIdx fun k b => (⟨k, k⟩, Mat.diagonal (s.regularizerOf b))
  have hstart : s.startBlocks = entries.foldl (fun t e => Table.put e.1 e.2 t) [] := by
    have hentries : entries = (s.remaining.mapIdx fun k b => (k, b)).map fun p =>
        ((⟨p.1, p.1⟩ : BlockKey), Mat.diagonal (s.regularizerOf p.2)) := by
      rw [List.mapIdx_eq_zipIdx_map, List.map_map]
      exact List.mapIdx_eq_zipIdx_map
    rw [hentries, List.foldl_map]
    rfl
  have hnodup : (entries.map Prod.fst).Nodup := by
    refine List.pairwise_iff_getElem.mpr fun i j hi hj hij hEq => hij.ne ?_
    simpa [entries] using hEq
  have hnil : Table.Sorted ([] : ReducedBlocks α) := List.Pairwise.nil
  rw [hstart]
  refine ⟨Table.sorted_foldl_put _ hnil, Option.ext fun m => ?_⟩
  rw [Table.find?_eq_some_iff (Table.sorted_foldl_put _ hnil), Table.mem_foldl_put hnodup hnil]
  by_cases hkl : k = l
  · subst hkl
    simp [entries, List.mem_mapIdx, List.getElem?_eq_some_iff]
  · simp [entries, List.mem_mapIdx, hkl]

/-- What a row adds to a block. -/
theorem Regular.readsAs_addRow (hs : s.Regular) (hrow : row ∈ s.matrix.rows)
    (h : t.ReadsAs ⟨k, l⟩ o) (diagonalOnly : Bool) :
    (s.addRow diagonalOnly t row).ReadsAs ⟨k, l⟩
      ((s.remainingCell? row k).elim o fun c => (s.remainingCell? row l).elim o fun d =>
        if diagonalOnly && k != l then o else addTo o (c.tMul d)) := by
  have hle : ∀ c ∈ s.keptCells row, s.count ≤ c.column := fun c hc =>
    of_decide_eq_true (List.mem_filter.mp hc).2
  have hpairs := h.foldl_pairs (hs.nodup_keptCells hrow) diagonalOnly
    (fun c d => ⟨c.column - s.count, d.column - s.count⟩) (fun c d => c.values.tMul d.values)
    (i := s.count + k) (j := s.count + l) fun c hc d hd => by
      have hc := hle c hc
      have hd := hle d hd
      rw [BlockKey.mk.injEq]
      omega
  rw [find?_keptCells, find?_keptCells] at hpairs
  rw [remainingCell?, remainingCell?, BlockRow.cell?, BlockRow.cell?, Option.elim_map]
  simp only [Option.elim_map]
  refine (congrArg (ReducedBlocks.ReadsAs · ⟨k, l⟩ _) ?_).mp hpairs
  refine List.foldl_ext _ _ _ fun t c hc => List.foldl_ext _ _ _ fun t d hd => ?_
  have hsame : (c.column != d.column) = (c.column - s.count != d.column - s.count) := by
    have hc := hle c hc
    have hd := hle d hd
    rw [Bool.eq_iff_iff, bne_iff_ne, bne_iff_ne]
    omega
  rw [hsame]

/-- What an eliminated block takes off a block. -/
theorem Regular.readsAs_addEliminated (hs : s.Regular) (he : e ∈ s.eliminated)
    (h : t.ReadsAs ⟨k, l⟩ o) (diagonalOnly : Bool) :
    (addEliminated diagonalOnly t e).ReadsAs ⟨k, l⟩
      ((e.coupling? l).elim o fun d => (e.coupling? k).elim o fun c =>
        if diagonalOnly && k != l then o else addTo o (-(c.tMul (e.inverse.mul d)))) := by
  have hpairs := h.foldl_pairs (hs.distinct e he) diagonalOnly (fun p q => ⟨q.1, p.1⟩)
    (fun p q => -(q.2.tMul (e.inverse.mul p.2))) (i := l) (j := k) fun p _ q _ => by
      rw [BlockKey.mk.injEq, and_comm]
  rw [EliminatedBlock.coupling?, EliminatedBlock.coupling?, Option.elim_map]
  simp only [Option.elim_map]
  exact hpairs

/-- The gathered blocks are those of the reduced matrix. With the diagonal alone
the others are missing. -/
theorem Regular.readsAs_gather (hs : s.Regular) (diagonalOnly : Bool) (k l : Nat) :
    (s.gather diagonalOnly).ReadsAs ⟨k, l⟩
      (if diagonalOnly && k != l then none else s.reducedBlock? k l) := by
  have hrows := (readsAs_startBlocks s k l).foldl fun row hrow t o ht =>
    hs.readsAs_addRow hrow ht diagonalOnly
  have hgather := hrows.foldl fun e he t o ht => hs.readsAs_addEliminated he ht diagonalOnly
  refine (congrArg (ReducedBlocks.ReadsAs (s.gather diagonalOnly) ⟨k, l⟩) ?_).mp hgather
  split
  · rename_i hskip
    have hne : k ≠ l := by
      rintro rfl
      simp at hskip
    rw [if_neg hne, foldl_eq_self, foldl_eq_self]
    · intro row _ o
      cases s.remainingCell? row k <;> cases s.remainingCell? row l <;> rfl
    · intro e _ o
      cases e.coupling? k <;> cases e.coupling? l <;> rfl
  · rw [reducedBlock?, ← foldl_addTo, ← foldl_addTo, List.foldl_filterMap, List.foldl_filterMap]
    refine congrArg₂ (fun f o => s.eliminated.foldl f o) (funext fun o => funext fun e => ?_)
      (congrArg₂ (fun f o => s.matrix.rows.foldl f o) (funext fun o => funext fun row => ?_) ?_)
    · cases e.coupling? l <;> cases e.coupling? k <;> rfl
    · cases s.remainingCell? row k <;> cases s.remainingCell? row l <;> rfl
    · by_cases hkl : k = l
      · rw [if_pos hkl, if_pos hkl]
        cases s.remaining[k]? <;> rfl
      · rw [if_neg hkl, if_neg hkl]
        rfl

end Gather

/-! ## Places -/

section Places

variable {q i j : Nat}

omit [Scalar α] in
theorem keptBlock_eq (hb : s.remaining[k]? = some b) : s.keptBlock k = b := by
  rw [keptBlock, List.getD_eq_getElem?_getD, hb, Option.getD_some]

theorem dimension_eq_total (s : Elimination α) :
    s.dimension = total (s.remaining.map Block.size) := by
  have hsplit : s.matrix.numCols = s.offset + total (s.remaining.map Block.size) := by
    rw [map_size_remaining, offset, ← total_append, ← List.map_append, List.take_append_drop]
    rfl
  have hsum := s.offset_add_dimension
  omega

omit [Scalar α] in
theorem position_of_remaining (hs : s.matrix.WellFormed) (hb : s.remaining[k]? = some b) :
    b.position = total ((s.remaining.map Block.size).take k) := by
  rw [map_size_remaining]
  rw [remaining_eq_layout hs, getElem?_layout] at hb
  obtain ⟨n, -, rfl⟩ := Option.map_eq_some_iff.mp hb
  rfl

omit [Scalar α] in
/-- An index lies in one remaining block only. -/
theorem remaining_inj (hs : s.matrix.WellFormed) (hb : s.remaining[k]? = some b)
    (hc : s.remaining[l]? = some c) (hi : i < b.size) (hj : j < c.size)
    (h : b.position + i = c.position + j) : k = l ∧ i = j := by
  rw [position_of_remaining hs hb, position_of_remaining hs hc] at h
  refine block_index_inj ?_ ?_ hi hj h
  · rw [List.getElem?_map, hb, Option.map_some]
  · rw [List.getElem?_map, hc, Option.map_some]

omit [Scalar α] in
/-- A remaining block reaches an index of another if the two are the same. -/
theorem reaches_remaining_iff (hs : s.matrix.WellFormed) (hb : s.remaining[k]? = some b)
    (hc : s.remaining[l]? = some c) (hi : i < b.size) :
    c.position ≤ b.position + i ∧ b.position + i < c.position + c.size ↔ l = k := by
  constructor
  · rintro ⟨hle, hlt⟩
    have hsplit : c.position + (b.position + i - c.position) = b.position + i := by omega
    exact (remaining_inj hs hc hb (by omega) hi hsplit).1
  · rintro rfl
    cases hb.symm.trans hc
    omega

theorem stop_remaining_le (hs : s.matrix.WellFormed) (hb : s.remaining[k]? = some b) :
    b.stop ≤ s.dimension := by
  rw [Block.stop, position_of_remaining hs hb, dimension_eq_total]
  refine total_take_add_le ?_
  rw [List.getElem?_map, hb, Option.map_some]

theorem exists_remaining (hs : s.matrix.WellFormed) (hq : q < s.dimension) :
    ∃ (k : Nat) (b : Block), s.remaining[k]? = some b ∧ ∃ i < b.size, q = b.position + i := by
  rw [dimension_eq_total] at hq
  obtain ⟨k, n, hn, i, hi, rfl⟩ := exists_block_index hq
  rw [List.getElem?_map] at hn
  obtain ⟨b, hb, rfl⟩ := Option.map_eq_some_iff.mp hn
  exact ⟨k, b, hb, i, hi, by rw [position_of_remaining hs hb]⟩

omit [Scalar α] in
/-- A kept cell stands in a remaining block and has its width. -/
theorem exists_of_mem_keptCells (hs : s.matrix.WellFormed) (hrow : row ∈ s.matrix.rows)
    {c : Cell α} (hc : c ∈ s.keptCells row) : ∃ k b, c.column = s.count + k ∧
      s.remaining[k]? = some b ∧ c.values.cols = b.size := by
  obtain ⟨hmem, hle⟩ := List.mem_filter.mp hc
  have hle := of_decide_eq_true hle
  obtain ⟨b, hb, -, hcols⟩ := hs.shapes row hrow c hmem
  have hcolumn : c.column = s.count + (c.column - s.count) := by omega
  rw [hcolumn] at hb
  exact ⟨_, _, hcolumn, getElem?_remaining hb, hcols⟩

end Places

end Elimination

end LeastSquares
