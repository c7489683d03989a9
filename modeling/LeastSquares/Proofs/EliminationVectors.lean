import LeastSquares.Proofs.EliminationWalk
import LeastSquares.Proofs.ReducedOperator
import Mathlib.Data.List.Sort

/-!
# Vectors of the reduced system, walked through and put together

A walk through an elimination adds to a vector of full size at the places of one
cell after the other, and takes off at the places of one coupling after the
other. Seen from one remaining block, a row changes it once at most, and so does
an eliminated block. So the right-hand side of the reduced system and the product
with its matrix are put together from the remaining blocks, each computed from
the same numbers in the same order, in every arithmetic, rounded or not.

## Main definitions

* `Elimination.Shows` — a vector seen from one block.
* `Elimination.spreadBlock` — a block of a vector that is walked through.

## Main results

* `Elimination.Regular.spread_eq` — the vector from its blocks.
* `Elimination.Regular.walkRhs_eq`, `Elimination.Regular.walkReduced_eq` — the
  right-hand side and the product.
-/

namespace LeastSquares

variable {α : Type} [Scalar α]

namespace Elimination

variable {s : Elimination α} {row : BlockRow α} {e : EliminatedBlock α} {b c : Block} {k l : Nat}

/-! ## Cells and couplings of one block -/

omit [Scalar α] in
/-- Of the cells of a row in remaining blocks one counts for a block. -/
theorem Regular.foldl_keptCells {β : Type} (hs : s.Regular) (hrow : row ∈ s.matrix.rows) (k : Nat)
    (f : β → Mat α → β) (x : β) :
    (s.keptCells row).foldl (fun x c => if c.column = s.count + k then f x c.values else x) x =
      (s.remainingCell? row k).elim x (f x) := by
  rw [foldl_key (hs.nodup_keptCells hrow) _ (fun x c => f x c.values), find?_keptCells,
    remainingCell?, BlockRow.cell?, Option.elim_map]
  rfl

omit [Scalar α] in
/-- Of the couplings of an eliminated block one counts for a block. -/
theorem Regular.foldl_couplings {β : Type} (hs : s.Regular) (he : e ∈ s.eliminated) (k : Nat)
    (f : β → Mat α → β) (x : β) :
    e.couplings.foldl (fun x p => if p.1 = k then f x p.2 else x) x =
      (e.coupling? k).elim x (f x) := by
  rw [foldl_key (hs.distinct e he) k (fun x p => f x p.2), EliminatedBlock.coupling?,
    Option.elim_map]
  rfl

/-! ## Vectors of the reduced system -/

section Vectors

variable {x u w : Vec α}

/-- A vector of the reduced system holds another one in the place of a block. -/
structure Shows (s : Elimination α) (b : Block) (x u : Vec α) : Prop where
  size : x.size = s.dimension
  width : u.size = b.size
  get : ∀ i < b.size, x.get (b.position + i) = u.get i

/-- Changing the entries of one block. -/
theorem Shows.change (h : s.Shows b x u) (hs : s.matrix.WellFormed)
    (hb : s.remaining[k]? = some b) (hc : s.remaining[l]? = some c) (hw : w.size = c.size)
    (op : α → α → α) :
    s.Shows b
      (Vec.ofFn x.size fun q => if c.position ≤ q ∧ q < c.position + w.size then
        op (x.get q) (w.get (q - c.position)) else x.get q)
      (if l = k then Vec.ofFn u.size fun i => op (u.get i) (w.get i) else u) where
  size := (Vec.size_ofFn _ _).trans h.size
  width := by
    split
    · exact (Vec.size_ofFn _ _).trans h.width
    · exact h.width
  get i hi := by
    have hlt : b.position + i < x.size :=
      (Nat.add_lt_add_left hi _).trans_le ((stop_remaining_le hs hb).trans h.size.ge)
    have hget := Vec.get_ofFn_of_lt (fun q => if c.position ≤ q ∧ q < c.position + w.size then
      op (x.get q) (w.get (q - c.position)) else x.get q) hlt
    rw [hget, hw]
    simp only [reaches_remaining_iff hs hb hc hi]
    by_cases hl : l = k
    · subst hl
      cases hb.symm.trans hc
      rw [if_pos rfl, if_pos rfl, Vec.get_ofFn_of_lt _ (h.width ▸ hi), h.get i hi,
        Nat.add_sub_cancel_left]
    · rw [if_neg hl, if_neg hl, h.get i hi]

/-- A block of a spread vector. -/
def spreadBlock (s : Elimination α) (start : Vec α) (ofRow : BlockRow α → Vec α)
    (ofEliminated : EliminatedBlock α → Vec α) (k : Nat) (b : Block) : Vec α :=
  s.eliminated.foldl
    (fun u e => (e.coupling? k).elim u fun m => u - m.tMulVec (ofEliminated e))
    (s.matrix.rows.foldl
      (fun u row => (s.remainingCell? row k).elim u fun m => u + m.tMulVec (ofRow row))
      (part start b))

/-- A spread vector, seen from a block. -/
theorem Regular.shows_spread (hs : s.Regular) {start : Vec α} (hstart : start.size = s.dimension)
    (ofRow : BlockRow α → Vec α) (ofEliminated : EliminatedBlock α → Vec α)
    (hb : s.remaining[k]? = some b) :
    s.Shows b (s.spread start ofRow ofEliminated)
      (s.spreadBlock start ofRow ofEliminated k b) := by
  have hpart : s.Shows b start (part start b) :=
    ⟨hstart, Vec.size_slice _ _ _, fun i hi => (Vec.get_slice hi).symm⟩
  have hrows : s.Shows b
      (s.matrix.rows.foldl (fun out row => (s.keptCells row).foldl
        (fun out c => out.addAt (s.keptBlock (c.column - s.count)).position
          (c.values.tMulVec (ofRow row))) out) start)
      (s.matrix.rows.foldl (fun u row => (s.remainingCell? row k).elim u fun m =>
        u + m.tMulVec (ofRow row)) (part start b)) := by
    refine List.foldl_rel (r := s.Shows b) hpart fun row hrow x u hx => ?_
    rw [← hs.foldl_keptCells hrow k fun u m => u + m.tMulVec (ofRow row)]
    refine List.foldl_rel (r := s.Shows b) hx fun c hc x u hx => ?_
    obtain ⟨l, b', hl, hb', hcols⟩ := exists_of_mem_keptCells hs.matrix hrow hc
    rw [hl, Nat.add_sub_cancel_left, keptBlock_eq hb']
    simp only [Nat.add_left_cancel_iff]
    exact hx.change hs.matrix hb hb' ((Mat.size_tMulVec _ _).trans hcols) (· + ·)
  refine List.foldl_rel (r := s.Shows b) hrows fun e he x u hx => ?_
  rw [← hs.foldl_couplings he k fun u m => u - m.tMulVec (ofEliminated e)]
  refine List.foldl_rel (r := s.Shows b) hx fun p hp x u hx => ?_
  obtain ⟨b', hb', hcols⟩ := hs.fits e he p hp
  dsimp only
  rw [keptBlock_eq hb']
  exact hx.change hs.matrix hb hb' ((Mat.size_tMulVec _ _).trans hcols) (· - ·)

theorem size_spread (s : Elimination α) (start : Vec α) (ofRow : BlockRow α → Vec α)
    (ofEliminated : EliminatedBlock α → Vec α) :
    (s.spread start ofRow ofEliminated).size = start.size := by
  refine List.foldlRecOn (motive := fun x : Vec α => x.size = start.size) _ _ ?_ fun x hx e _ =>
    List.foldlRecOn (motive := fun x : Vec α => x.size = start.size) _ _ hx fun x hx p _ =>
      (Vec.size_ofFn _ _).trans hx
  exact List.foldlRecOn (motive := fun x : Vec α => x.size = start.size) _ _ rfl fun x hx row _ =>
    List.foldlRecOn (motive := fun x : Vec α => x.size = start.size) _ _ hx fun x hx c _ =>
      (Vec.size_ofFn _ _).trans hx

/-- A spread vector is put together from its blocks. -/
theorem Regular.spread_eq (hs : s.Regular) {start : Vec α} (hstart : start.size = s.dimension)
    (ofRow : BlockRow α → Vec α) (ofEliminated : EliminatedBlock α → Vec α) :
    s.spread start ofRow ofEliminated =
      Vec.concat (s.remaining.mapIdx (s.spreadBlock start ofRow ofEliminated)) := by
  have hwidth : ∀ k (b : Block), s.remaining[k]? = some b →
      (s.spreadBlock start ofRow ofEliminated k b).size = b.size := fun k b hb =>
    (hs.shows_spread hstart ofRow ofEliminated hb).width
  have hsize : (s.spread start ofRow ofEliminated).size = s.dimension :=
    (size_spread s start ofRow ofEliminated).trans hstart
  refine Vec.ext_get ?_ fun q hq => ?_
  · rw [hsize, Vec.size_concat, Vec.map_size_mapIdx hwidth, dimension_eq_total]
  · obtain ⟨k, b, hb, i, hi, rfl⟩ := exists_remaining hs.matrix (hsize ▸ hq)
    rw [(hs.shows_spread hstart ofRow ofEliminated hb).get i hi, position_of_remaining hs.matrix hb,
      ← List.map_take, Vec.get_concat_mapIdx hwidth hb hi]

theorem part_zeros (n : Nat) (b : Block) : part (Vec.zeros n : Vec α) b = Vec.zeros b.size := by
  refine Vec.ext_get ((Vec.size_slice _ _ _).trans (Vec.size_zeros _).symm) fun i hi => ?_
  rw [part, Vec.size_slice] at hi
  rw [part, Vec.get_slice hi, Vec.get_zeros_eq, Vec.get_zeros_eq]

/-- The right-hand side is put together from its blocks. -/
theorem Regular.walkRhs_eq (hs : s.Regular) : s.walkRhs = s.reducedRhs := by
  rw [walkRhs, hs.spread_eq (Vec.size_zeros _), reducedRhs]
  refine congrArg (fun f => Vec.concat (s.remaining.mapIdx f)) (funext fun k => funext fun b => ?_)
  rw [spreadBlock, part_zeros]
  refine congrArg₂ (fun f u => s.eliminated.foldl f u) (funext fun u => funext fun e => ?_)
    (congrArg (fun f => s.matrix.rows.foldl f _) (funext fun u => funext fun row => ?_))
  · cases e.coupling? k <;> rfl
  · cases s.remainingCell? row k <;> rfl

omit [Scalar α] in
/-- The kept cells of a row are those that it has in remaining blocks, in
ascending order. -/
theorem keptCells_eq_filterMap (hs : s.matrix.WellFormed) (hrow : row ∈ s.matrix.rows) :
    (s.keptCells row).map (fun c => (c.column - s.count, c.values)) =
      (List.range s.remaining.length).filterMap fun k =>
        (s.remainingCell? row k).map fun m => (k, m) := by
  have hascending := hs.ascending row hrow
  let before := fun p q : Nat × Mat α => p.1 < q.1
  have : Std.Irrefl before := ⟨fun p => Nat.lt_irrefl p.1⟩
  have : Std.Antisymm before := ⟨fun _ _ h h' => absurd h' (Nat.lt_asymm h)⟩
  refine List.Pairwise.eq_of_mem_iff (r := before) ?_ ?_ fun ⟨k, m⟩ => ?_
  · have hkept := (List.pairwise_map.mp hascending).sublist
      (List.filter_sublist (p := fun c : Cell α => s.count ≤ c.column))
    refine List.pairwise_map.mpr (hkept.imp_of_mem fun {c d} hc _ hlt => ?_)
    have hle := of_decide_eq_true (List.mem_filter.mp hc).2
    show c.column - s.count < d.column - s.count
    omega
  · refine List.pairwise_lt_range.filterMap _ fun k l hkl p hp q hq => ?_
    obtain ⟨_, -, rfl⟩ := Option.map_eq_some_iff.mp hp
    obtain ⟨_, -, rfl⟩ := Option.map_eq_some_iff.mp hq
    exact hkl
  · simp only [List.mem_map, List.mem_filterMap, List.mem_range, Option.map_eq_some_iff,
      Prod.mk.injEq]
    constructor
    · rintro ⟨c, hc, rfl, rfl⟩
      obtain ⟨k, b, hk, hb, -⟩ := exists_of_mem_keptCells hs hrow hc
      refine ⟨k, (List.getElem?_eq_some_iff.mp hb).1, c.values, ?_, by omega, rfl⟩
      rw [remainingCell?, BlockRow.cell?_eq_some_iff hascending.nodup, ← hk]
      exact List.mem_of_mem_filter hc
    · rintro ⟨k, -, m, hm, rfl, rfl⟩
      have hmem := (BlockRow.cell?_eq_some_iff hascending.nodup).mp hm
      exact ⟨_, List.mem_filter.mpr ⟨hmem, decide_eq_true (Nat.le_add_right _ _)⟩,
        Nat.add_sub_cancel_left _ _, rfl⟩

/-- The image of a row is put together from its cells in remaining blocks. -/
theorem Regular.walkImage_eq (hs : s.Regular) (hrow : row ∈ s.matrix.rows) (y : Vec α) :
    s.walkImage y row = (s.remaining.mapIdx fun k b => (k, b)).foldl
      (fun acc p => (s.remainingCell? row p.1).elim acc fun m => acc + m.mulVec (part y p.2))
      (Vec.zeros row.block.size) := by
  have hcells : ((s.keptCells row).map fun c => (c.column - s.count, c.values)).foldl
      (fun u p => u + p.2.mulVec (part y (s.keptBlock p.1))) (Vec.zeros row.block.size) = _ :=
    List.foldl_map
  rw [walkImage, ← hcells, keptCells_eq_filterMap hs.matrix hrow, List.foldl_filterMap, mapIdx_pair,
    List.foldl_map]
  refine congrArg (fun f => List.foldl f _ _) (funext fun u => funext fun k => ?_)
  cases s.remainingCell? row k <;> rfl

/-- The regularizer of the reduced system weighs every block by its own part. -/
theorem part_regularized (hs : s.matrix.WellFormed) (hb : s.remaining[k]? = some b) (y : Vec α) :
    part ((s.d2.slice s.offset s.dimension).mulEntries y) b =
      (s.regularizerOf b).mulEntries (part y b) := by
  have hmul : ∀ {u v : Vec α} {i}, i < u.size → (u.mulEntries v).get i = u.get i * v.get i :=
    fun hi => Vec.get_ofFn_of_lt _ hi
  refine Vec.ext_get (by simp [part, regularizerOf]) fun i hi => ?_
  rw [part, Vec.size_slice] at hi
  have hlt : b.position + i < s.dimension :=
    (Nat.add_lt_add_left hi _).trans_le (stop_remaining_le hs hb)
  rw [part, Vec.get_slice hi, hmul (hlt.trans_eq (Vec.size_slice _ _ _).symm),
    Vec.get_slice hlt, regularizerOf, hmul (hi.trans_eq (Vec.size_slice _ _ _).symm), part,
    Vec.get_slice hi, Vec.get_slice hi, Nat.add_assoc]

/-- The product is put together from its blocks. -/
theorem Regular.walkReduced_eq (hs : s.Regular) (y : Vec α) :
    s.walkReduced y = s.applyReduced y := by
  have hstart : ((s.d2.slice s.offset s.dimension).mulEntries y).size = s.dimension :=
    (Vec.size_mulEntries _ _).trans (Vec.size_slice _ _ _)
  rw [walkReduced, hs.spread_eq hstart, applyReduced]
  refine congrArg Vec.concat (List.mapIdx_eq_mapIdx_iff.mpr fun k hk => ?_)
  have hb := List.getElem?_eq_getElem hk
  generalize s.remaining[k] = b at hb
  rw [spreadBlock, part_regularized hs.matrix hb, List.foldl_map, List.foldl_map]
  refine congrArg₂ (fun f u => List.foldl f u s.eliminated) (funext fun u => funext fun e => ?_)
    (List.foldl_ext _ _ _ fun u row hrow => ?_)
  · dsimp only
    cases e.coupling? k <;> rfl
  · dsimp only
    rw [hs.walkImage_eq hrow]
    cases s.remainingCell? row k with
    | none => rfl
    | some m =>
        refine congrArg (fun image => u + m.tMulVec image) ?_
        refine congrArg (fun f => List.foldl f _ _) (funext fun u => funext fun p => ?_)
        cases s.remainingCell? row p.1 <;> rfl

end Vectors

end Elimination

end LeastSquares
