import LeastSquares.Proofs.Elimination

/-!
# The reduced system

What an elimination leaves is a system for the remaining blocks. Its matrix,
its right-hand side and the way back to the whole solution are sums of
products over the eliminated blocks. Entry by entry they are made of the
normal equations and the inverses of the pivot blocks alone.

## Main definitions

* `Elimination.carried` — what an eliminated block carries over to the others.

## Main results

* `Elimination.get_reducedRhs` — the right-hand side.
* `Elimination.reducedBlock?_spec`, `Elimination.get_assemble` — the matrix.
* `Elimination.get_backSubstitute` — the whole solution.
-/

namespace LeastSquares

open Finset (range)

namespace Elimination

variable {a : BlockMatrix ℝ} {b c c' : Block} {v d2 y : Vec ℝ} {e k l i j count : Nat}
  {w : Nat → Mat ℝ}

/-! ## The remaining blocks -/

section Remaining

section Places

variable {α : Type} {s : Elimination α}

theorem getElem?_remaining (hc : s.matrix.columns[s.count + k]? = some c) :
    s.remaining[k]? = some ⟨c.size, c.position - s.offset⟩ := by
  rw [remaining, List.getElem?_map, List.getElem?_drop, hc, Option.map_some]

theorem map_size_remaining :
    s.remaining.map Block.size = (s.matrix.columns.drop s.count).map Block.size := by
  rw [remaining, List.map_map]
  rfl

theorem exists_column_of_remaining (hb : s.remaining[k]? = some b) :
    ∃ c, s.matrix.columns[s.count + k]? = some c ∧ b = ⟨c.size, c.position - s.offset⟩ := by
  rw [remaining, List.getElem?_map, List.getElem?_drop] at hb
  obtain ⟨c, hc, rfl⟩ := Option.map_eq_some_iff.mp hb
  exact ⟨c, hc, rfl⟩

/-- The remaining blocks start where the eliminated ones end. -/
theorem position_eq (ha : s.matrix.WellFormed)
    (hc : s.matrix.columns[s.count + k]? = some c) : c.position =
      s.offset + total (((s.matrix.columns.drop s.count).map Block.size).take k) := by
  rw [ha.position_column hc, offset, ← total_append, ← List.map_take, ← List.map_append,
    List.take_add]

/-- In the reduced system the remaining blocks lie one after the other. -/
theorem remaining_eq_layout (ha : s.matrix.WellFormed) :
    s.remaining = Block.layout ((s.matrix.columns.drop s.count).map Block.size) := by
  refine List.ext_getElem? fun k => ?_
  rw [getElem?_layout, List.getElem?_map, List.getElem?_drop]
  cases hc : s.matrix.columns[s.count + k]? with
  | none =>
      rw [remaining, List.getElem?_map, List.getElem?_drop, hc]
      rfl
  | some c =>
      rw [getElem?_remaining hc, position_eq ha hc, Nat.add_sub_cancel_left]
      rfl

end Places

variable {s : Elimination ℝ}

/-- Where a remaining block starts in the reduced system. -/
noncomputable def start (s : Elimination ℝ) (k : Nat) : Nat :=
  total (((s.matrix.columns.drop s.count).map Block.size).take k)

theorem position_remaining (ha : s.matrix.WellFormed)
    (hc : s.matrix.columns[s.count + k]? = some c) : c.position = s.offset + s.start k :=
  position_eq ha hc

end Remaining

/-! ## The reduced right-hand side -/

/-- What an eliminated block carries over to an entry of a remaining one, if
the numbers `g` belong to its own entries. -/
noncomputable def carried (a : BlockMatrix ℝ) (w : Nat → Mat ℝ) (e k i : Nat) (g : Nat → ℝ) : ℝ :=
  ∑ t ∈ range (a.column e).size, a.gram e t k i *
    ∑ u ∈ range (a.column e).size, (w e).get t u * g u

/-- The reduced right-hand side in a remaining block. -/
noncomputable def reducedRhsBlock (s : Elimination ℝ) (k : Nat) (b : Block) : Vec ℝ :=
  s.eliminated.foldl
    (fun acc e => (e.coupling? k).elim acc fun m =>
      acc - m.tMulVec (e.inverse.mulVec e.gradient))
    (s.matrix.rows.foldl
      (fun acc row => (row.cell? (s.count + k)).elim acc fun m =>
        acc + m.tMulVec (s.rhs.slice row.block.position row.block.size))
      (Vec.zeros b.size))

theorem reducedRhs_eq (s : Elimination ℝ) :
    s.reducedRhs = Vec.concat (s.remaining.mapIdx s.reducedRhsBlock) := by
  rw [reducedRhs]
  congr
  funext k b
  rw [reducedRhsBlock]
  dsimp only
  congr
  · funext acc e
    cases e.coupling? k <;> rfl
  · funext acc row
    rw [remainingCell?]
    cases row.cell? (s.count + k) <;> rfl

theorem elim_sub {o : Option (Mat ℝ)} {acc : Vec ℝ} {n : Nat} (hacc : acc.size = n)
    (f : Mat ℝ → Vec ℝ) :
    (o.elim acc fun m => acc - f m).size = n ∧ ∀ i < n,
      (o.elim acc fun m => acc - f m).get i = acc.get i - o.elim 0 fun m => (f m).get i := by
  cases o with
  | none => exact ⟨hacc, fun i _ => (sub_zero _).symm⟩
  | some m => exact ⟨(Vec.size_sub _ _).trans hacc, fun i hi => Vec.get_sub (hacc ▸ hi)⟩

theorem Inverts.getElem? (hw : Inverts a d2 count w) (he : e < count) :
    a.columns[e]? = some (a.column e) := by
  exact BlockMatrix.getElem?_column (Nat.lt_of_lt_of_le he hw.count_le)

/-- The gradient of an eliminated block as the other blocks see it. -/
theorem get_mulVec_ownGradient (ha : a.WellFormed) (hw : Inverts a d2 count w) (he : e < count)
    (hi : i < (a.column e).size) :
    ((w e).mulVec (ownGradient a v e)).get i =
      ∑ u ∈ range (a.column e).size, (w e).get i u * a.moment v e u := by
  have hb := hw.getElem? he
  obtain ⟨hrows, hcols⟩ := hw.shape e he _ hb
  rw [Mat.get_mulVec (hrows ▸ hi), hcols]
  refine Finset.sum_congr rfl fun u hu => ?_
  rw [(ownGradient_spec ha hb).2 u (Finset.mem_range.mp hu)]

/-- The couplings of an eliminated block. -/
theorem coupling?_blockOf (ha : a.WellFormed) (hw : Inverts a d2 count w) (he : e < count)
    (hc : a.columns[count + k]? = some c) :
    (∀ m ∈ (blockOf a v count w e).coupling? k, m.HasShape (a.column e).size c.size) ∧
      ∀ i < (a.column e).size, ∀ j < c.size,
        blockEntry ((blockOf a v count w e).coupling? k) i j = a.gram e i (count + k) j :=
  find?_couplingsOf ha (hw.getElem? he) hc

theorem reducedRhsBlock_spec (ha : a.WellFormed) (hw : Inverts a d2 count w)
    (hc : a.columns[count + k]? = some c) (hb : b.size = c.size) :
    ((ofInverses a v d2 count w).reducedRhsBlock k b).size = c.size ∧ ∀ i < c.size,
      ((ofInverses a v d2 count w).reducedRhsBlock k b).get i =
        a.moment v (count + k) i -
          ∑ e ∈ range count, carried a w e (count + k) i (a.moment v e) := by
  obtain ⟨hdirect, hgetDirect⟩ := BlockMatrix.foldl_leftPart v (count + k) a.rows b.size
  rw [hb] at hdirect hgetDirect
  have hstep : ∀ e ∈ List.range count, ∀ acc : Vec ℝ, acc.size = c.size →
      let next := ((blockOf a v count w e).coupling? k).elim acc fun m =>
        acc - m.tMulVec ((w e).mulVec (ownGradient a v e))
      next.size = c.size ∧ ∀ i < c.size,
        next.get i = acc.get i + -carried a w e (count + k) i (a.moment v e) := by
    intro e he acc hacc
    have he := List.mem_range.mp he
    obtain ⟨hshape, hentry⟩ := coupling?_blockOf (v := v) ha hw he hc
    obtain ⟨hsize, hget⟩ := elim_sub (o := (blockOf a v count w e).coupling? k) hacc
      fun m => m.tMulVec ((w e).mulVec (ownGradient a v e))
    refine ⟨hsize, fun i hi => ?_⟩
    rw [hget i hi, elim_tMulVec hshape hi, sub_eq_add_neg, carried]
    congr 2
    refine Finset.sum_congr rfl fun t ht => ?_
    rw [hentry t (Finset.mem_range.mp ht) i hi,
      get_mulVec_ownGradient ha hw he (Finset.mem_range.mp ht)]
  obtain ⟨hsize, hget⟩ := Vec.get_foldl _ hstep hdirect
  simp only [reducedRhsBlock, ofInverses, hb, List.foldl_map]
  refine ⟨hsize, fun i hi => ?_⟩
  rw [sub_eq_add_neg, ← Finset.sum_neg_distrib]
  refine (hget i hi).trans (congrArg₂ (· + ·) ?_ rfl)
  rw [hgetDirect i hi, BlockMatrix.moment]
  exact congrArg List.sum (List.map_congr_left fun row hrow => ha.elim_leftPart hrow hc hi)

theorem size_reducedRhs (ha : a.WellFormed) (hw : Inverts a d2 count w) :
    (ofInverses a v d2 count w).reducedRhs.size =
      total ((a.columns.drop count).map Block.size) := by
  rw [reducedRhs_eq, Vec.size_concat, Vec.map_size_mapIdx (n := Block.size), map_size_remaining]
  · rfl
  · intro k b hb
    obtain ⟨c, hc, rfl⟩ := exists_column_of_remaining hb
    exact (reducedRhsBlock_spec ha hw hc rfl).1

/-- The reduced right-hand side, entry by entry. -/
theorem get_reducedRhs (ha : a.WellFormed) (hw : Inverts a d2 count w)
    (hc : a.columns[count + k]? = some c) (hi : i < c.size) :
    (ofInverses a v d2 count w).reducedRhs.get ((ofInverses a v d2 count w).start k + i) =
      a.moment v (count + k) i -
        ∑ e ∈ range count, carried a w e (count + k) i (a.moment v e) := by
  have hrem := getElem?_remaining (s := ofInverses a v d2 count w) hc
  rw [reducedRhs_eq, start, ← map_size_remaining, ← List.map_take,
    Vec.get_concat_mapIdx (n := Block.size) ?_ hrem hi]
  · exact (reducedRhsBlock_spec ha hw hc rfl).2 i hi
  · intro k b hb
    obtain ⟨c, hc, rfl⟩ := exists_column_of_remaining hb
    exact (reducedRhsBlock_spec ha hw hc rfl).1

/-! ## The reduced matrix -/

/-- The regularizer of a remaining block, as a block of the reduced matrix. -/
noncomputable def regularizers (s : Elimination ℝ) (k l : Nat) : List (Mat ℝ) :=
  if k = l then s.remaining[k]?.toList.map fun b => Mat.diagonal (s.regularizerOf b) else []

theorem reducedBlock?_eq (s : Elimination ℝ) (k l : Nat) :
    s.reducedBlock? k l = sumMats
      (s.regularizers k l ++
        s.matrix.rows.filterMap (BlockRow.tMul? · (s.count + k) (s.count + l)) ++
        s.eliminated.filterMap fun e => through e.inverse (e.coupling? k) (e.coupling? l)) := by
  rw [reducedBlock?, regularizers]
  congr
  · cases s.remaining[k]? <;> rfl
  · funext row
    rw [remainingCell?, remainingCell?, BlockRow.tMul?]
    cases row.cell? (s.count + k) <;> cases row.cell? (s.count + l) <;> rfl
  · funext e
    rw [through]
    cases e.coupling? k <;> cases e.coupling? l <;> rfl

theorem carried_eq (ha : a.WellFormed) (hw : Inverts a d2 count w) (he : e < count)
    (hc : a.columns[count + k]? = some c) (hc' : a.columns[count + l]? = some c') (v : Vec ℝ) :
    let b := blockOf a v count w e
    let o := through (w e) (b.coupling? k) (b.coupling? l)
    (∀ m ∈ o, m.HasShape c.size c'.size) ∧ ∀ i < c.size, ∀ j < c'.size,
      blockEntry o i j = -carried a w e (count + k) i fun u => a.gram e u (count + l) j := by
  obtain ⟨hshape, hentry⟩ := coupling?_blockOf (v := v) ha hw he hc
  obtain ⟨hshape', hentry'⟩ := coupling?_blockOf (v := v) ha hw he hc'
  obtain ⟨ho, hget⟩ := through_spec (hw.shape e he _ (hw.getElem? he)) hshape hshape'
  refine ⟨ho, fun i hi j hj => (hget i hi j hj).trans (congrArg Neg.neg ?_)⟩
  refine Finset.sum_congr rfl fun t ht => ?_
  rw [hentry t (Finset.mem_range.mp ht) i hi]
  refine congrArg _ (Finset.sum_congr rfl fun u hu => ?_)
  rw [hentry' u (Finset.mem_range.mp hu) j hj]

theorem regularizers_spec {s : Elimination ℝ} (hs : s.matrix.WellFormed)
    (hc : s.matrix.columns[s.count + k]? = some c)
    (hc' : s.matrix.columns[s.count + l]? = some c') :
    (∀ m ∈ s.regularizers k l, m.HasShape c.size c'.size) ∧ ∀ i < c.size, ∀ j < c'.size,
      ((s.regularizers k l).map fun m => m.get i j).sum =
        if k = l ∧ i = j then s.d2.get (c.position + i) else 0 := by
  by_cases hkl : k = l
  · subst hkl
    rw [hc] at hc'
    cases hc'
    have hposition : s.offset + (c.position - s.offset) = c.position := by
      rw [position_remaining hs hc, Nat.add_sub_cancel_left]
    rw [regularizers, if_pos rfl, getElem?_remaining hc]
    have hsize : (s.regularizerOf ⟨c.size, c.position - s.offset⟩).size = c.size :=
      Vec.size_slice _ _ _
    refine ⟨fun m hm => ?_, fun i hi j hj => ?_⟩
    · cases List.mem_singleton.mp hm
      exact ⟨hsize, hsize⟩
    · rw [Option.toList_some, List.map_singleton, List.map_singleton, List.sum_singleton,
        Mat.get_diagonal (hi.trans_eq hsize.symm) (hj.trans_eq hsize.symm), regularizerOf,
        Vec.get_slice hi, hposition]
      simp only [true_and]
  · rw [regularizers, if_neg hkl]
    refine ⟨nofun, fun i _ j _ => ?_⟩
    rw [if_neg fun h => hkl h.1]
    rfl

/-- The blocks of the reduced matrix: those of the normal matrix, less what the
eliminated blocks carry over. -/
theorem reducedBlock?_spec (ha : a.WellFormed) (hw : Inverts a d2 count w)
    (hc : a.columns[count + k]? = some c) (hc' : a.columns[count + l]? = some c') :
    (∀ m ∈ (ofInverses a v d2 count w).reducedBlock? k l, m.HasShape c.size c'.size) ∧
      ∀ i < c.size, ∀ j < c'.size,
        blockEntry ((ofInverses a v d2 count w).reducedBlock? k l) i j =
          (if k = l ∧ i = j then d2.get (c.position + i) else 0) +
            a.gram (count + k) i (count + l) j -
              ∑ e ∈ range count, carried a w e (count + k) i fun u => a.gram e u (count + l) j := by
  have hregularizers := regularizers_spec (s := ofInverses a v d2 count w) ha hc hc'
  have hthrough : ∀ m ∈ (List.range count).filterMap fun e =>
      through (w e) ((blockOf a v count w e).coupling? k) ((blockOf a v count w e).coupling? l),
      m.HasShape c.size c'.size := by
    intro m hm
    obtain ⟨e, he, hm⟩ := List.mem_filterMap.mp hm
    exact (carried_eq ha hw (List.mem_range.mp he) hc hc' v).1 m hm
  rw [reducedBlock?_eq]
  simp only [ofInverses, List.filterMap_map, Function.comp_def]
  obtain ⟨hshape, hget⟩ := sumMats_spec (p := c.size) (q := c'.size)
    (l := (ofInverses a v d2 count w).regularizers k l ++
      a.rows.filterMap (BlockRow.tMul? · (count + k) (count + l)) ++
      (List.range count).filterMap fun e =>
        through (w e) ((blockOf a v count w e).coupling? k) ((blockOf a v count w e).coupling? l))
    (by
      intro m hm
      rcases List.mem_append.mp hm with hm | hm
      · rcases List.mem_append.mp hm with hm | hm
        · exact hregularizers.1 m hm
        · exact ha.shape_tMul? hc hc' m hm
      · exact hthrough m hm)
  refine ⟨hshape, fun i hi j hj => (hget i hi j hj).trans ?_⟩
  rw [List.map_append, List.sum_append, List.map_append, List.sum_append,
    hregularizers.2 i hi j hj, ha.sum_tMul? hc hc' hi hj, sub_eq_add_neg,
    ← Finset.sum_neg_distrib, sum_filterMap]
  refine congrArg₂ (· + ·) rfl (congrArg List.sum (List.map_congr_left fun e he => ?_))
  exact (carried_eq ha hw (List.mem_range.mp he) hc hc' v).2 i hi j hj

theorem getElem?_zip_map_range {β : Type} {l : List Block} {b : Block} (f : Nat → β)
    (hb : l[k]? = some b) : (((List.range l.length).map f).zip l)[k]? = some (f k, b) := by
  refine List.getElem?_zip_eq_some.mpr ⟨?_, hb⟩
  rw [List.getElem?_map, List.getElem?_range (List.getElem?_eq_some_iff.mp hb).1, Option.map_some]

/-- The remaining blocks start at the same places whatever they are paired
with. -/
theorem start_eq {β : Type} (s : Elimination ℝ) (f : Nat → β) (k : Nat) :
    s.start k = total (((((List.range s.remaining.length).map f).zip s.remaining).take k).map
      fun p => p.2.size) := by
  have hsnd : (((List.range s.remaining.length).map f).zip s.remaining).map Prod.snd =
      s.remaining := List.map_snd_zip (by simp)
  rw [start, ← map_size_remaining]
  conv_lhs => rw [← hsnd, List.map_map, ← List.map_take]
  rfl

/-- A row of the assembled matrix within a block row. -/
noncomputable def assembledRow (remaining : List Block) (row : List (Option (Mat ℝ))) (i : Nat) :
    Vec ℝ :=
  Vec.concat ((row.zip remaining).map fun q =>
    q.1.elim (Vec.zeros q.2.size) fun m => Vec.ofFn q.2.size fun j => m.get i j)

theorem assemble_eq (s : Elimination ℝ) : s.assemble = Mat.mk s.dimension s.dimension
    ((s.reducedBlocks.zip s.remaining).flatMap fun p => (List.range p.2.size).map fun i =>
      (assembledRow s.remaining p.1 i).entries).toArray := by
  rw [assemble]
  simp only [assembledRow]
  congr
  funext p
  congr
  funext i
  congr
  funext q
  obtain ⟨values, b⟩ := q
  cases values <;> rfl

theorem get_assembledRow {s : Elimination ℝ} (hc' : s.matrix.columns[s.count + l]? = some c')
    (f : Nat → Option (Mat ℝ)) (hj : j < c'.size) :
    (assembledRow s.remaining ((List.range s.remaining.length).map f) i).get (s.start l + j) =
      blockEntry (f l) i j := by
  have hcell := getElem?_zip_map_range f (getElem?_remaining hc')
  have hsize : ∀ q : Option (Mat ℝ) × Block,
      (q.1.elim (Vec.zeros q.2.size) fun m => Vec.ofFn q.2.size fun j => m.get i j).size =
        q.2.size := by
    rintro ⟨_ | m, b⟩
    · exact Vec.size_zeros b.size
    · exact Vec.size_ofFn b.size _
  have hpart := congrArg (Option.map fun q : Option (Mat ℝ) × Block =>
    q.1.elim (Vec.zeros q.2.size) fun m => Vec.ofFn q.2.size fun j => m.get i j) hcell
  rw [← List.getElem?_map, Option.map_some] at hpart
  have hget := Vec.get_concat hpart (i := j) (by rwa [hsize])
  rw [← List.map_take, List.map_map] at hget
  simp only [Function.comp_def, hsize] at hget
  rw [start_eq s f l, assembledRow, hget]
  cases f l with
  | none => exact (Vec.get_zeros _ _)
  | some m => exact Vec.get_ofFn_of_lt _ hj

/-- The assembled matrix holds the entries of the blocks. -/
theorem get_assemble {s : Elimination ℝ} (hc : s.matrix.columns[s.count + k]? = some c)
    (hc' : s.matrix.columns[s.count + l]? = some c') (hi : i < c.size) (hj : j < c'.size) :
    s.assemble.get (s.start k + i) (s.start l + j) = blockEntry (s.reducedBlock? k l) i j := by
  have hrow := getElem?_zip_map_range
    (fun k => (List.range s.remaining.length).map fun l => s.reducedBlock? k l)
    (getElem?_remaining hc)
  rw [assemble_eq, reducedBlocks, start_eq s (fun k =>
    (List.range s.remaining.length).map fun l => s.reducedBlock? k l) k,
    Mat.get_flatMap_rows (fun p => p.2.size) hrow hi]
  exact get_assembledRow hc' _ hj

/-! ## Back substitution -/

/-- An eliminated block, given the remaining ones. -/
noncomputable def substituted (s : Elimination ℝ) (y : Vec ℝ) (e : EliminatedBlock ℝ) : Vec ℝ :=
  e.inverse.mulVec (e.couplings.foldl
    (fun acc p => acc - p.2.mulVec (part y (s.remaining.getD p.1 default))) e.gradient)

theorem backSubstitute_eq (s : Elimination ℝ) (y : Vec ℝ) :
    s.backSubstitute y = Vec.concat (s.eliminated.map (s.substituted y) ++ [y]) := rfl

/-- What the remaining blocks take from an entry of an eliminated one. -/
noncomputable def taken (s : Elimination ℝ) (y : Vec ℝ) (e i : Nat) : ℝ :=
  ∑ k ∈ range (s.matrix.columns.length - s.count),
    ∑ t ∈ range (s.matrix.column (s.count + k)).size,
      s.matrix.gram e i (s.count + k) t * y.get (s.start k + t)

/-- What a remaining block takes by its coupling. -/
theorem elim_taken (ha : a.WellFormed) (hw : Inverts a d2 count w) (he : e < count)
    (hc : a.columns[count + k]? = some c) (hi : i < (a.column e).size) :
    let s := ofInverses a v d2 count w
    (sumMats (a.rows.filterMap (BlockRow.tMul? · e (count + k)))).elim 0
      (fun m => (m.mulVec (part y (s.remaining.getD k default))).get i) =
        ∑ t ∈ range c.size, a.gram e i (count + k) t * y.get (s.start k + t) := by
  intro s
  have hb := hw.getElem? he
  have hstart : c.position - s.offset = s.start k := by
    rw [position_remaining (s := s) ha hc, Nat.add_sub_cancel_left]
  obtain ⟨hshape, hget⟩ := sumMats_spec (ha.shape_tMul? hb hc)
  rw [elim_mulVec hshape hi, List.getD_eq_getElem?_getD, getElem?_remaining (s := s) hc,
    Option.getD_some]
  refine Finset.sum_congr rfl fun t ht => ?_
  have ht := Finset.mem_range.mp ht
  rw [hget i hi t ht, ha.sum_tMul? hb hc hi ht, part, Vec.get_slice ht, hstart]

/-- What the remaining blocks take from an entry of an eliminated one, coupling
by coupling. -/
theorem sum_couplingsOf (ha : a.WellFormed) (hw : Inverts a d2 count w) (he : e < count)
    (hi : i < (a.column e).size) :
    let s := ofInverses a v d2 count w
    ((couplingsOf a count e).map fun p =>
      (p.2.mulVec (part y (s.remaining.getD p.1 default))).get i).sum = s.taken y e i := by
  intro s
  rw [couplingsOf, sum_filterMap, taken]
  refine congrArg List.sum (List.map_congr_left fun k hk => ?_)
  have hk := List.mem_range.mp hk
  have hc := List.getElem?_eq_getElem (show count + k < a.columns.length by omega)
  rw [← BlockMatrix.column_eq hc] at hc
  have htaken : (sumMats (a.rows.filterMap (BlockRow.tMul? · e (count + k)))).elim 0
      (fun m => (m.mulVec (part y (s.remaining.getD k default))).get i) = _ :=
    elim_taken ha hw he hc hi
  refine Eq.trans ?_ htaken
  cases sumMats (a.rows.filterMap (BlockRow.tMul? · e (count + k))) <;> rfl

theorem substituted_spec (ha : a.WellFormed) (hw : Inverts a d2 count w) (he : e < count) :
    let s := ofInverses a v d2 count w
    (s.substituted y (blockOf a v count w e)).size = (a.column e).size ∧
      ∀ i < (a.column e).size, (s.substituted y (blockOf a v count w e)).get i =
        ∑ u ∈ range (a.column e).size, (w e).get i u * (a.moment v e u - s.taken y e u) := by
  intro s
  have hb := hw.getElem? he
  obtain ⟨hrows, hcols⟩ := hw.shape e he _ hb
  obtain ⟨hsize, hgradient⟩ := ownGradient_spec (v := v) ha hb
  obtain ⟨-, hget⟩ := Vec.get_foldl (l := couplingsOf a count e)
    (f := fun acc p => acc - p.2.mulVec (part y (s.remaining.getD p.1 default)))
    (fun p i => -(p.2.mulVec (part y (s.remaining.getD p.1 default))).get i)
    (fun p _ acc hacc => ⟨(Vec.size_sub _ _).trans hacc, fun i hi =>
      (Vec.get_sub (hacc ▸ hi)).trans (sub_eq_add_neg _ _)⟩) hsize
  refine ⟨(Mat.size_mulVec _ _).trans hrows, fun i hi => ?_⟩
  refine (Mat.get_mulVec (a := w e) (hi.trans_eq hrows.symm)).trans ?_
  rw [hcols]
  refine Finset.sum_congr rfl fun u hu => congrArg _ ?_
  have hu := Finset.mem_range.mp hu
  refine (hget u hu).trans ?_
  rw [hgradient u hu, sub_eq_add_neg, ← sum_couplingsOf ha hw he hu, List.sum_neg, List.map_map]
  rfl

theorem offset_add_dimension {α : Type} [Scalar α] (s : Elimination α) :
    s.offset + s.dimension = s.matrix.numCols := by
  have hsplit : s.matrix.numCols =
      s.offset + total ((s.matrix.columns.drop s.count).map Block.size) := by
    rw [offset, ← total_append, ← List.map_append, List.take_append_drop]
    rfl
  rw [dimension]
  omega

theorem map_size_substituted (ha : a.WellFormed) (hw : Inverts a d2 count w) :
    ((List.range count).map fun e => ((ofInverses a v d2 count w).substituted y
      (blockOf a v count w e)).size) = (a.columns.take count).map Block.size := by
  apply List.ext_getElem?
  intro e
  rw [List.getElem?_map, List.getElem?_map]
  by_cases he : e < count
  · rw [List.getElem?_range he, List.getElem?_take_of_lt he, hw.getElem? he, Option.map_some,
      Option.map_some, (substituted_spec ha hw he).1]
  · have hle := Nat.le_of_not_lt he
    rw [List.getElem?_eq_none (by simpa using hle),
      List.getElem?_eq_none (Nat.le_trans (List.length_take_le _ _) hle)]
    rfl

/-- The whole solution, entry by entry: the eliminated blocks come first. -/
theorem get_backSubstitute (ha : a.WellFormed) (hw : Inverts a d2 count w)
    (hy : y.size = (ofInverses a v d2 count w).dimension) :
    let s := ofInverses a v d2 count w
    (s.backSubstitute y).size = a.numCols ∧
      (∀ e < count, ∀ i < (a.column e).size,
        (s.backSubstitute y).get ((a.column e).position + i) =
          ∑ u ∈ range (a.column e).size, (w e).get i u * (a.moment v e u - s.taken y e u)) ∧
      ∀ p < s.dimension, (s.backSubstitute y).get (s.offset + p) = y.get p := by
  intro s
  let front := (List.range count).map fun e => s.substituted y (blockOf a v count w e)
  have hback : s.backSubstitute y = Vec.concat (front ++ [y]) := by
    rw [backSubstitute_eq]
    exact congrArg (fun l => Vec.concat (l ++ [y])) List.map_map
  have hsizes : front.map Vec.size = (a.columns.take count).map Block.size :=
    List.map_map.trans (map_size_substituted ha hw)
  have hlen : front.length = count := by rw [List.length_map, List.length_range]
  have hoffset : total (front.map Vec.size) = s.offset := congrArg total hsizes
  refine ⟨?_, fun e he i hi => ?_, fun p hp => ?_⟩
  · rw [hback, Vec.size_concat, List.map_append, total_append, hoffset, List.map_singleton,
      total_cons, total_nil, Nat.add_zero, hy]
    exact offset_add_dimension s
  · obtain ⟨hsize, hget⟩ := substituted_spec (v := v) (y := y) ha hw he
    have hvec : (front ++ [y])[e]? = some (s.substituted y (blockOf a v count w e)) := by
      rw [List.getElem?_append_left (hlen.symm ▸ he), List.getElem?_map, List.getElem?_range he,
        Option.map_some]
    have hplace : total (((front ++ [y]).take e).map Vec.size) = (a.column e).position := by
      rw [List.take_append_of_le_length (hlen.symm ▸ he.le), List.map_take, hsizes, ← List.map_take,
        List.take_take, Nat.min_eq_left he.le, ha.position_column (hw.getElem? he)]
    rw [hback, ← hplace, Vec.get_concat hvec (hi.trans_eq hsize.symm), hget i hi]
  · have hvec : (front ++ [y])[count]? = some y := by
      rw [List.getElem?_append_right hlen.le, hlen, Nat.sub_self]
      rfl
    have hplace : total (((front ++ [y]).take count).map Vec.size) = s.offset := by
      rw [List.take_append_of_le_length hlen.ge, ← hlen, List.take_length, hoffset]
    rw [hback, ← hplace, Vec.get_concat hvec (hp.trans_eq hy.symm)]

end Elimination

end LeastSquares
