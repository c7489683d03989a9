import LeastSquares.Minimizer.CoordinateDescent
import LeastSquares.Proofs.Cost
import LeastSquares.Proofs.Exploration
import LeastSquares.Proofs.Placement

/-!
# One block at a time

An evaluator in which only one block moves is an evaluator like any other: its
one block lies at the start of the state, and its terms read that block and
constants. A term is evaluated where the whole evaluator would evaluate it,
had the block the new values and all others the ones at which they are held.

The points at which terms are evaluated have the sizes that the cost functions
declare, and holding blocks does not change that.

## Main definitions

* `Evaluator.Sized` — points have the declared sizes.
* `Evaluator.Apart` — no term reads both blocks.
* `CoordinateDescent.Independent` — the blocks of every group are apart.

## Main results

* `Evaluator.pointOf_restrictTo` — where a term is evaluated.
* `Evaluator.WellFormed.restrictTo`, `Evaluator.Placed.restrictTo`,
  `Evaluator.Sized.restrictTo`, `Evaluator.Pure.restrictTo` — what a
  restriction takes over.
-/

namespace LeastSquares

namespace Evaluator

variable {α σ : Type} [Scalar α] {e : Evaluator α σ} {b : FreeBlock α} {k : Nat} {x v : Vec α}
  {t : ResidualTerm α σ}

theorem blocks_restrictTo (hb : e.blocks[k]? = some b) : (e.restrictTo k x).blocks =
    [{ b with stateOffset := 0, deltaOffset := 0 }] := by
  simp only [restrictTo, hb]
  rfl

theorem exists_of_mem_terms_restrictTo (h : t ∈ (e.restrictTo k x).terms) :
    ∃ t' ∈ e.terms, t = { t' with sources := t'.sources.map (e.restrictSource k x) } := by
  obtain ⟨t', ht', rfl⟩ := List.mem_map.mp h
  exact ⟨t', (List.mem_filter.mp ht').1, rfl⟩

omit [Scalar α] in
theorem mem_columns_of_source (h : BlockSource.free k ∈ t.sources) : k ∈ t.columns := by
  rw [ResidualTerm.columns_eq]
  exact List.mem_filterMap.mpr ⟨_, h, rfl⟩

/-- Where a term is evaluated depends on the blocks that it reads. -/
theorem pointOf_congr {y : Vec α} (h : ∀ l ∈ t.columns, ∀ c, e.blocks[l]? = some c →
    c.valuesIn y = c.valuesIn x) : e.pointOf y t = e.pointOf x t := by
  refine List.map_congr_left fun s hs => ?_
  cases s with
  | constant values => rfl
  | free l =>
      simp only [valuesOf]
      split
      · exact h l (mem_columns_of_source hs) _ ‹_›
      · rfl

/-- Where a term is evaluated while only one block moves: where all others are
held, and the one block has its new values. -/
theorem pointOf_restrictTo (he : e.Placed) (hb : e.blocks[k]? = some b)
    (hx : x.size = e.numParameters) (hv : v.size = b.size) :
    (e.restrictTo k x).pointOf v { t with sources := t.sources.map (e.restrictSource k x) } =
      e.pointOf (x.splice b.stateOffset v) t := by
  have hblock : (e.restrictTo k x).blocks[0]? =
      some { b with stateOffset := 0, deltaOffset := 0 } := by rw [blocks_restrictTo hb]; rfl
  rw [pointOf, pointOf, List.map_map]
  refine List.map_congr_left fun s _ => ?_
  cases s with
  | constant values => rfl
  | free l =>
      rw [Function.comp_apply, restrictSource]
      by_cases hl : l = k
      · subst hl
        rw [if_pos rfl, valuesOf, hblock, valuesOf, hb]
        show v.slice 0 b.size = b.valuesIn (x.splice b.stateOffset v)
        rw [he.valuesIn_splice hb hx hv, ← hv, Vec.slice_zero]
      · rw [if_neg hl, valuesOf]
        cases hc : e.blocks[l]? with
        | none => simp only [valuesOf]
        | some c =>
            simp only [valuesOf]
            exact (he.valuesIn_splice_of_ne hb hc (Ne.symm hl) hv).symm

theorem numParameters_restrictTo (hb : e.blocks[k]? = some b) :
    (e.restrictTo k x).numParameters = b.size := by
  rw [numParameters, blocks_restrictTo hb]
  rfl

theorem Pure.restrictTo (he : e.Pure) (k : Nat) (x : Vec α) : (e.restrictTo k x).Pure := by
  intro t ht
  obtain ⟨t', ht', rfl⟩ := exists_of_mem_terms_restrictTo ht
  exact he t' ht'

theorem Placed.restrictTo (hb : e.blocks[k]? = some b) : (e.restrictTo k x).Placed := by
  intro l c hc
  rw [blocks_restrictTo hb] at hc ⊢
  match l with
  | 0 =>
      cases hc
      rfl
  | l + 1 => cases hc

/-- A source in the restricted evaluator moves if its block does. -/
theorem column?_restrictSource (s : BlockSource α) : (e.restrictSource k x s).column? =
    s.column?.bind fun l => if l = k then some 0 else none := by
  cases s with
  | constant values => rfl
  | free l =>
      rw [restrictSource]
      by_cases hl : l = k
      · rw [if_pos hl]
        simp only [BlockSource.column?, Option.bind_some, if_pos hl]
      · rw [if_neg hl]
        simp only [BlockSource.column?, Option.bind_some, if_neg hl]
        cases e.blocks[l]? <;> rfl

/-- A term reads the block that moves once. -/
theorem nodup_columns_restrictTo (h : t.columns.Nodup) :
    ({ t with sources := t.sources.map (e.restrictSource k x) } :
      ResidualTerm α σ).columns.Nodup := by
  have hcolumns : ({ t with sources := t.sources.map (e.restrictSource k x) } :
      ResidualTerm α σ).columns =
        t.columns.filterMap fun l => if l = k then some 0 else none := by
    rw [ResidualTerm.columns_eq, ResidualTerm.columns_eq, List.filterMap_map,
      List.filterMap_filterMap]
    exact List.filterMap_congr fun s _ => column?_restrictSource s
  rw [hcolumns]
  refine List.Nodup.filterMap (fun l l' m hl hl' => ?_) h
  rw [Option.mem_def] at hl hl'
  split at hl
  · split at hl'
    · exact ‹l = k›.trans ‹l' = k›.symm
    · cases hl'
  · cases hl

theorem WellFormed.restrictTo (he : e.WellFormed) (hb : e.blocks[k]? = some b) :
    (e.restrictTo k x).WellFormed := by
  have hblocks : ∀ c ∈ (e.restrictTo k x).blocks,
      c = { b with stateOffset := 0, deltaOffset := 0 } := by
    rw [blocks_restrictTo hb]
    exact fun c hc => List.mem_singleton.mp hc
  have hmem : b ∈ e.blocks := List.mem_of_getElem? hb
  refine ⟨fun l c hc => ?_, fun c hc => ?_, fun c hc => ?_, fun t ht => ?_, fun t ht => ?_, rfl⟩
  · rw [blocks_restrictTo hb] at hc ⊢
    match l with
    | 0 =>
        cases hc
        rfl
    | l + 1 => cases hc
  · rw [hblocks c hc]
    exact he.manifold b hmem
  · rw [hblocks c hc]
    exact he.euclidean b hmem
  · obtain ⟨t', ht', rfl⟩ := exists_of_mem_terms_restrictTo ht
    exact nodup_columns_restrictTo (he.distinct t' ht')
  · obtain ⟨t', ht', rfl⟩ := exists_of_mem_terms_restrictTo ht
    refine List.forall₂_map_left_iff.mpr ((he.sources t' ht').imp ?_)
    intro s n hs l hl
    -- only the source of the moving block stays free
    have hcolumn := congrArg BlockSource.column? hl
    rw [column?_restrictSource, show (BlockSource.free l : BlockSource α).column? = some l from rfl,
      Option.bind_eq_some_iff] at hcolumn
    obtain ⟨m, hm, hml⟩ := hcolumn
    split at hml
    · rename_i hmk
      subst hmk
      cases hml
      obtain ⟨c, hc, hsize⟩ := hs m (BlockSource.eq_free hm)
      rw [hb] at hc
      cases hc
      refine ⟨{ b with stateOffset := 0, deltaOffset := 0 }, ?_, hsize⟩
      rw [blocks_restrictTo hb]
      rfl
    · cases hml

/-! ## Sizes of points -/

/-- The points at which terms are evaluated have the sizes that the cost
functions declare. -/
def Sized (e : Evaluator α σ) : Prop :=
  ∀ t ∈ e.terms, ∀ x, (e.pointOf x t).map Vec.size = t.cost.sizes

theorem MadeOf.sized {p : Problem α σ} {g : Program} (h : e.MadeOf p g) (hp : p.Coherent) :
    e.Sized := by
  intro t ht x
  obtain ⟨i, -, hterm⟩ := exists_left_of_forall₂ h.forall₂_terms t ht
  obtain ⟨r, hr, sources, hsources, rfl⟩ := term_eq_ok.mp hterm
  have hsizes : List.Forall₂ (fun s n => (e.valuesOf x s).size = n) sources r.cost.sizes := by
    refine forall₂_of_common (mapM_eq_ok_iff.mp hsources) (hp.sizes i r hr) ?_
    rintro id s n hs ⟨pb, hpb, rfl⟩
    rcases source_eq_ok hs with ⟨k, hk, rfl⟩ | ⟨-, values, hvalues, rfl⟩
    · have hget := BlockId.getElem?_of_lastPlace? hk
      rw [← map_id_freeBlocks h.blocks, List.getElem?_map, Option.map_eq_some_iff] at hget
      obtain ⟨b, hb, rfl⟩ := hget
      obtain ⟨-, pb', hpb', hsize, -, -⟩ := place_freeBlocks h.blocks hb
      rw [hpb] at hpb'
      cases hpb'
      rw [valuesOf, hb]
      exact (Vec.size_slice _ _ _).trans hsize
    · obtain ⟨pb', hpb', rfl⟩ := Problem.values_eq_ok.mp hvalues
      rw [hpb] at hpb'
      cases hpb'
      rfl
  rw [pointOf, List.map_map]
  exact (map_eq_map_of_forall₂ hsizes fun s n h => h).trans (List.map_id _)

theorem Sized.restrictTo (he : e.Sized) (hb : e.blocks[k]? = some b) :
    (e.restrictTo k x).Sized := by
  intro t ht v
  obtain ⟨t', ht', rfl⟩ := exists_of_mem_terms_restrictTo ht
  rw [← he t' ht' x, pointOf, pointOf, List.map_map, List.map_map, List.map_map]
  refine List.map_congr_left fun s _ => ?_
  cases s with
  | constant values => rfl
  | free l =>
      simp only [Function.comp_apply, restrictSource]
      by_cases hl : l = k
      · subst hl
        rw [if_pos rfl, valuesOf, blocks_restrictTo hb, valuesOf, hb]
        exact (Vec.size_slice _ _ _).trans (Vec.size_slice _ _ _).symm
      · rw [if_neg hl, valuesOf]
        cases e.blocks[l]? <;> rfl

/-! ## Blocks that are apart -/

/-- No term reads both blocks. -/
def Apart (e : Evaluator α σ) (k l : Nat) : Prop :=
  ∀ t ∈ e.terms, ¬ (k ∈ t.columns ∧ l ∈ t.columns)

end Evaluator

/-- No two blocks of a group share a term. -/
def CoordinateDescent.Independent {α σ : Type} [Scalar α] (c : CoordinateDescent)
    (e : Evaluator α σ) : Prop := ∀ group ∈ c.groups, group.Pairwise e.Apart

end LeastSquares
