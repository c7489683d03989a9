import LeastSquares.Evaluator
import LeastSquares.Proofs.Program

/-!
# Evaluators read what the problem holds

An evaluator is built once and then reads states. It finds the values of a
block of its program at the block's place in the state, and keeps the values
of every other block from the time it was built. So in a problem that holds
the state, and that agrees with the original problem outside the program,
every residual block is evaluated at the point that the problem has for it.

## Main results

* `Evaluator.create_eq_ok` — what an evaluator is made of.
* `Evaluator.MadeOf.mapM_values` — the points at which terms are evaluated.
-/

namespace LeastSquares

variable {α σ : Type} [Scalar α]

/-! ## Places in lists -/

namespace BlockId

variable {id : BlockId} {ids : List BlockId} {k : Nat}

theorem lastPlace?_eq_none_iff : id.lastPlace? ids = none ↔ id ∉ ids := by
  simp [lastPlace?]

theorem getElem?_of_lastPlace? (h : id.lastPlace? ids = some k) : ids[k]? = some id := by
  obtain ⟨i, hi, rfl⟩ := Option.map_eq_some_iff.mp h
  obtain ⟨hlen, hid, -⟩ := List.idxOf?_eq_some_iff.mp hi
  rw [List.length_reverse] at hlen
  rw [List.getElem_reverse] at hid
  rw [List.getElem?_eq_getElem (by omega)]
  exact congrArg some hid

/-- Among distinct handles a place and its handle determine each other. -/
theorem lastPlace?_eq_some_iff (hn : ids.Nodup) :
    id.lastPlace? ids = some k ↔ ids[k]? = some id := by
  refine ⟨getElem?_of_lastPlace?, fun h => ?_⟩
  cases hplace : id.lastPlace? ids with
  | none => exact absurd (List.mem_of_getElem? h) (lastPlace?_eq_none_iff.mp hplace)
  | some l =>
      have hl := getElem?_of_lastPlace? hplace
      obtain ⟨hlt, -⟩ := List.getElem?_eq_some_iff.mp hl
      rw [(List.getElem?_inj hlt hn).mp (hl.trans h.symm)]

end BlockId

/-- The column block that a source leads to. -/
def BlockSource.column? : BlockSource α → Option Nat
  | .free k => some k
  | .constant _ => none

omit [Scalar α] in
theorem BlockSource.eq_free {s : BlockSource α} {k : Nat} (h : s.column? = some k) :
    s = .free k := by
  cases s with
  | free l => exact congrArg _ (Option.some.inj h)
  | constant values => cases h

omit [Scalar α] in
theorem ResidualTerm.columns_eq (t : ResidualTerm α σ) :
    t.columns = t.sources.filterMap BlockSource.column? := by
  refine List.filterMap_congr fun s _ => ?_
  cases s <;> rfl

omit [Scalar α] in
theorem ResidualTerm.mem_columns_iff {t : ResidualTerm α σ} {k : Nat} : k ∈ t.columns ↔
    ∃ i, t.sources.findIdx? (fun s => s.column? == some k) = some i := by
  rw [← Option.isSome_iff_exists, List.findIdx?_isSome, List.any_eq_true, columns_eq,
    List.mem_filterMap]
  simp only [beq_iff_eq]

omit [Scalar α] in
theorem BlockSource.getElem?_of_findIdx? {l : List (BlockSource α)} {i k : Nat}
    (h : l.findIdx? (fun s => s.column? == some k) = some i) : l[i]? = some (.free k) := by
  obtain ⟨hlt, hcolumn, -⟩ := List.findIdx?_eq_some_iff_getElem.mp h
  rw [List.getElem?_eq_getElem hlt, BlockSource.eq_free (eq_of_beq hcolumn)]

namespace Evaluator

open Problem (SameContent SameShape)
open Program (HoldsFrom)

variable {p q : Problem α σ} {g : Program} {e : Evaluator α σ} {kind : LinearSolverKind}
  {eliminated : Nat} {check : Option (GradientCheck α)}

/-! ## Free blocks -/

theorem freeBlocks_cons {stateOffset deltaOffset : Nat} {id : BlockId} {ids : List BlockId}
    {blocks : List (FreeBlock α)} :
    freeBlocks p stateOffset deltaOffset (id :: ids) = .ok blocks ↔
      ∃ b, p.block? id = some b ∧ ∃ rest,
        freeBlocks p (stateOffset + b.size) (deltaOffset + b.localSize) ids = .ok rest ∧
        ⟨id, stateOffset, b.size, deltaOffset, b.localSize, b.manifold⟩ :: rest = blocks := by
  rw [freeBlocks]
  cases hb : p.block? id with
  | none => simp [Problem.block_eq_error hb]
  | some b =>
      simp only [Problem.block_eq_ok.mpr hb, except_map_eq_ok, Option.some.injEq, exists_eq_left']

theorem map_id_freeBlocks {stateOffset deltaOffset : Nat} {ids : List BlockId}
    {blocks : List (FreeBlock α)} (h : freeBlocks p stateOffset deltaOffset ids = .ok blocks) :
    blocks.map FreeBlock.id = ids := by
  induction ids generalizing stateOffset deltaOffset blocks with
  | nil =>
      cases h
      rfl
  | cons id ids ih =>
      obtain ⟨b, -, rest, hrest, rfl⟩ := freeBlocks_cons.mp h
      rw [List.map_cons, ih hrest]

theorem total_size_freeBlocks {stateOffset deltaOffset : Nat} {ids : List BlockId}
    {blocks : List (FreeBlock α)} (h : freeBlocks p stateOffset deltaOffset ids = .ok blocks) :
    Program.sumBlocks ParameterBlock.size p ids = .ok (total (blocks.map FreeBlock.size)) := by
  induction ids generalizing stateOffset deltaOffset blocks with
  | nil =>
      cases h
      rfl
  | cons id ids ih =>
      obtain ⟨b, hb, rest, hrest, rfl⟩ := freeBlocks_cons.mp h
      exact Program.sumBlocks_cons.mpr ⟨b, hb, _, ih hrest, rfl⟩

/-- In a problem that holds a state, free blocks have the values that they
have in the state. -/
theorem valuesIn_of_holdsFrom {stateOffset deltaOffset : Nat} {ids : List BlockId}
    {blocks : List (FreeBlock α)} (h : freeBlocks p stateOffset deltaOffset ids = .ok blocks)
    (hs : SameShape p q) {x : Vec α} (hq : HoldsFrom q x stateOffset ids) :
    ∀ b ∈ blocks, q.values b.id = .ok (b.valuesIn x) := by
  induction ids generalizing stateOffset deltaOffset blocks with
  | nil =>
      cases h
      simp
  | cons id ids ih =>
      obtain ⟨b, hb, rest, hrest, rfl⟩ := freeBlocks_cons.mp h
      obtain ⟨c, hc, hcv, hqrest⟩ := hq
      obtain ⟨c', hc', hshape⟩ := hs.block?_left hb
      rw [hc] at hc'
      cases hc'
      rw [hshape.size] at hcv hqrest
      intro fb hfb
      rcases List.mem_cons.mp hfb with rfl | hfb
      · exact Problem.values_eq_ok.mpr ⟨c, hc, hcv⟩
      · exact ih hrest hqrest fb hfb

/-! ## Building -/

theorem term_eq_ok {ids : List BlockId} {i : ResidualId} {t : ResidualTerm α σ} :
    term p ids i = .ok t ↔ ∃ r, p.residual? i = some r ∧
      ∃ sources, r.blocks.mapM (source p ids) = .ok sources ∧ ⟨i, r.cost, r.loss, sources⟩ = t := by
  simp only [term, except_bind_eq_ok, except_pure_eq_ok, Problem.residual_eq_ok]

/-- What an evaluator is made of. -/
structure MadeOf (e : Evaluator α σ) (p : Problem α σ) (g : Program) : Prop where
  blocks : freeBlocks p 0 0 g.blocks = .ok e.blocks
  terms : g.residuals.mapM (term p g.blocks) = .ok e.terms
  fits : e.layout.misfitOf? (e.terms.map ResidualTerm.columns) = none
  template : e.template = templateOf (e.blocks.map FreeBlock.localSize) e.terms

theorem create_eq_ok (h : create p g kind eliminated check = .ok e) :
    e.MadeOf p g ∧ e.layout = .ofSolver kind eliminated ∧ e.check = check := by
  unfold create at h
  simp only [except_bind_eq_ok] at h
  obtain ⟨blocks, hblocks, terms, hterms, h⟩ := h
  split at h
  · cases h
  · rename_i hfits
    cases h
    exact ⟨⟨hblocks, hterms, hfits, rfl⟩, rfl, rfl⟩

theorem MadeOf.forall₂_terms (h : e.MadeOf p g) :
    List.Forall₂ (fun i t => term p g.blocks i = .ok t) g.residuals e.terms :=
  mapM_eq_ok_iff.mp h.terms

theorem MadeOf.numParameters (h : e.MadeOf p g) : g.numParameters p = .ok e.numParameters :=
  total_size_freeBlocks h.blocks

/-! ## Points -/

theorem source_eq_ok {ids : List BlockId} {id : BlockId} {s : BlockSource α}
    (h : source p ids id = .ok s) :
    (∃ k, id.lastPlace? ids = some k ∧ s = .free k) ∨
      id ∉ ids ∧ ∃ v, p.values id = .ok v ∧ s = .constant v := by
  unfold source at h
  split at h
  · rename_i k hk
    cases h
    exact .inl ⟨k, hk, rfl⟩
  · rename_i hk
    obtain ⟨v, hv, rfl⟩ := except_map_eq_ok.mp h
    exact .inr ⟨BlockId.lastPlace?_eq_none_iff.mp hk, v, hv, rfl⟩

theorem column?_of_source {ids : List BlockId} {id : BlockId} {s : BlockSource α}
    (h : source p ids id = .ok s) : s.column? = id.lastPlace? ids := by
  rcases source_eq_ok h with ⟨k, hk, rfl⟩ | ⟨hid, v, -, rfl⟩
  · exact hk.symm
  · exact (BlockId.lastPlace?_eq_none_iff.mpr hid).symm

/-- The column blocks that a term reads are the places of the blocks that its
residual block reads. -/
theorem columns_of_term {ids : List BlockId} {i : ResidualId} {t : ResidualTerm α σ}
    (h : term p ids i = .ok t) : ∃ r, p.residual? i = some r ∧
      t.columns = r.blocks.filterMap fun id => id.lastPlace? ids := by
  obtain ⟨r, hr, sources, hsources, rfl⟩ := term_eq_ok.mp h
  refine ⟨r, hr, ?_⟩
  have hmap : r.blocks.map (fun id => id.lastPlace? ids) = sources.map BlockSource.column? :=
    map_eq_map_of_forall₂ (mapM_eq_ok_iff.mp hsources) fun _ _ hs => (column?_of_source hs).symm
  have hcolumns := congrArg (List.filterMap id) hmap
  rw [List.filterMap_map, List.filterMap_map] at hcolumns
  rw [ResidualTerm.columns_eq]
  exact hcolumns.symm

/-- The values that a source stands for in a state are those of its block, in
a problem that holds the state and is as before outside the program. -/
theorem MadeOf.values_of_source (h : e.MadeOf p g) (hs : SameShape p q) {x : Vec α}
    (hq : g.Holds q x) (hout : ∀ id, id ∉ g.blocks → q.values id = p.values id) {id : BlockId}
    {s : BlockSource α} (hsource : source p g.blocks id = .ok s) :
    q.values id = .ok (e.valuesOf x s) := by
  rcases source_eq_ok hsource with ⟨k, hk, rfl⟩ | ⟨hid, v, hv, rfl⟩
  · have hget := BlockId.getElem?_of_lastPlace? hk
    rw [← map_id_freeBlocks h.blocks, List.getElem?_map, Option.map_eq_some_iff] at hget
    obtain ⟨b, hb, rfl⟩ := hget
    rw [valuesIn_of_holdsFrom h.blocks hs hq.entries b (List.mem_of_getElem? hb)]
    simp only [valuesOf, hb]
  · rw [hout id hid, hv]
    rfl

/-- A term is evaluated at the point that its residual block has in such a
problem. -/
theorem MadeOf.mapM_values (h : e.MadeOf p g) (hs : SameShape p q) {x : Vec α}
    (hq : g.Holds q x) (hout : ∀ id, id ∉ g.blocks → q.values id = p.values id)
    {i : ResidualId} {t : ResidualTerm α σ} (ht : term p g.blocks i = .ok t) :
    ∃ r, q.residual? i = some r ∧ t.cost = r.cost ∧ t.loss = r.loss ∧
      r.blocks.mapM q.values = .ok (e.pointOf x t) := by
  obtain ⟨r, hr, sources, hsources, rfl⟩ := term_eq_ok.mp ht
  refine ⟨r, by rw [hs.residual?, hr], rfl, rfl, mapM_eq_ok_iff.mpr ?_⟩
  rw [pointOf, List.forall₂_map_right_iff]
  refine (mapM_eq_ok_iff.mp hsources).imp fun id s hid => ?_
  exact h.values_of_source hs hq hout hid

end Evaluator

end LeastSquares
