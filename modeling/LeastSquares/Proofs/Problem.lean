import LeastSquares.Problem.Program
import LeastSquares.Proofs.Traversal
import Mathlib.Data.List.Nodup

/-!
# What a problem holds

A live handle leads to a block, and changing that block changes what the
handle leads to and nothing else. Two problems are alike if they have the
same residual blocks and, slot by slot, blocks that stand in a given
relation; everything that is asked of a problem through handles then has
related answers.

## Main definitions

* `Problem.Alike` — problems alike up to a relation of blocks.
* `ParameterBlock.SameContent`, `ParameterBlock.SameShape` — blocks that
  differ in their noted places only, and blocks that differ in these and in
  their values.

## Main results

* `Problem.block?_modifyBlock` — what a changed problem holds.
* `Problem.mem_blocks`, `Problem.nodup_blockIds` — the live handles.
* `Problem.Alike.modifyBlock` — changing a block to a related one.
-/

namespace LeastSquares

variable {α σ : Type} [Scalar α]

namespace ParameterBlock

/-- The blocks differ in their noted places at most. -/
structure SameContent (b c : ParameterBlock α) : Prop where
  values : c.values = b.values
  manifold : c.manifold = b.manifold
  constant : c.constant = b.constant

/-- The blocks differ in their noted places and their values at most. -/
structure SameShape (b c : ParameterBlock α) : Prop where
  size : c.size = b.size
  manifold : c.manifold = b.manifold
  constant : c.constant = b.constant

theorem SameContent.rfl {b : ParameterBlock α} : SameContent b b :=
  ⟨Eq.refl _, Eq.refl _, Eq.refl _⟩

theorem SameContent.symm {b c : ParameterBlock α} (h : SameContent b c) : SameContent c b :=
  ⟨h.values.symm, h.manifold.symm, h.constant.symm⟩

theorem SameContent.trans {b c d : ParameterBlock α} (h : SameContent b c)
    (h' : SameContent c d) : SameContent b d :=
  ⟨h'.values.trans h.values, h'.manifold.trans h.manifold, h'.constant.trans h.constant⟩

theorem SameContent.sameShape {b c : ParameterBlock α} (h : SameContent b c) : SameShape b c :=
  ⟨congrArg Vec.size h.values, h.manifold, h.constant⟩

theorem SameShape.rfl {b : ParameterBlock α} : SameShape b b := ⟨Eq.refl _, Eq.refl _, Eq.refl _⟩

theorem SameShape.trans {b c d : ParameterBlock α} (h : SameShape b c)
    (h' : SameShape c d) : SameShape b d :=
  ⟨h'.size.trans h.size, h'.manifold.trans h.manifold, h'.constant.trans h.constant⟩

theorem sameContent_note (place : Program.Place) (b : ParameterBlock α) :
    SameContent b (place.note b) := ⟨Eq.refl _, Eq.refl _, Eq.refl _⟩

end ParameterBlock

namespace Problem

variable {p q r : Problem α σ} {id id' : BlockId} {b c : ParameterBlock α}

/-! ## Handles -/

theorem block_eq_ok : p.block id = .ok b ↔ p.block? id = some b := by
  unfold block
  cases p.block? id with
  | none => simp
  | some c => simp

theorem block_eq_error (h : p.block? id = none) : p.block id = .error (.unknownBlock id) := by
  unfold block
  rw [h]

theorem values_eq_ok {v : Vec α} :
    p.values id = .ok v ↔ ∃ b, p.block? id = some b ∧ b.values = v := by
  simp only [values, except_map_eq_ok, block_eq_ok]

theorem residual_eq_ok {i : ResidualId} {r : ResidualBlock α σ} :
    p.residual i = .ok r ↔ p.residual? i = some r := by
  unfold residual
  cases p.residual? i with
  | none => simp
  | some c => simp

theorem contains_iff : p.contains id = true ↔ ∃ b, p.block? id = some b := by
  rw [contains, Option.isSome_iff_exists]

/-- What a handle leads to is a matter of its slot. -/
theorem block?_congr (h : q.slots[id.slot.toNat]? = p.slots[id.slot.toNat]?) :
    q.block? id = p.block? id := by
  rw [block?, block?, h]

theorem contains_congr (h : q.slots[id.slot.toNat]? = p.slots[id.slot.toNat]?) :
    q.contains id = p.contains id := by
  rw [contains, contains, block?_congr h]

/-- A list of handles that was looked up, each with whether its block is held
constant. The handles are live, and those of free blocks can be picked out. -/
theorem constancies_eq_ok {ids : List BlockId} {constancies : List (BlockId × Bool)}
    (h : (ids.mapM fun id => (p.block id).map fun b => (id, b.constant)) = .ok constancies) :
    (∀ id ∈ ids, p.contains id = true) ∧
      ∀ id, id ∈ (constancies.filter fun c => !c.2).map Prod.fst ↔
        id ∈ ids ∧ ∃ b, p.block? id = some b ∧ b.constant = false := by
  rw [mapM_eq_ok_iff] at h
  have hpair : ∀ {id : BlockId} {c : BlockId × Bool},
      (p.block id).map (fun b => (id, b.constant)) = .ok c ↔
        ∃ b, p.block? id = some b ∧ (id, b.constant) = c := by
    intro id c
    simp only [except_map_eq_ok, block_eq_ok]
  refine ⟨fun id hid => ?_, fun id => ?_⟩
  · obtain ⟨c, -, hc⟩ := exists_right_of_forall₂ h id hid
    obtain ⟨b, hb, -⟩ := hpair.mp hc
    exact contains_iff.mpr ⟨b, hb⟩
  · simp only [List.mem_map, List.mem_filter]
    constructor
    · rintro ⟨c, ⟨hc, hfree⟩, rfl⟩
      obtain ⟨id, hid, hidc⟩ := exists_left_of_forall₂ h c hc
      obtain ⟨b, hb, rfl⟩ := hpair.mp hidc
      exact ⟨hid, b, hb, by simpa using hfree⟩
    · rintro ⟨hid, b, hb, hconst⟩
      obtain ⟨c, hc, hidc⟩ := exists_right_of_forall₂ h id hid
      obtain ⟨b', hb', rfl⟩ := hpair.mp hidc
      rw [hb] at hb'
      cases hb'
      exact ⟨(id, b.constant), ⟨hc, by simp [hconst]⟩, rfl⟩

theorem exists_constancies {ids : List BlockId} (h : ∀ id ∈ ids, p.contains id = true) :
    ∃ constancies,
      (ids.mapM fun id => (p.block id).map fun b => (id, b.constant)) = .ok constancies := by
  refine exists_mapM_eq_ok fun id hid => ?_
  obtain ⟨b, hb⟩ := contains_iff.mp (h id hid)
  exact ⟨(id, b.constant), except_map_eq_ok.mpr ⟨b, block_eq_ok.mpr hb, rfl⟩⟩

theorem block?_eq_some_iff : p.block? id = some b ↔
    ∃ slot, p.slots[id.slot.toNat]? = some slot ∧ slot.generation = id.generation ∧
      slot.block = some b := by
  unfold block?
  cases p.slots[id.slot.toNat]? with
  | none => simp
  | some slot =>
      simp only [Option.some.injEq, exists_eq_left']
      split
      · simp_all
      · simp_all

theorem slot_lt_of_contains (h : p.contains id = true) : id.slot.toNat < p.slots.size := by
  obtain ⟨b, hb⟩ := contains_iff.mp h
  obtain ⟨slot, hslot, -⟩ := block?_eq_some_iff.mp hb
  exact (Array.getElem?_eq_some_iff.mp hslot).1

/-- There is at most one live handle of a slot. -/
theorem eq_of_slot_eq (h : p.block? id = some b) (h' : p.block? id' = some c)
    (hs : id'.slot = id.slot) : id' = id := by
  obtain ⟨s, hs1, hg, -⟩ := block?_eq_some_iff.mp h
  obtain ⟨s', hs1', hg', -⟩ := block?_eq_some_iff.mp h'
  rw [hs, hs1] at hs1'
  cases hs1'
  cases id
  cases id'
  simp_all

theorem block?_modifyBlock_of_slot (f : ParameterBlock α → ParameterBlock α) :
    (p.modifyBlock id f).block? id' =
      if id'.slot = id.slot then (p.block? id').map f else p.block? id' := by
  unfold block? modifyBlock
  simp only [Array.getElem?_modify]
  by_cases hs : id'.slot = id.slot
  · simp only [hs, if_true]
    cases p.slots[id.slot.toNat]? with
    | none => rfl
    | some slot =>
        simp only [Option.map_some]
        split <;> rfl
  · have hn : ¬ id.slot.toNat = id'.slot.toNat := fun h => hs (UInt32.toNat_inj.mp h).symm
    simp only [hs, hn, if_false]

/-- Changing the block of a live handle changes what this handle leads to. -/
theorem block?_modifyBlock (h : p.block? id = some b) (f : ParameterBlock α → ParameterBlock α) :
    (p.modifyBlock id f).block? id' = if id' = id then some (f b) else p.block? id' := by
  rw [block?_modifyBlock_of_slot]
  by_cases hid : id' = id
  · subst hid
    simp [h]
  · rw [if_neg hid]
    split
    · rename_i hs
      cases hc : p.block? id' with
      | none => rfl
      | some c => exact absurd (eq_of_slot_eq h hc hs) hid
    · rfl

/-- Two changes of one block are one change. -/
theorem modifyBlock_modifyBlock (f g : ParameterBlock α → ParameterBlock α) :
    (p.modifyBlock id f).modifyBlock id g = p.modifyBlock id (g ∘ f) := by
  have hslots : (p.modifyBlock id f).slots.modify id.slot.toNat
      (fun slot => { slot with block := slot.block.map g }) =
      (p.modifyBlock id (g ∘ f)).slots := by
    refine Array.ext_getElem? fun i => ?_
    simp only [modifyBlock, Array.getElem?_modify]
    split
    · simp only [Option.map_map, Function.comp_def]
    · rfl
  rw [modifyBlock, hslots]
  rfl

/-- Changes of blocks in different slots commute. -/
theorem modifyBlock_comm (h : id'.slot ≠ id.slot) (f g : ParameterBlock α → ParameterBlock α) :
    (p.modifyBlock id f).modifyBlock id' g = (p.modifyBlock id' g).modifyBlock id f := by
  have hne : id'.slot.toNat ≠ id.slot.toNat := fun heq => h (UInt32.toNat_inj.mp heq)
  have hslots : (p.modifyBlock id f).slots.modify id'.slot.toNat
      (fun slot => { slot with block := slot.block.map g }) =
      (p.modifyBlock id' g).slots.modify id.slot.toNat
        fun slot => { slot with block := slot.block.map f } := by
    refine Array.ext_getElem? fun i => ?_
    simp only [modifyBlock, Array.getElem?_modify]
    by_cases hi : id'.slot.toNat = i
    · rw [if_pos hi, if_neg (hi ▸ hne.symm), if_neg (hi ▸ hne.symm), if_pos hi]
    · rw [if_neg hi, if_neg hi]
  rw [modifyBlock, hslots]
  rfl

/-! ## Live handles -/

private theorem getElem?_blocks {i : Nat} :
    (p.slots.toList.mapIdx fun i slot =>
      slot.block.map fun b => ((⟨UInt32.ofNat i, slot.generation⟩ : BlockId), b))[i]? =
    p.slots[i]?.map fun slot =>
      slot.block.map fun b => ((⟨UInt32.ofNat i, slot.generation⟩ : BlockId), b) := by
  rw [List.getElem?_mapIdx, Array.getElem?_toList]

/-- The blocks of a problem are those that live handles lead to. -/
theorem mem_blocks (hp : p.slots.size ≤ UInt32.size) :
    (id, b) ∈ p.blocks ↔ p.block? id = some b := by
  rw [blocks, List.mem_filterMap]
  simp only [id_eq, exists_eq_right, List.mem_iff_getElem?, getElem?_blocks,
    Option.map_eq_some_iff, Prod.mk.injEq, block?_eq_some_iff]
  constructor
  · rintro ⟨i, slot, hslot, c, hc, rfl, rfl⟩
    have hi : i < UInt32.size := by
      have := (Array.getElem?_eq_some_iff.mp hslot).1
      omega
    refine ⟨slot, ?_, rfl, hc⟩
    rwa [UInt32.toNat_ofNat_of_lt' hi]
  · rintro ⟨slot, hslot, hg, hb⟩
    refine ⟨id.slot.toNat, slot, hslot, b, hb, ?_, rfl⟩
    rw [hg, UInt32.ofNat_toNat]

theorem mem_blockIds (hp : p.slots.size ≤ UInt32.size) :
    id ∈ p.blockIds ↔ p.contains id = true := by
  rw [contains_iff, blockIds, List.mem_map]
  constructor
  · rintro ⟨⟨i, b⟩, hb, rfl⟩
    exact ⟨b, (mem_blocks hp).mp hb⟩
  · rintro ⟨b, hb⟩
    exact ⟨(id, b), (mem_blocks hp).mpr hb, rfl⟩

theorem blockIds_eq : p.blockIds = (p.slots.toList.mapIdx fun i slot =>
    slot.block.map fun _ =>
      (⟨UInt32.ofNat i, slot.generation⟩ : BlockId)).filterMap fun o => o := by
  have hmap : (p.slots.toList.mapIdx fun i slot =>
      slot.block.map fun _ => (⟨UInt32.ofNat i, slot.generation⟩ : BlockId)) =
      (p.slots.toList.mapIdx fun i slot => slot.block.map fun b =>
        ((⟨UInt32.ofNat i, slot.generation⟩ : BlockId), b)).map (Option.map Prod.fst) := by
    refine List.ext_getElem? fun i => ?_
    simp only [List.getElem?_map, List.getElem?_mapIdx, Option.map_map, Function.comp_def]
  rw [blockIds, blocks, hmap, List.map_filterMap, List.filterMap_map]
  rfl

/-- No handle is listed twice. -/
theorem nodup_blockIds (hp : p.slots.size ≤ UInt32.size) : p.blockIds.Nodup := by
  rw [blockIds_eq, List.Nodup, List.pairwise_filterMap, List.pairwise_iff_getElem]
  intro i j hi hj hij
  simp only [List.length_mapIdx, Array.length_toList] at hi hj
  simp only [List.getElem_mapIdx, Array.getElem_toList, Option.map_eq_some_iff]
  rintro _ ⟨b, -, rfl⟩ _ ⟨c, -, rfl⟩ hEq
  have hslot : (UInt32.ofNat i).toNat = (UInt32.ofNat j).toNat :=
    congrArg (fun id : BlockId => id.slot.toNat) hEq
  have hi' : i < UInt32.size := by omega
  have hj' : j < UInt32.size := by omega
  rw [UInt32.toNat_ofNat_of_lt' hi', UInt32.toNat_ofNat_of_lt' hj'] at hslot
  omega

/-- The live residual handles. -/
theorem mem_residualIds {i : ResidualId} : i ∈ p.residualIds ↔ ∃ r, p.residual? i = some r := by
  obtain ⟨i⟩ := i
  rw [residualIds, List.mem_filterMap]
  simp only [id_eq, exists_eq_right, List.mem_iff_getElem?, List.getElem?_mapIdx,
    Array.getElem?_toList, Option.map_eq_some_iff, ResidualId.mk.injEq, residual?]
  constructor
  · rintro ⟨j, o, ho, r, rfl, rfl⟩
    exact ⟨r, by rw [ho]; rfl⟩
  · rintro ⟨r, hr⟩
    refine ⟨i, some r, ?_, r, rfl, rfl⟩
    cases ho : p.residuals[i]? with
    | none => simp [ho] at hr
    | some o =>
        rw [ho] at hr
        exact congrArg some hr

/-! ## Problems alike -/

/-- Slots of one generation that hold related blocks, or none. -/
def AlikeSlots (R : ParameterBlock α → ParameterBlock α → Prop) (s t : Slot α) : Prop :=
  t.generation = s.generation ∧ Option.Rel R s.block t.block

/-- The problems have the same residual blocks and, slot by slot, related
parameter blocks. -/
structure Alike (R : ParameterBlock α → ParameterBlock α → Prop) (p q : Problem α σ) : Prop where
  slots : ∀ i : Nat, Option.Rel (AlikeSlots R) p.slots[i]? q.slots[i]?
  freeSlots : q.freeSlots = p.freeSlots
  residuals : q.residuals = p.residuals
  numBlocks : q.numBlocks = p.numBlocks
  numResidualBlocks : q.numResidualBlocks = p.numResidualBlocks

variable {R R' : ParameterBlock α → ParameterBlock α → Prop}

namespace Alike

private theorem rel_trans {β : Type} {R : β → β → Prop} (hR : ∀ {a b c}, R a b → R b c → R a c)
    {x y z : Option β} (h : Option.Rel R x y) (h' : Option.Rel R y z) : Option.Rel R x z := by
  cases h with
  | none =>
      cases h'
      exact .none
  | some h =>
      cases h' with
      | some h' => exact .some (hR h h')

private theorem rel_mono {β : Type} {R R' : β → β → Prop} (hR : ∀ {a b}, R a b → R' a b)
    {x y : Option β} (h : Option.Rel R x y) : Option.Rel R' x y := by
  cases h with
  | none => exact .none
  | some h => exact .some (hR h)

private theorem rel_symm {β : Type} {R : β → β → Prop} (hR : ∀ {a b}, R a b → R b a)
    {x y : Option β} (h : Option.Rel R x y) : Option.Rel R y x := by
  cases h with
  | none => exact .none
  | some h => exact .some (hR h)

private theorem rel_refl {β : Type} {R : β → β → Prop} (hR : ∀ {a}, R a a) (x : Option β) :
    Option.Rel R x x := by
  cases x with
  | none => exact .none
  | some b => exact .some hR

theorem refl (hR : ∀ {a}, R a a) (p : Problem α σ) : Alike R p p :=
  ⟨fun _ => rel_refl ⟨rfl, rel_refl hR _⟩ _, rfl, rfl, rfl, rfl⟩

theorem trans (hR : ∀ {a b c}, R a b → R b c → R a c) (h : Alike R p q) (h' : Alike R q r) :
    Alike R p r := by
  refine ⟨fun i => ?_, h'.freeSlots.trans h.freeSlots, h'.residuals.trans h.residuals,
    h'.numBlocks.trans h.numBlocks, h'.numResidualBlocks.trans h.numResidualBlocks⟩
  refine rel_trans ?_ (h.slots i) (h'.slots i)
  rintro s t u ⟨hst, hb⟩ ⟨htu, hb'⟩
  exact ⟨htu.trans hst, rel_trans (R := R) hR hb hb'⟩

theorem symm (hR : ∀ {a b}, R a b → R b a) (h : Alike R p q) : Alike R q p := by
  refine ⟨fun i => rel_symm ?_ (h.slots i), h.freeSlots.symm, h.residuals.symm,
    h.numBlocks.symm, h.numResidualBlocks.symm⟩
  rintro s t ⟨hst, hb⟩
  exact ⟨hst.symm, rel_symm hR hb⟩

theorem mono (hR : ∀ {a b}, R a b → R' a b) (h : Alike R p q) : Alike R' p q := by
  refine ⟨fun i => rel_mono ?_ (h.slots i), h.freeSlots, h.residuals, h.numBlocks,
    h.numResidualBlocks⟩
  rintro s t ⟨hst, hb⟩
  exact ⟨hst, rel_mono hR hb⟩

/-- A handle leads to related blocks, or to none. -/
theorem block? (h : Alike R p q) (id : BlockId) : Option.Rel R (p.block? id) (q.block? id) := by
  have hs := h.slots id.slot.toNat
  unfold Problem.block?
  generalize p.slots[id.slot.toNat]? = x at hs ⊢
  generalize q.slots[id.slot.toNat]? = y at hs ⊢
  cases hs with
  | none => exact .none
  | some hst =>
      obtain ⟨hg, hb⟩ := hst
      dsimp only
      rw [hg]
      split
      · exact hb
      · exact .none

theorem block?_left (h : Alike R p q) (hb : p.block? id = some b) :
    ∃ c, q.block? id = some c ∧ R b c := by
  have hbc := h.block? id
  rw [hb] at hbc
  cases hq : q.block? id with
  | none =>
      rw [hq] at hbc
      cases hbc
  | some c =>
      rw [hq] at hbc
      cases hbc with
      | some hbc => exact ⟨c, rfl, hbc⟩

theorem block?_none (h : Alike R p q) (hb : p.block? id = none) : q.block? id = none := by
  have hbc := h.block? id
  rw [hb] at hbc
  cases hq : q.block? id with
  | none => rfl
  | some c =>
      rw [hq] at hbc
      cases hbc

theorem contains (h : Alike R p q) (id : BlockId) : q.contains id = p.contains id := by
  unfold Problem.contains
  cases hb : p.block? id with
  | none => rw [h.block?_none hb]
  | some b =>
      obtain ⟨c, hc, -⟩ := h.block?_left hb
      rw [hc]
      rfl

theorem slots_size (h : Alike R p q) : q.slots.size = p.slots.size := by
  have key : ∀ i, q.slots.size ≤ i ↔ p.slots.size ≤ i := by
    intro i
    have hi := h.slots i
    rw [← Array.getElem?_eq_none_iff, ← Array.getElem?_eq_none_iff]
    generalize p.slots[i]? = x at hi ⊢
    generalize q.slots[i]? = y at hi ⊢
    cases hi <;> simp
  have h1 := key p.slots.size
  have h2 := key q.slots.size
  omega

theorem blockIds (h : Alike R p q) : q.blockIds = p.blockIds := by
  rw [blockIds_eq, blockIds_eq]
  congr 1
  refine List.ext_getElem? fun i => ?_
  simp only [List.getElem?_mapIdx, Array.getElem?_toList]
  have hi := h.slots i
  generalize p.slots[i]? = x at hi ⊢
  generalize q.slots[i]? = y at hi ⊢
  cases hi with
  | none => rfl
  | some hst =>
      rename_i s t
      obtain ⟨hg, hb⟩ := hst
      simp only [Option.map_some, hg]
      generalize s.block = x at hb ⊢
      generalize t.block = y at hb ⊢
      cases hb <;> rfl

theorem residualIds (h : Alike R p q) : q.residualIds = p.residualIds := by
  unfold Problem.residualIds
  rw [h.residuals]

theorem residual? (h : Alike R p q) (i : ResidualId) : q.residual? i = p.residual? i := by
  unfold Problem.residual?
  rw [h.residuals]

/-- Values that the relation keeps are the same under every handle. -/
theorem values (h : Alike R p q) (hR : ∀ {a b}, R a b → b.values = a.values) (id : BlockId) :
    q.values id = p.values id := by
  unfold Problem.values Problem.block
  cases hb : p.block? id with
  | none => rw [h.block?_none hb]
  | some b =>
      obtain ⟨c, hc, hbc⟩ := h.block?_left hb
      rw [hc]
      exact congrArg Except.ok (hR hbc)

end Alike

/-- A problem with one block changed to a related one is alike. -/
theorem alike_modifyBlock (hR : ∀ {a}, R a a) {f : ParameterBlock α → ParameterBlock α}
    (hb : p.block? id = some b) (hf : R b (f b)) : Alike R p (p.modifyBlock id f) := by
  refine ⟨fun i => ?_, rfl, rfl, rfl, rfl⟩
  simp only [modifyBlock, Array.getElem?_modify]
  obtain ⟨slot, hslot, -, hsb⟩ := block?_eq_some_iff.mp hb
  by_cases hi : id.slot.toNat = i
  · subst hi
    rw [if_pos rfl, hslot]
    refine .some ⟨rfl, ?_⟩
    show Option.Rel R slot.block (slot.block.map f)
    rw [hsb]
    exact .some hf
  · rw [if_neg hi]
    exact Alike.rel_refl ⟨rfl, Alike.rel_refl hR _⟩ _

/-- The problems differ in noted places at most. -/
abbrev SameContent (p q : Problem α σ) : Prop := Alike ParameterBlock.SameContent p q

/-- The problems differ in noted places and values at most. -/
abbrev SameShape (p q : Problem α σ) : Prop := Alike ParameterBlock.SameShape p q

theorem SameContent.refl (p : Problem α σ) : SameContent p p := Alike.refl .rfl p

theorem SameContent.trans (h : SameContent p q) (h' : SameContent q r) : SameContent p r :=
  Alike.trans .trans h h'

theorem SameContent.symm (h : SameContent p q) : SameContent q p := Alike.symm .symm h

theorem SameContent.sameShape (h : SameContent p q) : SameShape p q :=
  Alike.mono (fun hbc => hbc.sameShape) h

theorem SameContent.values_eq (h : SameContent p q) (id : BlockId) : q.values id = p.values id :=
  Alike.values h (fun hbc => hbc.values) id

theorem SameShape.refl (p : Problem α σ) : SameShape p p := Alike.refl .rfl p

theorem SameShape.trans (h : SameShape p q) (h' : SameShape q r) : SameShape p r :=
  Alike.trans .trans h h'

end Problem

end LeastSquares
