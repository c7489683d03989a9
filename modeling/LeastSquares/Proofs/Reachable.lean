import LeastSquares.Minimizer.World
import LeastSquares.Proofs.Cost
import LeastSquares.Proofs.Program

/-!
# Problems that operations lead to

Whatever is added to a problem, changed in it and removed from it, residual
blocks only read parameter blocks that are live, and each of them once. The
count of parameter blocks is their number, and a slot that waits to be used
again is empty. Slots are numbered by words of 32 bits, so a problem takes
new blocks as long as there are such numbers left.

## Main definitions

* `Problem.Reachable` — the problems that operations lead to.
* `Problem.Sound` — what they have in common.

## Main results

* `Problem.Reachable.sound` — every operation keeps it.
* `Problem.Sound.length_blockIds` — the count of blocks is their number.
-/

namespace LeastSquares

variable {α σ : Type} [Scalar α]

/-! ## Counting -/

theorem countP_mapIdx {β γ : Type} {f : Nat → β → γ} {P : γ → Bool} {Q : β → Bool}
    (h : ∀ i b, P (f i b) = Q b) (l : List β) : (l.mapIdx f).countP P = l.countP Q := by
  induction l generalizing f with
  | nil => rfl
  | cons b l ih =>
      rw [List.mapIdx_cons, List.countP_cons, List.countP_cons, h,
        ih fun i b => h (i + 1) b]

theorem countP_modify {β : Type} {P : β → Bool} {f : β → β} {l : List β} {i : Nat} {b : β}
    (h : l[i]? = some b) :
    (l.modify i f).countP P + (if P b then 1 else 0) =
      l.countP P + (if P (f b) then 1 else 0) := by
  induction l generalizing i with
  | nil => simp at h
  | cons c l ih =>
      cases i with
      | zero =>
          cases h
          rw [List.modify_zero_cons, List.countP_cons, List.countP_cons]
          omega
      | succ i =>
          rw [List.modify_succ_cons, List.countP_cons, List.countP_cons]
          have := ih h
          omega

/-! ## Blocks in place of others -/

namespace ParameterBlock

/-- The block has the size that its manifold, if any, is made for. -/
def Fits (b : ParameterBlock α) : Prop := ∀ m, b.manifold = some m → m.ambient = b.size

/-- The second block has the size of the first, and fits its manifold if the
first one does. -/
structure Replaces (b c : ParameterBlock α) : Prop where
  size : c.size = b.size
  fits : b.Fits → c.Fits

theorem Replaces.rfl {b : ParameterBlock α} : Replaces b b := ⟨Eq.refl _, fun h => h⟩

theorem SameShape.replaces {b c : ParameterBlock α} (h : SameShape b c) : Replaces b c where
  size := h.size
  fits hfits m hm := by
    rw [h.manifold] at hm
    rw [hfits m hm, h.size]

end ParameterBlock

namespace Problem

variable {p q : Problem α σ} {id id' : BlockId} {i j : ResidualId}

/-- Number of slots that hold a block. -/
def occupied (p : Problem α σ) : Nat := p.slots.toList.countP fun slot => slot.block.isSome

theorem length_blockIds : p.blockIds.length = p.occupied := by
  rw [blockIds_eq, List.length_filterMap_eq_countP, occupied]
  refine countP_mapIdx (fun i slot => ?_) p.slots.toList
  cases slot.block <;> rfl

theorem occupied_modify {n : Nat} {slot : Slot α} (h : p.slots[n]? = some slot)
    (f : Slot α → Slot α) :
    ((p.slots.modify n f).toList.countP fun slot => slot.block.isSome) +
        (if slot.block.isSome then 1 else 0) =
      p.occupied + (if (f slot).block.isSome then 1 else 0) := by
  rw [Array.toList_modify, occupied]
  exact countP_modify (by rwa [Array.getElem?_toList])

/-! ## Removing residual blocks -/

theorem residual?_dropResidual :
    (p.dropResidual i).residual? j = if j = i then none else p.residual? j := by
  obtain ⟨i⟩ := i
  obtain ⟨j⟩ := j
  simp only [residual?, dropResidual, Array.getElem?_setIfInBounds, ResidualId.mk.injEq]
  by_cases hij : i = j
  · subst hij
    simp only [if_true]
    split <;> rfl
  · simp only [hij, Ne.symm hij, if_false]

theorem slots_foldl_dropResidual (l : List ResidualId) :
    (l.foldl dropResidual p).slots = p.slots ∧
      (l.foldl dropResidual p).freeSlots = p.freeSlots ∧
      (l.foldl dropResidual p).numBlocks = p.numBlocks := by
  induction l generalizing p with
  | nil => exact ⟨rfl, rfl, rfl⟩
  | cons i l ih => exact ih

theorem residual?_foldl_dropResidual (l : List ResidualId) :
    (l.foldl dropResidual p).residual? j = if j ∈ l then none else p.residual? j := by
  induction l generalizing p with
  | nil => simp
  | cons i l ih =>
      rw [List.foldl_cons, ih, residual?_dropResidual]
      by_cases hji : j = i
      · simp [hji]
      · simp [hji]

theorem mem_dependents : i ∈ p.dependents id ↔ ∃ r, p.residual? i = some r ∧ id ∈ r.blocks := by
  rw [dependents, List.mem_filter, mem_residualIds]
  constructor
  · rintro ⟨⟨r, hr⟩, hid⟩
    rw [hr] at hid
    exact ⟨r, hr, by simpa using hid⟩
  · rintro ⟨r, hr, hid⟩
    refine ⟨⟨r, hr⟩, ?_⟩
    rw [hr]
    simpa using hid

/-! ## Soundness -/

/-- What the problems that operations lead to have in common. -/
structure Sound (p : Problem α σ) : Prop where
  room : p.slots.size ≤ UInt32.size
  vacant : ∀ n ∈ p.freeSlots, ∃ slot, p.slots[n]? = some slot ∧ slot.block = none
  distinct : p.freeSlots.Nodup
  count : p.numBlocks = p.occupied
  reads : ∀ i r, p.residual? i = some r → r.blocks.Nodup ∧
    ∀ id ∈ r.blocks, p.contains id = true

theorem sound_empty : (empty : Problem α σ).Sound where
  room := Nat.zero_le _
  vacant := nofun
  distinct := .nil
  count := rfl
  reads := nofun

theorem Sound.length_blockIds (h : p.Sound) : p.blockIds.length = p.numBlocks := by
  rw [Problem.length_blockIds, h.count]

/-- A live handle leads to no slot that waits to be used again. -/
theorem Sound.slot_ne_of_mem_freeSlots {n : Nat} (h : p.Sound) (hn : n ∈ p.freeSlots)
    (hid : p.contains id = true) : n ≠ id.slot.toNat := by
  rintro rfl
  obtain ⟨slot, hslot, hnone⟩ := h.vacant _ hn
  obtain ⟨b, hb⟩ := contains_iff.mp hid
  obtain ⟨slot', hslot', -, hsome⟩ := block?_eq_some_iff.mp hb
  rw [hslot] at hslot'
  cases hslot'
  rw [hnone] at hsome
  cases hsome

/-- A change of blocks keeps everything that is not about what they hold. -/
theorem Sound.alike {R : ParameterBlock α → ParameterBlock α → Prop} (h : p.Sound)
    (hq : Alike R p q) : q.Sound where
  room := hq.slots_size ▸ h.room
  vacant n hn := by
    rw [hq.freeSlots] at hn
    obtain ⟨slot, hslot, hnone⟩ := h.vacant n hn
    have hrel := hq.slots n
    rw [hslot] at hrel
    generalize q.slots[n]? = y at hrel ⊢
    cases hrel with
    | some hst =>
        obtain ⟨-, hb⟩ := hst
        rename_i t
        rw [hnone] at hb
        refine ⟨t, rfl, ?_⟩
        generalize t.block = z at hb ⊢
        cases hb
        rfl
  distinct := hq.freeSlots ▸ h.distinct
  count := by
    rw [hq.numBlocks, h.count, ← Problem.length_blockIds, ← Problem.length_blockIds, hq.blockIds]
  reads i r hr := by
    rw [hq.residual?] at hr
    obtain ⟨hn, hlive⟩ := h.reads i r hr
    exact ⟨hn, fun id hid => (hq.contains id).trans (hlive id hid)⟩

/-! ## Parameter blocks -/

/-- There is a number for the slot of one more block. -/
def HasRoom (p : Problem α σ) : Prop := p.freeSlots ≠ [] ∨ p.slots.size < UInt32.size

theorem Sound.addBlock (h : p.Sound) (hroom : p.HasRoom) (values : Vec α) :
    (p.addBlock values).2.Sound := by
  unfold Problem.addBlock
  split
  · rename_i n rest hfree
    obtain ⟨slot, hslot, hnone⟩ := h.vacant n (by simp [hfree])
    have hdistinct : (n :: rest).Nodup := hfree ▸ h.distinct
    rw [List.nodup_cons] at hdistinct
    refine ⟨?_, ?_, hdistinct.2, ?_, ?_⟩
    · simpa using h.room
    · intro m hm
      obtain ⟨slot', hslot', hnone'⟩ := h.vacant m (by simp [hfree, hm])
      have hne : n ≠ m := fun hEq => hdistinct.1 (hEq ▸ hm)
      exact ⟨slot', by simp only [Array.getElem?_modify, hne, if_false, hslot'], hnone'⟩
    · have := occupied_modify hslot fun s => { s with block := some { values } }
      simp only [hnone, Option.isSome_none, Bool.false_eq_true, if_false, Option.isSome_some,
        if_true, Nat.add_zero] at this
      rw [h.count]
      exact this.symm
    · intro i r hr
      obtain ⟨hn, hlive⟩ := h.reads i r hr
      refine ⟨hn, fun id hid => (contains_congr ?_).trans (hlive id hid)⟩
      have hne : n ≠ id.slot.toNat := h.slot_ne_of_mem_freeSlots (by simp [hfree]) (hlive id hid)
      simp only [Array.getElem?_modify, hne, if_false]
  · rename_i hfree
    have hsize : p.slots.size < UInt32.size := hroom.resolve_left fun hne => hne hfree
    refine ⟨?_, ?_, h.distinct, ?_, ?_⟩
    · rw [Array.size_push]
      exact hsize
    · intro m hm
      rw [show p.freeSlots = [] from hfree] at hm
      cases hm
    · simp only [occupied, Array.toList_push, List.countP_append, List.countP_singleton,
        Option.isSome_some, if_true]
      rw [h.count]
      rfl
    · intro i r hr
      obtain ⟨hn, hlive⟩ := h.reads i r hr
      refine ⟨hn, fun id hid => (contains_congr ?_).trans (hlive id hid)⟩
      have hlt := slot_lt_of_contains (hlive id hid)
      rw [Array.getElem?_push_lt hlt, Array.getElem?_eq_getElem hlt]

theorem removeBlock_eq_ok (hq : p.removeBlock id = .ok q) : ∃ b, p.block? id = some b ∧
    q = { (p.dependents id).foldl dropResidual p with
      slots := p.slots.modify id.slot.toNat fun s => ⟨s.generation + 1, none⟩
      freeSlots := id.slot.toNat :: p.freeSlots
      numBlocks := p.numBlocks - 1 } := by
  simp only [removeBlock, except_bind_eq_ok, except_pure_eq_ok, block_eq_ok] at hq
  obtain ⟨b, hb, rfl⟩ := hq
  obtain ⟨hslots, hfree, hnum⟩ := slots_foldl_dropResidual (p := p) (p.dependents id)
  refine ⟨b, hb, ?_⟩
  rw [hslots, hfree, hnum]

theorem Sound.removeBlock (h : p.Sound) (hq : p.removeBlock id = .ok q) : q.Sound := by
  obtain ⟨b, hb, rfl⟩ := removeBlock_eq_ok hq
  obtain ⟨slot, hslot, hg, hsb⟩ := block?_eq_some_iff.mp hb
  refine ⟨?_, ?_, ?_, ?_, ?_⟩
  · simpa using h.room
  · intro m hm
    simp only [Array.getElem?_modify]
    by_cases hEq : id.slot.toNat = m
    · subst hEq
      exact ⟨⟨slot.generation + 1, none⟩, by simp [hslot], rfl⟩
    · obtain ⟨s, hs, hnone⟩ := h.vacant m ((List.mem_cons.mp hm).resolve_left (Ne.symm hEq))
      exact ⟨s, by simp only [hEq, if_false, hs], hnone⟩
  · exact List.nodup_cons.mpr
      ⟨fun hm => h.slot_ne_of_mem_freeSlots hm (contains_iff.mpr ⟨b, hb⟩) rfl, h.distinct⟩
  · have := occupied_modify hslot fun s => ⟨s.generation + 1, none⟩
    simp only [hsb, Option.isSome_none, Bool.false_eq_true, if_false, Option.isSome_some,
      if_true, Nat.add_zero] at this
    show p.numBlocks - 1 = (p.slots.modify _ _).toList.countP _
    rw [h.count]
    omega
  · intro i r hr
    have hr' : (if i ∈ p.dependents id then none else p.residual? i) = some r := by
      rw [← residual?_foldl_dropResidual]
      exact hr
    split at hr'
    · cases hr'
    · rename_i hdep
      obtain ⟨hn, hlive⟩ := h.reads i r hr'
      refine ⟨hn, fun id' hid' => (contains_congr ?_).trans (hlive id' hid')⟩
      -- a block of another handle stands in another slot
      obtain ⟨c, hc⟩ := contains_iff.mp (hlive id' hid')
      have hne : id' ≠ id := fun hEq => hdep (mem_dependents.mpr ⟨r, hr', hEq ▸ hid'⟩)
      have hslots : id.slot.toNat ≠ id'.slot.toNat := fun hEq =>
        hne (eq_of_slot_eq hb hc (UInt32.toNat_inj.mp hEq).symm)
      simp only [Array.getElem?_modify, hslots, if_false]

theorem alike_of_setManifold {manifold : Option (Manifold α)}
    (hq : p.setManifold id manifold = .ok q) : Alike ParameterBlock.Replaces p q := by
  simp only [setManifold, except_bind_eq_ok, block_eq_ok] at hq
  obtain ⟨b, hb, hq⟩ := hq
  have key : ∀ {q}, (∀ m, manifold = some m → m.ambient = b.size) →
      (pure (p.modifyBlock id fun b => { b with manifold }) :
        Except ModelError (Problem α σ)) = .ok q → Alike ParameterBlock.Replaces p q := by
    intro q hfits hq
    rw [except_pure_eq_ok] at hq
    exact hq ▸ alike_modifyBlock .rfl hb ⟨rfl, fun _ => hfits⟩
  cases manifold with
  | none => exact key nofun hq
  | some m =>
      by_cases hm : m.ambient ≠ b.size
      · simp only [hm, ne_eq, not_false_eq_true, if_true] at hq
        cases hq
      · simp only [hm, if_false] at hq
        refine key (fun m' hm' => ?_) hq
        cases hm'
        exact not_not.mp hm

theorem alike_of_setConstant {constant : Bool} (hq : p.setConstant id constant = .ok q) :
    Alike ParameterBlock.Replaces p q := by
  simp only [setConstant, except_bind_eq_ok, except_pure_eq_ok, block_eq_ok] at hq
  obtain ⟨b, hb, rfl⟩ := hq
  exact alike_modifyBlock .rfl hb ⟨rfl, fun hfits => hfits⟩

theorem alike_of_setValues {values : Vec α} (hq : p.setValues id values = .ok q) :
    Alike ParameterBlock.Replaces p q := by
  simp only [setValues, except_bind_eq_ok, block_eq_ok] at hq
  obtain ⟨b, hb, hq⟩ := hq
  by_cases hsize : b.size ≠ values.size
  · simp only [hsize, ne_eq, not_false_eq_true, if_true] at hq
    cases hq
  · have hsame : values.size = b.size := (not_not.mp hsize).symm
    simp only [hsize, if_false] at hq
    rw [except_pure_eq_ok] at hq
    exact hq ▸ alike_modifyBlock .rfl hb ⟨hsame, fun hfits m hm => (hfits m hm).trans hsame.symm⟩

theorem Sound.addBlockOn (h : p.Sound) (hroom : p.HasRoom) (values : Vec α)
    (manifold : Manifold α) : (p.addBlockOn values manifold).2.Sound := by
  have hadd := h.addBlock hroom values
  unfold Problem.addBlockOn
  dsimp only
  split
  · rename_i q hq
    exact hadd.alike (alike_of_setManifold hq)
  · split
    · rename_i q hq
      exact hadd.removeBlock hq
    · exact hadd

/-! ## Residual blocks -/

/-- The handle leads to a block of the given size. -/
def HasSize (p : Problem α σ) (id : BlockId) (size : Nat) : Prop :=
  ∃ b, p.block? id = some b ∧ b.size = size

theorem refusal?_eq_none {seen ids : List BlockId} {sizes : List Nat}
    (hlen : sizes.length = ids.length) (h : p.refusal? seen (ids.zip sizes) = none) :
    ids.Nodup ∧ (∀ id ∈ ids, id ∉ seen) ∧ List.Forall₂ p.HasSize ids sizes := by
  induction ids generalizing seen sizes with
  | nil =>
      rw [List.length_nil, List.length_eq_zero_iff] at hlen
      exact ⟨.nil, nofun, hlen ▸ .nil⟩
  | cons id ids ih =>
      cases sizes with
      | nil => cases hlen
      | cons size sizes =>
          rw [List.zip_cons_cons, refusal?] at h
          split at h
          · cases h
          · rename_i hseen
            split at h
            · cases h
            · rename_i b hb
              split at h
              · cases h
              · rename_i hsize
                obtain ⟨hn, hns, hsizes⟩ := ih (Nat.succ.inj hlen) h
                refine ⟨List.nodup_cons.mpr ⟨fun hid => hns id hid (by simp), hn⟩, ?_, ?_⟩
                · intro i hi
                  rcases List.mem_cons.mp hi with rfl | hi
                  · exact hseen
                  · exact fun hmem => hns i hi (List.mem_cons_of_mem id hmem)
                · exact .cons ⟨b, hb, not_not.mp hsize⟩ hsizes

theorem addResidual_eq_ok {cost : CostFunction α σ} {loss : Option (Loss α)}
    {ids : List BlockId} (hq : p.addResidual cost loss ids = .ok (i, q)) :
    i = ⟨p.residuals.size⟩ ∧ ids.Nodup ∧ List.Forall₂ p.HasSize ids cost.sizes ∧
      q = { p with
        residuals := p.residuals.push (some ⟨ids, cost, loss⟩)
        numResidualBlocks := p.numResidualBlocks + 1 } := by
  unfold Problem.addResidual at hq
  split at hq
  · cases hq
  · rename_i hlen
    split at hq
    · cases hq
    · rename_i hrefusal
      cases hq
      obtain ⟨hn, -, hsizes⟩ := refusal?_eq_none (not_not.mp hlen) hrefusal
      exact ⟨rfl, hn, hsizes, rfl⟩

theorem contains_of_forall₂ {ids : List BlockId} {sizes : List Nat}
    (h : List.Forall₂ p.HasSize ids sizes) : ∀ id ∈ ids, p.contains id = true := by
  intro id hid
  obtain ⟨n, -, b, hb, -⟩ := exists_right_of_forall₂ h id hid
  exact contains_iff.mpr ⟨b, hb⟩

theorem Sound.addResidual (h : p.Sound) {cost : CostFunction α σ} {loss : Option (Loss α)}
    {ids : List BlockId} (hq : p.addResidual cost loss ids = .ok (i, q)) : q.Sound := by
  obtain ⟨-, hn, hsizes, rfl⟩ := addResidual_eq_ok hq
  refine ⟨h.room, h.vacant, h.distinct, h.count, ?_⟩
  rintro ⟨j⟩ r hr
  simp only [residual?, Array.getElem?_push] at hr
  split at hr
  · cases hr
    exact ⟨hn, contains_of_forall₂ hsizes⟩
  · exact h.reads ⟨j⟩ r hr

theorem Sound.removeResidual (h : p.Sound) (hq : p.removeResidual i = .ok q) : q.Sound := by
  simp only [Problem.removeResidual, except_bind_eq_ok, except_pure_eq_ok] at hq
  obtain ⟨-, -, rfl⟩ := hq
  refine ⟨h.room, h.vacant, h.distinct, h.count, fun j r hr => ?_⟩
  rw [residual?_dropResidual] at hr
  split at hr
  · cases hr
  · exact h.reads j r hr

/-! ## Histories -/

/-- The problems that operations lead to, from the one without blocks. -/
inductive Reachable : Problem α σ → Prop
  | empty : Reachable empty
  | addBlock {p : Problem α σ} (h : Reachable p) (hroom : p.HasRoom) (values : Vec α) :
      Reachable (p.addBlock values).2
  | addBlockOn {p : Problem α σ} (h : Reachable p) (hroom : p.HasRoom) (values : Vec α)
      (manifold : Manifold α) : Reachable (p.addBlockOn values manifold).2
  | removeBlock {p q : Problem α σ} {id : BlockId} (h : Reachable p)
      (hq : p.removeBlock id = .ok q) : Reachable q
  | setManifold {p q : Problem α σ} {id : BlockId} {manifold : Option (Manifold α)}
      (h : Reachable p) (hq : p.setManifold id manifold = .ok q) : Reachable q
  | setConstant {p q : Problem α σ} {id : BlockId} {constant : Bool} (h : Reachable p)
      (hq : p.setConstant id constant = .ok q) : Reachable q
  | setValues {p q : Problem α σ} {id : BlockId} {values : Vec α} (h : Reachable p)
      (hq : p.setValues id values = .ok q) : Reachable q
  | addResidual {p q : Problem α σ} {cost : CostFunction α σ} {loss : Option (Loss α)}
      {ids : List BlockId} {i : ResidualId} (h : Reachable p)
      (hq : p.addResidual cost loss ids = .ok (i, q)) : Reachable q
  | removeResidual {p q : Problem α σ} {i : ResidualId} (h : Reachable p)
      (hq : p.removeResidual i = .ok q) : Reachable q
  | setOffsets {p : Problem α σ} (h : Reachable p) (g : Program) : Reachable (g.setOffsets p).2
  | scatter {p q : Problem α σ} {x : Vec α} {g : Program} (h : Reachable p)
      (hq : g.scatter x p = .ok q) : Reachable q

/-- Every operation keeps a problem sound. -/
theorem Reachable.sound (h : p.Reachable) : p.Sound := by
  induction h with
  | empty => exact sound_empty
  | addBlock _ hroom values ih => exact ih.addBlock hroom values
  | addBlockOn _ hroom values manifold ih => exact ih.addBlockOn hroom values manifold
  | removeBlock _ hq ih => exact ih.removeBlock hq
  | setManifold _ hq ih => exact ih.alike (alike_of_setManifold hq)
  | setConstant _ hq ih => exact ih.alike (alike_of_setConstant hq)
  | setValues _ hq ih => exact ih.alike (alike_of_setValues hq)
  | addResidual _ hq ih => exact ih.addResidual hq
  | removeResidual _ hq ih => exact ih.removeResidual hq
  | setOffsets _ g ih => exact ih.alike Program.sameContent_setOffsets
  | scatter _ hq ih =>
      obtain ⟨-, rfl⟩ := Program.scatter_eq_ok hq
      exact ih.alike Program.sameShape_scatterFrom

end Problem

/-- The world with the anchored blocks, in which time stands still. -/
def Gallery.anchoredWorld (α : Type) [Scalar α] : World α Unit where
  problem := anchored α
  tally := ⟨(), 0⟩
  clock _ := 0

theorem Gallery.reachable_anchored : (Gallery.anchored α).Reachable := by
  have h : Problem.Reachable (α := α) (σ := Unit) .empty := .empty
  have h := h.addBlock (.inr (show 0 < UInt32.size by decide)) (.ofList [1])
  have h := h.addBlock (.inr (show 1 < UInt32.size by decide)) (.ofList [2.0])
  have h := h.setConstant (show Problem.setConstant _ ⟨1, 0⟩ true = .ok _ from rfl)
  have h := h.addResidual
    (show Problem.addResidual _ (anchor (.ofList [5.0])) none [⟨1, 0⟩] = .ok (_, _) from rfl)
  exact h.addResidual
    (show Problem.addResidual _ (anchor (.ofList [3.0])) none [⟨0, 0⟩] = .ok (_, _) from rfl)

end LeastSquares
