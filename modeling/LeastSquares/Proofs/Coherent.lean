import LeastSquares.Proofs.Reachable

/-!
# Problems whose tables agree

A problem keeps the same facts in several places: its counts beside the
entries they count, the empty slots beside the slots, the size of a block
beside the manifold it stands on and the residual blocks that read it.
Every operation keeps all of them in agreement.

What an addition and what a removal do to the slots is said once, slot by
slot, and everything else about the two follows from that.

## Main definitions

* `Problem.Adds`, `Problem.Removes` — a problem with one block more, and with
  one block less.
* `Problem.Complete` — what agrees beyond `Problem.Sound`.
* `Problem.Coherent` — everything that agrees.

## Main results

* `Problem.Reachable.coherent` — every operation keeps a problem coherent.
* `Problem.Coherent.succeeds_evaluateResidual` — a live residual block can
  always be asked for its cost.
-/

namespace LeastSquares

variable {α σ : Type} [Scalar α]

namespace Problem

variable {p q : Problem α σ} {id id' : BlockId} {i j : ResidualId}

/-! ## Slots -/

/-- The generation of a slot. A slot that has never been used has none
behind it. -/
def generation (p : Problem α σ) (n : Nat) : UInt32 := ((p.slots[n]?).map Slot.generation).getD 0

theorem generation_eq {n : Nat} {s : Slot α} (h : p.slots[n]? = some s) :
    p.generation n = s.generation := by
  rw [generation, h]
  rfl

/-- The second problem has one block more, of the given values and under the
given handle. -/
structure Adds (p : Problem α σ) (values : Vec α) (id : BlockId) (q : Problem α σ) : Prop where
  generation : id.generation = p.generation id.slot.toNat
  vacant : ∀ s, p.slots[id.slot.toNat]? = some s → s.block = none
  slots : ∀ n, q.slots[n]? =
    if n = id.slot.toNat then some ⟨id.generation, some { values }⟩ else p.slots[n]?
  freeSlots : ∀ n ∈ p.freeSlots, n ≠ id.slot.toNat → n ∈ q.freeSlots
  residuals : q.residuals = p.residuals
  numResidualBlocks : q.numResidualBlocks = p.numResidualBlocks

/-- An addition takes a slot without a block. -/
theorem Sound.adds (h : p.Sound) (hroom : p.HasRoom) (values : Vec α) :
    Adds p values (p.addBlock values).1 (p.addBlock values).2 := by
  unfold Problem.addBlock
  split
  · rename_i n rest hfree
    obtain ⟨slot, hslot, hnone⟩ := h.vacant n (by simp [hfree])
    have hlt : n < UInt32.size := by
      have := (Array.getElem?_eq_some_iff.mp hslot).1
      have := h.room
      omega
    have hn : (UInt32.ofNat n).toNat = n := UInt32.toNat_ofNat_of_lt' hlt
    refine ⟨?_, ?_, ?_, ?_, rfl, rfl⟩
    · dsimp only
      rw [hn, Problem.generation]
    · intro s hs
      dsimp only at hs
      rw [hn, hslot] at hs
      cases hs
      exact hnone
    · intro m
      simp only [hn, Array.getElem?_modify, hslot, Option.map_some, Option.getD_some]
      by_cases hm : n = m
      · subst hm
        simp only [if_true, hslot, Option.map_some]
      · simp only [hm, Ne.symm hm, if_false]
    · intro m hm hne
      dsimp only at hne ⊢
      rw [hn] at hne
      rw [hfree] at hm
      exact (List.mem_cons.mp hm).resolve_left hne
  · rename_i hfree
    have hlt : p.slots.size < UInt32.size := hroom.resolve_left fun hne => hne hfree
    have hn : (UInt32.ofNat p.slots.size).toNat = p.slots.size := UInt32.toNat_ofNat_of_lt' hlt
    have hnew : p.slots[p.slots.size]? = none := Array.getElem?_eq_none_iff.mpr (Nat.le_refl _)
    refine ⟨?_, ?_, ?_, ?_, rfl, rfl⟩
    · dsimp only
      rw [hn, Problem.generation, hnew]
      rfl
    · intro s hs
      dsimp only at hs
      rw [hn, hnew] at hs
      cases hs
    · intro m
      simp only [hn, Array.getElem?_push]
    · intro m hm
      exact fun _ => hm

/-- The second problem has one block less, and no residual block that reads
it. -/
structure Removes (p : Problem α σ) (id : BlockId) (q : Problem α σ) : Prop where
  live : p.contains id = true
  slots : ∀ n, q.slots[n]? =
    if n = id.slot.toNat then some ⟨id.generation + 1, none⟩ else p.slots[n]?
  freeSlots : q.freeSlots = id.slot.toNat :: p.freeSlots
  residuals : q.residuals = ((p.dependents id).foldl dropResidual p).residuals
  numResidualBlocks :
    q.numResidualBlocks = ((p.dependents id).foldl dropResidual p).numResidualBlocks

theorem removes_of_removeBlock (hq : p.removeBlock id = .ok q) : Removes p id q := by
  obtain ⟨b, hb, rfl⟩ := removeBlock_eq_ok hq
  obtain ⟨slot, hslot, hg, -⟩ := block?_eq_some_iff.mp hb
  refine ⟨contains_iff.mpr ⟨b, hb⟩, ?_, rfl, rfl, rfl⟩
  intro m
  simp only [Array.getElem?_modify]
  by_cases hm : id.slot.toNat = m
  · subst hm
    simp only [if_true, hslot, Option.map_some, hg]
  · simp only [hm, Ne.symm hm, if_false]

/-- Before an addition no handle of its slot leads anywhere. -/
theorem Adds.block?_eq_none {values : Vec α} (h : Adds p values id q)
    (hslot : id'.slot = id.slot) : p.block? id' = none := by
  cases hb : p.block? id' with
  | none => rfl
  | some b =>
      obtain ⟨s, hs, -, hsb⟩ := block?_eq_some_iff.mp hb
      rw [hslot] at hs
      rw [h.vacant s hs] at hsb
      cases hsb

/-- The handle of an added block leads to it, and every other handle leads
where it led. -/
theorem Adds.block? {values : Vec α} (h : Adds p values id q) :
    q.block? id' = if id' = id then some { values } else p.block? id' := by
  by_cases hslot : id'.slot = id.slot
  · rw [h.block?_eq_none hslot]
    unfold Problem.block?
    rw [h.slots, if_pos (congrArg UInt32.toNat hslot)]
    dsimp only
    by_cases hg : id.generation = id'.generation
    · have hid : id' = id := by
        cases id
        cases id'
        simp_all
      rw [if_pos hid, if_pos hg]
    · have hid : id' ≠ id := fun hid => hg (congrArg BlockId.generation hid.symm)
      rw [if_neg hid, if_neg hg]
  · have hn : ¬ id'.slot.toNat = id.slot.toNat := fun hn => hslot (UInt32.toNat_inj.mp hn)
    have hid : id' ≠ id := fun hid => hslot (congrArg BlockId.slot hid)
    unfold Problem.block?
    rw [h.slots, if_neg hn, if_neg hid]

/-- No handle of an emptied slot leads anywhere, and every other handle leads
where it led. -/
theorem Removes.block? (h : Removes p id q) :
    q.block? id' = if id'.slot = id.slot then none else p.block? id' := by
  unfold Problem.block?
  rw [h.slots]
  by_cases hslot : id'.slot = id.slot
  · rw [if_pos (congrArg UInt32.toNat hslot), if_pos hslot]
    exact ite_self none
  · have hn : ¬ id'.slot.toNat = id.slot.toNat := fun hn => hslot (UInt32.toNat_inj.mp hn)
    rw [if_neg hn, if_neg hslot]

theorem Removes.residual? (h : Removes p id q) :
    q.residual? i = if i ∈ p.dependents id then none else p.residual? i := by
  rw [← residual?_foldl_dropResidual]
  unfold Problem.residual?
  rw [h.residuals]

/-- A live handle other than the removed one keeps its block. -/
theorem Removes.block?_of_ne (h : Removes p id q) {b : ParameterBlock α}
    (hb : p.block? id' = some b) (hne : id' ≠ id) : q.block? id' = some b := by
  obtain ⟨c, hc⟩ := contains_iff.mp h.live
  rw [h.block?, if_neg fun hslot => hne (eq_of_slot_eq hc hb hslot), hb]

/-! ## Counting residual blocks -/

theorem length_residualIds :
    p.residualIds.length = p.residuals.toList.countP Option.isSome := by
  rw [residualIds, List.length_filterMap_eq_countP]
  refine countP_mapIdx (fun i r => ?_) p.residuals.toList
  cases r <;> rfl

/-- No residual handle is listed twice. -/
theorem nodup_residualIds : p.residualIds.Nodup := by
  rw [residualIds, List.Nodup, List.pairwise_filterMap, List.pairwise_iff_getElem]
  intro m n hm hn hmn
  simp only [List.getElem_mapIdx, id_eq, Option.map_eq_some_iff]
  rintro _ ⟨r, -, rfl⟩ _ ⟨s, -, rfl⟩ hEq
  have : m = n := congrArg ResidualId.index hEq
  omega

theorem length_residualIds_dropResidual {r : ResidualBlock α σ} (h : p.residual? i = some r) :
    (p.dropResidual i).residualIds.length = p.residualIds.length - 1 := by
  have hr : p.residuals[i.index]? = some (some r) := Option.join_eq_some_iff.mp h
  obtain ⟨hlt, hget⟩ := Array.getElem?_eq_some_iff.mp hr
  rw [length_residualIds, length_residualIds, dropResidual, Array.toList_setIfInBounds,
    List.countP_set (by simpa using hlt)]
  simp [hget]

theorem count_foldl_dropResidual {l : List ResidualId} (hl : l.Nodup)
    (hlive : ∀ i ∈ l, ∃ r, p.residual? i = some r)
    (h : p.numResidualBlocks = p.residualIds.length) :
    (l.foldl dropResidual p).numResidualBlocks = (l.foldl dropResidual p).residualIds.length := by
  induction l generalizing p with
  | nil => exact h
  | cons i l ih =>
      rw [List.nodup_cons] at hl
      obtain ⟨r, hr⟩ := hlive i (by simp)
      refine ih hl.2 (fun j hj => ?_) ?_
      · obtain ⟨s, hs⟩ := hlive j (List.mem_cons_of_mem i hj)
        have hne : j ≠ i := fun hji => hl.1 (hji ▸ hj)
        exact ⟨s, by rw [residual?_dropResidual, if_neg hne, hs]⟩
      · rw [length_residualIds_dropResidual hr, ← h]
        rfl

/-! ## Completeness -/

/-- What the tables of a problem agree on beyond soundness. -/
structure Complete (p : Problem α σ) : Prop where
  listed : ∀ n s, p.slots[n]? = some s → s.block = none → n ∈ p.freeSlots
  fits : ∀ id b, p.block? id = some b → b.Fits
  count : p.numResidualBlocks = p.residualIds.length
  sizes : ∀ i r, p.residual? i = some r → List.Forall₂ p.HasSize r.blocks r.cost.sizes

theorem complete_empty : (empty : Problem α σ).Complete where
  listed := nofun
  fits := nofun
  count := rfl
  sizes := nofun

theorem HasSize.alike (hq : Alike ParameterBlock.Replaces p q) {n : Nat}
    (h : p.HasSize id n) : q.HasSize id n := by
  obtain ⟨b, hb, rfl⟩ := h
  obtain ⟨c, hc, hbc⟩ := hq.block?_left hb
  exact ⟨c, hc, hbc.size⟩

theorem Complete.alike (h : p.Complete) (hq : Alike ParameterBlock.Replaces p q) :
    q.Complete where
  listed n t ht hnone := by
    have hrel := hq.slots n
    rw [ht] at hrel
    rw [hq.freeSlots]
    generalize hs : p.slots[n]? = x at hrel
    cases hrel with
    | some hst =>
        rename_i s
        have hb := hst.2
        rw [hnone] at hb
        refine h.listed n s hs ?_
        generalize s.block = z at hb ⊢
        cases hb
        rfl
  fits id c hc := by
    have hrel := hq.block? id
    rw [hc] at hrel
    generalize hb : p.block? id = x at hrel
    cases hrel with
    | some hbc => exact hbc.fits (h.fits id _ hb)
  count := by rw [hq.numResidualBlocks, h.count, hq.residualIds]
  sizes i r hr := by
    rw [hq.residual?] at hr
    exact (h.sizes i r hr).imp fun _ _ hsize => hsize.alike hq

theorem Complete.adds {values : Vec α} (h : p.Complete) (hq : Adds p values id q) :
    q.Complete where
  listed n s hs hnone := by
    rw [hq.slots] at hs
    split at hs
    · cases hs
      cases hnone
    · rename_i hn
      exact hq.freeSlots n (h.listed n s hs hnone) hn
  fits id' b hb := by
    rw [hq.block?] at hb
    split at hb
    · cases hb
      exact nofun
    · exact h.fits id' b hb
  count := by
    rw [hq.numResidualBlocks, h.count, length_residualIds, length_residualIds, hq.residuals]
  sizes i r hr := by
    have hr' : p.residual? i = some r := by
      unfold Problem.residual? at hr ⊢
      rwa [hq.residuals] at hr
    refine (h.sizes i r hr').imp ?_
    rintro id' n ⟨b, hb, hsize⟩
    -- the handle of the new block led nowhere before
    have hne : id' ≠ id := by
      rintro rfl
      rw [hq.block?_eq_none rfl] at hb
      cases hb
    exact ⟨b, by rw [hq.block?, if_neg hne, hb], hsize⟩

theorem Complete.removes (h : p.Complete) (hq : Removes p id q) : q.Complete where
  listed n s hs hnone := by
    rw [hq.slots] at hs
    rw [hq.freeSlots]
    split at hs
    · rename_i hn
      exact hn ▸ List.mem_cons_self
    · exact List.mem_cons_of_mem _ (h.listed n s hs hnone)
  fits id' b hb := by
    rw [hq.block?] at hb
    split at hb
    · cases hb
    · exact h.fits id' b hb
  count := by
    rw [hq.numResidualBlocks, length_residualIds, hq.residuals, ← length_residualIds]
    refine count_foldl_dropResidual (nodup_residualIds.filter _) (fun i hi => ?_) h.count
    obtain ⟨r, hr, -⟩ := mem_dependents.mp hi
    exact ⟨r, hr⟩
  sizes i r hr := by
    rw [hq.residual?] at hr
    split at hr
    · cases hr
    · rename_i hdep
      have hsizes := h.sizes i r hr
      refine List.forall₂_iff_get.mpr ⟨hsizes.length_eq, fun n h1 h2 => ?_⟩
      obtain ⟨b, hb, hsize⟩ := (List.forall₂_iff_get.mp hsizes).2 n h1 h2
      have hne : r.blocks.get ⟨n, h1⟩ ≠ id := by
        intro hEq
        exact hdep (mem_dependents.mpr ⟨r, hr, hEq ▸ List.get_mem _ _⟩)
      exact ⟨b, hq.block?_of_ne hb hne, hsize⟩

theorem Complete.addResidual (h : p.Complete) {cost : CostFunction α σ} {loss : Option (Loss α)}
    {ids : List BlockId} (hq : p.addResidual cost loss ids = .ok (i, q)) : q.Complete := by
  obtain ⟨-, -, hsizes, rfl⟩ := addResidual_eq_ok hq
  refine ⟨h.listed, h.fits, ?_, ?_⟩
  · show p.numResidualBlocks + 1 = _
    rw [h.count, length_residualIds, length_residualIds, Array.toList_push, List.countP_append]
    rfl
  · rintro ⟨j⟩ r hr
    simp only [residual?, Array.getElem?_push] at hr
    split at hr
    · cases hr
      exact hsizes
    · exact h.sizes ⟨j⟩ r hr

theorem Complete.removeResidual (h : p.Complete) (hq : p.removeResidual i = .ok q) :
    q.Complete := by
  simp only [Problem.removeResidual, except_bind_eq_ok, except_pure_eq_ok, residual_eq_ok] at hq
  obtain ⟨r, hr, rfl⟩ := hq
  refine ⟨h.listed, h.fits, ?_, fun j s hs => ?_⟩
  · rw [length_residualIds_dropResidual hr, ← h.count]
    rfl
  · rw [residual?_dropResidual] at hs
    split at hs
    · cases hs
    · exact h.sizes j s hs

theorem setManifold_some (manifold : Manifold α) {b : ParameterBlock α}
    (hb : p.block? id = some b) : p.setManifold id (some manifold) =
      if manifold.ambient = b.size then
        .ok (p.modifyBlock id fun b => { b with manifold := some manifold })
      else .error (.manifoldSize manifold.ambient id b.size) := by
  simp only [setManifold, block_eq_ok.mpr hb]
  by_cases hsize : manifold.ambient = b.size
  · rw [if_pos hsize]
    exact if_neg (not_not.mpr hsize)
  · rw [if_neg hsize]
    exact if_pos hsize

theorem exists_removeBlock (h : p.contains id = true) : ∃ q, p.removeBlock id = .ok q := by
  obtain ⟨b, hb⟩ := contains_iff.mp h
  simp only [removeBlock, block_eq_ok.mpr hb]
  exact ⟨_, rfl⟩

/-- A new block is put on a manifold that is made for its size. If there is
none such, the block is removed again. -/
theorem Sound.addBlockOn_cases (h : p.Sound) (hroom : p.HasRoom) (values : Vec α)
    (manifold : Manifold α) :
    (manifold.ambient = values.size ∧ ∃ q,
      (p.addBlock values).2.setManifold (p.addBlock values).1 (some manifold) = .ok q ∧
        p.addBlockOn values manifold = (.ok (p.addBlock values).1, q)) ∨
    (manifold.ambient ≠ values.size ∧ ∃ q e,
      (p.addBlock values).2.removeBlock (p.addBlock values).1 = .ok q ∧
        p.addBlockOn values manifold = (.error e, q)) := by
  have hadds := h.adds hroom values
  have hb : (p.addBlock values).2.block? (p.addBlock values).1 = some { values } := by
    rw [hadds.block?, if_pos rfl]
  unfold Problem.addBlockOn
  generalize p.addBlock values = added at hb ⊢
  obtain ⟨id, p'⟩ := added
  dsimp only at hb ⊢
  have hset := setManifold_some manifold hb
  by_cases hsize : manifold.ambient = ({ values } : ParameterBlock α).size
  · left
    rw [if_pos hsize] at hset
    exact ⟨hsize, _, hset, by rw [hset]⟩
  · right
    rw [if_neg hsize] at hset
    obtain ⟨q, hq⟩ := exists_removeBlock (contains_iff.mpr ⟨_, hb⟩)
    exact ⟨hsize, q, _, hq, by rw [hset]; dsimp only; rw [hq]⟩

theorem Complete.addBlockOn (h : p.Complete) (hs : p.Sound) (hroom : p.HasRoom)
    (values : Vec α) (manifold : Manifold α) : (p.addBlockOn values manifold).2.Complete := by
  have hadd := h.adds (hs.adds hroom values)
  rcases hs.addBlockOn_cases hroom values manifold with
    ⟨-, q, hq, hEq⟩ | ⟨-, q, e, hq, hEq⟩
  · rw [hEq]
    exact hadd.alike (alike_of_setManifold hq)
  · rw [hEq]
    exact hadd.removes (removes_of_removeBlock hq)

theorem Reachable.complete (h : p.Reachable) : p.Complete := by
  induction h with
  | empty => exact complete_empty
  | addBlock hp hroom values ih => exact ih.adds (hp.sound.adds hroom values)
  | addBlockOn hp hroom values manifold ih => exact ih.addBlockOn hp.sound hroom values manifold
  | removeBlock _ hq ih => exact ih.removes (removes_of_removeBlock hq)
  | setManifold _ hq ih => exact ih.alike (alike_of_setManifold hq)
  | setConstant _ hq ih => exact ih.alike (alike_of_setConstant hq)
  | setValues _ hq ih => exact ih.alike (alike_of_setValues hq)
  | addResidual _ hq ih => exact ih.addResidual hq
  | removeResidual _ hq ih => exact ih.removeResidual hq
  | setOffsets _ g ih =>
      exact ih.alike (Program.sameContent_setOffsets.mono fun h => h.sameShape.replaces)
  | scatter _ hq ih =>
      obtain ⟨-, rfl⟩ := Program.scatter_eq_ok hq
      exact ih.alike (Program.sameShape_scatterFrom.mono fun h => h.replaces)

/-! ## Coherence -/

/-- The tables of a problem agree. -/
structure Coherent (p : Problem α σ) : Prop where
  /-- The counts are the numbers of live handles. -/
  numBlocks : p.numBlocks = p.blockIds.length
  numResidualBlocks : p.numResidualBlocks = p.residualIds.length
  /-- The free slots are the slots without a block, each of them once. -/
  nodup_freeSlots : p.freeSlots.Nodup
  mem_freeSlots : ∀ n, n ∈ p.freeSlots ↔ ∃ s, p.slots[n]? = some s ∧ s.block = none
  /-- Blocks have the sizes that their manifolds are made for. -/
  fits : ∀ id b, p.block? id = some b → ∀ m, b.manifold = some m → m.ambient = b.size
  /-- Residual blocks read distinct live blocks of the sizes that their cost
  functions declare. -/
  nodup_blocks : ∀ i r, p.residual? i = some r → r.blocks.Nodup
  sizes : ∀ i r, p.residual? i = some r →
    List.Forall₂ (fun id n => ∃ b, p.block? id = some b ∧ b.size = n) r.blocks r.cost.sizes

theorem Sound.coherent (h : p.Sound) (hcomplete : p.Complete) : p.Coherent where
  numBlocks := h.length_blockIds.symm
  numResidualBlocks := hcomplete.count
  nodup_freeSlots := h.distinct
  mem_freeSlots n := ⟨h.vacant n, fun ⟨s, hs, hnone⟩ => hcomplete.listed n s hs hnone⟩
  fits := hcomplete.fits
  nodup_blocks i r hr := (h.reads i r hr).1
  sizes := hcomplete.sizes

/-- Every operation keeps a problem coherent. -/
theorem Reachable.coherent (h : p.Reachable) : p.Coherent := h.sound.coherent h.complete

/-- What differs in its notes at most is coherent too. -/
theorem Reachable.coherent_of_sameContent (h : p.Reachable) (hq : p.SameContent q) : q.Coherent :=
  (h.sound.alike hq).coherent (h.complete.alike (hq.mono fun hbc => hbc.sameShape.replaces))

/-- The points of live residual blocks are at hand, so evaluating one fails
only where its cost function does. -/
theorem Coherent.succeeds_evaluateResidual (h : p.Coherent) (hi : i ∈ p.residualIds)
    (applyLoss wantJacobians : Bool) (t : Tally σ) :
    Succeeds (p.evaluateResidual i applyLoss wantJacobians).run t fun r _ =>
      ∀ e, r = .error e → e = .evaluationFailed i := by
  obtain ⟨r, hr⟩ := mem_residualIds.mp hi
  have hpoint : ∃ point, r.blocks.mapM p.values = .ok point := by
    refine exists_mapM_eq_ok fun id hid => ?_
    obtain ⟨n, -, b, hb, -⟩ := exists_right_of_forall₂ (h.sizes i r hr) id hid
    exact ⟨b.values, values_eq_ok.mpr ⟨b, hb, rfl⟩⟩
  obtain ⟨point, hpoint⟩ := hpoint
  unfold evaluateResidual evaluateResidual.liftExcept
  rw [succeeds_run_bind, succeeds_run_mk, succeeds_pure, residual_eq_ok.mpr hr]
  dsimp only
  rw [succeeds_run_bind, succeeds_run_mk, succeeds_pure, hpoint]
  dsimp only
  rw [succeeds_run_bind, succeeds_run_lift]
  refine CostFunction.succeeds_unchecked.mono fun ev t' _ => ?_
  cases ev with
  | none =>
      refine succeeds_run_throw.mpr fun e he => ?_
      cases he
      rfl
  | some ev => exact succeeds_run_pure.mpr nofun

end Problem

end LeastSquares
