import LeastSquares.Problem.Edit
import LeastSquares.Proofs.Operation

/-!
# Changes in place

A change in place does what the call does that returns a changed problem. If it
fails, then nothing can be seen of it: the live handles lead to the blocks and
residual blocks they led to, in the order they had, and the counts are the same.
All checks stand in front of the first write, with two exceptions. Removing a
block removes the residual blocks that read it one by one, and none of these
removals fails. Adding a block on a manifold looks at the manifold last; a block
that does not fit is removed again, which no residual block notices, since none
can read a block whose handle was not live before. The slot and its generation
are spent, and only there does the problem differ from what it was.

## Main definitions

* `Operation.edit` — a call as a change in place.
* `Problem.Unaltered` — no difference can be seen.

## Main results

* `Edit.removeBlock_apply`, `Edit.addBlockOn_apply` — the changes that write
  before the last check.
* `Operation.edit_apply` — changes in place do what the calls do.
* `Problem.blocks_eq_filterMap` — the blocks by the numbers of their slots.
* `Operation.edit_failed` — a change that fails leaves no trace.
-/

namespace LeastSquares

variable {α σ : Type} [Scalar α]

/-! ## What changes come to -/

namespace Edit

variable {β γ : Type} {p : Problem α σ} {id : BlockId}

/-- An answer and the problem that is left, as the result of a change. -/
def result {β : Type} :
    Except ModelError β × Problem α σ → EStateM.Result ModelError (Problem α σ) β
  | (.ok b, q) => .ok b q
  | (.error e, q) => .error e q

/-- The result of a change that writes nothing if it fails. -/
def settled (p : Problem α σ) :
    Except ModelError (Problem α σ) → EStateM.Result ModelError (Problem α σ) Unit
  | .ok q => .ok () q
  | .error e => .error e p

theorem find_bind (f : Problem α σ → Except ModelError β) (k : β → Edit α σ γ) (p : Problem α σ) :
    (find f >>= k) p = match f p with
      | .ok b => k b p
      | .error e => .error e p := by
  have hfind : (find f >>= k) p = ((match f p with
      | .ok b => pure b
      | .error e => throw e : Edit α σ β) >>= k) p := rfl
  rw [hfind]
  cases f p <;> rfl

/-- What was written before an error is there when the error is caught. -/
theorem tryCatch_apply (x : Edit α σ β) (k : ModelError → Edit α σ β) (p : Problem α σ) :
    tryCatch x k p = match x p with
      | .ok b q => .ok b q
      | .error e q => k e q := by
  show EStateM.tryCatch x k p = _
  rw [EStateM.tryCatch]
  cases x p <;> rfl

theorem setManifold_apply (id : BlockId) (manifold : Option (Manifold α)) (p : Problem α σ) :
    setManifold id manifold p = settled p (p.setManifold id manifold) := by
  rw [setManifold, Problem.setManifold, find_bind]
  cases p.block id with
  | error e => rfl
  | ok b =>
      cases manifold with
      | none => rfl
      | some m =>
          by_cases hm : m.ambient ≠ b.size
          · simp only [if_pos hm, bind, Except.bind]
            rfl
          · simp only [if_neg hm, bind, Except.bind]
            rfl

theorem setConstant_apply (id : BlockId) (constant : Bool) (p : Problem α σ) :
    setConstant id constant p = settled p (p.setConstant id constant) := by
  rw [setConstant, Problem.setConstant, find_bind]
  cases p.block id <;> rfl

theorem setValues_apply (id : BlockId) (values : Vec α) (p : Problem α σ) :
    setValues id values p = settled p (p.setValues id values) := by
  rw [setValues, Problem.setValues, find_bind]
  cases p.block id with
  | error e => rfl
  | ok b =>
      by_cases hsize : b.size ≠ values.size
      · simp only [if_pos hsize, bind, Except.bind]
        rfl
      · simp only [if_neg hsize, bind, Except.bind]
        rfl

theorem addResidual_apply (cost : CostFunction α σ) (loss : Option (Loss α))
    (blocks : List BlockId) (p : Problem α σ) :
    addResidual cost loss blocks p = match p.addResidual cost loss blocks with
      | .ok (i, q) => .ok i q
      | .error e => .error e p := by
  rw [addResidual, Problem.addResidual]
  by_cases hcount : cost.sizes.length ≠ blocks.length
  · rw [if_pos hcount, if_pos hcount]
    rfl
  · rw [if_neg hcount, if_neg hcount]
    show (find _ >>= _) p = _
    rw [find_bind]
    cases p.refusal? [] (blocks.zip cost.sizes) <;> rfl

/-! ## Removing -/

theorem removeResidual_apply (i : ResidualId) (p : Problem α σ) :
    removeResidual i p = settled p (p.removeResidual i) := by
  rw [removeResidual, Problem.removeResidual, find_bind]
  cases p.residual i <;> rfl

/-- Live residual blocks can be removed one after the other. -/
theorem forM_removeResidual {l : List ResidualId} (hl : l.Nodup)
    (hlive : ∀ i ∈ l, ∃ r, p.residual? i = some r) :
    l.forM removeResidual p = .ok () (l.foldl Problem.dropResidual p) := by
  induction l generalizing p with
  | nil => rfl
  | cons i l ih =>
      rw [List.nodup_cons] at hl
      obtain ⟨r, hr⟩ := hlive i List.mem_cons_self
      have hremove : p.removeResidual i = .ok (p.dropResidual i) := by
        rw [Problem.removeResidual, Problem.residual_eq_ok.mpr hr]
        rfl
      show (removeResidual i >>= fun _ => l.forM removeResidual) p = _
      rw [eStateM_bind_apply, removeResidual_apply, hremove]
      refine ih hl.2 fun j hj => ?_
      -- the removal of another residual block does not reach this one
      have hne : j ≠ i := fun hji => hl.1 (hji ▸ hj)
      rw [Problem.residual?_dropResidual, if_neg hne]
      exact hlive j (List.mem_cons_of_mem i hj)

theorem removeBlock_apply (id : BlockId) (p : Problem α σ) :
    removeBlock id p = settled p (p.removeBlock id) := by
  rw [removeBlock, Problem.removeBlock, find_bind]
  cases p.block id with
  | error e => rfl
  | ok b =>
      have hdependents : (p.dependents id).forM removeResidual p =
          .ok () ((p.dependents id).foldl Problem.dropResidual p) := by
        refine forM_removeResidual (Problem.nodup_residualIds.filter _) fun i hi => ?_
        obtain ⟨r, hr, -⟩ := Problem.mem_dependents.mp hi
        exact ⟨r, hr⟩
      show ((p.dependents id).forM removeResidual >>= _) p = _
      rw [eStateM_bind_apply, hdependents]
      rfl

/-! ## Adding on a manifold -/

theorem addBlockOn_apply (values : Vec α) (manifold : Manifold α) (p : Problem α σ) :
    addBlockOn values manifold p = result (p.addBlockOn values manifold) := by
  rw [addBlockOn, Problem.addBlockOn]
  have hadd : addBlock values p = .ok (p.addBlock values).1 (p.addBlock values).2 := rfl
  rw [eStateM_bind_apply, hadd]
  generalize p.addBlock values = added
  obtain ⟨id, q⟩ := added
  dsimp only
  rw [eStateM_bind_apply, tryCatch_apply, setManifold_apply]
  cases q.setManifold id (some manifold) with
  | ok q' => rfl
  | error e =>
      simp only [settled]
      rw [eStateM_bind_apply, removeBlock_apply]
      cases q.removeBlock id <;> rfl

end Edit

/-! ## Calls as changes in place -/

namespace Operation

/-- The change in place that a call makes. -/
def edit : Operation α σ → Edit α σ Answer
  | addBlock values => do pure (.block (← Edit.addBlock values))
  | addBlockOn values manifold => do pure (.block (← Edit.addBlockOn values manifold))
  | setManifold id manifold => do
      Edit.setManifold id manifold
      pure .done
  | setConstant id constant => do
      Edit.setConstant id constant
      pure .done
  | setValues id values => do
      Edit.setValues id values
      pure .done
  | removeBlock id => do
      Edit.removeBlock id
      pure .done
  | addResidual cost loss blocks => do pure (.residual (← Edit.addResidual cost loss blocks))
  | removeResidual id => do
      Edit.removeResidual id
      pure .done

theorem settled_bind_done {x : Edit α σ Unit} {p : Problem α σ}
    {r : Except ModelError (Problem α σ)} (h : x p = Edit.settled p r) :
    (x >>= fun _ => pure Answer.done) p =
      Edit.result (settle p (r.map fun q => (Answer.done, q))) := by
  rw [eStateM_bind_apply, h]
  cases r <;> rfl

/-- A change in place answers what the call answers and leaves behind what the
call leaves behind. -/
theorem edit_apply (op : Operation α σ) (p : Problem α σ) :
    op.edit p = Edit.result (op.perform p) := by
  cases op with
  | addBlock values => rfl
  | addBlockOn values manifold =>
      rw [edit, perform, eStateM_bind_apply, Edit.addBlockOn_apply]
      obtain ⟨r, q⟩ := p.addBlockOn values manifold
      cases r <;> rfl
  | setManifold id manifold => exact settled_bind_done (Edit.setManifold_apply id manifold p)
  | setConstant id constant => exact settled_bind_done (Edit.setConstant_apply id constant p)
  | setValues id values => exact settled_bind_done (Edit.setValues_apply id values p)
  | removeBlock id => exact settled_bind_done (Edit.removeBlock_apply id p)
  | addResidual cost loss blocks =>
      rw [edit, perform, eStateM_bind_apply, Edit.addResidual_apply]
      cases p.addResidual cost loss blocks with
      | error e => rfl
      | ok r => rfl
  | removeResidual i => exact settled_bind_done (Edit.removeResidual_apply i p)

end Operation

/-! ## Problems that look alike -/

theorem filterMap_mapIdx {β γ : Type} (f : Nat → β → Option γ) (l : List β) {n : Nat}
    (h : l.length ≤ n) :
    (l.mapIdx f).filterMap id = (List.range n).filterMap fun i => l[i]?.bind (f i) := by
  induction l generalizing f n with
  | nil => simp
  | cons b l ih =>
      cases n with
      | zero => cases h
      | succ n =>
          have hrest := ih (fun i => f (i + 1)) (Nat.le_of_succ_le_succ h)
          rw [List.mapIdx_cons, List.range_succ_eq_map, List.filterMap_cons, List.filterMap_cons,
            List.filterMap_map, hrest]
          simp only [Function.comp_def, List.getElem?_cons_succ, List.getElem?_cons_zero,
            Option.bind_some, id_eq, Nat.succ_eq_add_one]

namespace Problem

variable {p q p' : Problem α σ} {id : BlockId} {values : Vec α}

/-- No difference can be seen between the problems: the live blocks and their
handles, the live residual blocks and their handles, and the counts are the
same. -/
structure Unaltered (p q : Problem α σ) : Prop where
  blocks : q.blocks = p.blocks
  block? : ∀ id, q.block? id = p.block? id
  residualIds : q.residualIds = p.residualIds
  residual? : ∀ i, q.residual? i = p.residual? i
  numBlocks : q.numBlocks = p.numBlocks
  numResidualBlocks : q.numResidualBlocks = p.numResidualBlocks

theorem Unaltered.rfl : Unaltered p p := ⟨Eq.refl _, fun _ => Eq.refl _, Eq.refl _,
  fun _ => Eq.refl _, Eq.refl _, Eq.refl _⟩

/-- The block in a slot, with its handle. -/
def blockAt? (p : Problem α σ) (n : Nat) : Option (BlockId × ParameterBlock α) :=
  p.slots[n]?.bind fun slot => slot.block.map fun b => (⟨UInt32.ofNat n, slot.generation⟩, b)

/-- The blocks are those in the slots, whatever empty slots there may be after
the last of them. -/
theorem blocks_eq_filterMap {n : Nat} (h : p.slots.size ≤ n) :
    p.blocks = (List.range n).filterMap p.blockAt? := by
  have hlength : p.slots.toList.length ≤ n := by rwa [Array.length_toList]
  rw [blocks, filterMap_mapIdx _ _ hlength]
  simp only [Array.getElem?_toList]
  rfl

theorem blocks_congr (h : ∀ n, q.blockAt? n = p.blockAt? n) : q.blocks = p.blocks := by
  rw [blocks_eq_filterMap (Nat.le_max_right p.slots.size q.slots.size),
    blocks_eq_filterMap (Nat.le_max_left p.slots.size q.slots.size), funext h]

/-- No residual block reads a block that has just been added. -/
theorem Adds.dependents_eq_nil (h : Adds p values id p') (hp : p.Sound) :
    p'.dependents id = [] := by
  refine List.eq_nil_iff_forall_not_mem.mpr fun i hi => ?_
  obtain ⟨r, hr, hid⟩ := mem_dependents.mp hi
  have hr' : p.residual? i = some r := by
    unfold Problem.residual? at hr ⊢
    rwa [h.residuals] at hr
  have hlive := (hp.reads i r hr').2 id hid
  rw [h.not_contains] at hlive
  cases hlive

/-- A block that is added and removed again leaves no trace. -/
theorem Adds.unaltered (h : Adds p values id p') (hq : Removes p' id q) (hp : p.Sound)
    (hsound : q.Sound) : Unaltered p q := by
  have hresiduals : q.residuals = p.residuals := by
    rw [hq.residuals, h.dependents_eq_nil hp]
    exact h.residuals
  have hblocks : q.blocks = p.blocks := by
    refine blocks_congr fun n => ?_
    rw [blockAt?, blockAt?, hq.slots]
    by_cases hn : n = id.slot.toNat
    · rw [if_pos hn, hn]
      cases hs : p.slots[id.slot.toNat]? with
      | none => rfl
      | some s =>
          rw [Option.bind_some, Option.bind_some, h.vacant s hs]
          rfl
    · rw [if_neg hn, h.slots, if_neg hn]
  refine ⟨hblocks, fun id' => ?_, ?_, fun i => ?_, ?_, ?_⟩
  · rw [hq.block?]
    by_cases hslot : id'.slot = id.slot
    · rw [if_pos hslot, h.block?_eq_none hslot]
    · have hne : id' ≠ id := fun hEq => hslot (congrArg BlockId.slot hEq)
      rw [if_neg hslot, h.block?, if_neg hne]
  · rw [Problem.residualIds, Problem.residualIds, hresiduals]
  · rw [Problem.residual?, Problem.residual?, hresiduals]
  · rw [← hsound.length_blockIds, ← hp.length_blockIds, blockIds, blockIds, hblocks]
  · rw [hq.numResidualBlocks, h.dependents_eq_nil hp]
    exact h.numResidualBlocks

end Problem

/-! ## Changes that fail -/

theorem Effect.unaltered {p q : Problem α σ} {e : ModelError} {o : Option Nat}
    (h : Effect p (.error e) o q) (hp : p.Sound) (hq : q.Sound) :
    Problem.Unaltered p q ∧ (o = none → q = p) := by
  cases h with
  | failed => exact ⟨.rfl, fun _ => rfl⟩
  | undone hadds hremoves => exact ⟨hadds.unaltered hremoves hp hq, nofun⟩

/-- A change that fails leaves no trace on a problem that operations lead to, as
long as there is a number for the slot of a block that it adds. Only a block
that was added on a manifold and taken back uses up anything, which is its slot
of this generation; any other change that fails leaves the problem as it is. -/
theorem Operation.edit_failed {p q : Problem α σ} (hp : p.Reachable) (op : Operation α σ)
    {e : ModelError} (h : op.edit p = .error e q) (hsize : q.slots.size ≤ UInt32.size) :
    Problem.Unaltered p q ∧ (op.emptied? p = none → q = p) := by
  obtain ⟨hanswer, rfl⟩ : (op.perform p).1 = .error e ∧ (op.perform p).2 = q := by
    rw [op.edit_apply] at h
    generalize op.perform p = r at h
    obtain ⟨answer, q'⟩ := r
    cases answer with
    | ok a => cases h
    | error e' =>
        cases h
        exact ⟨rfl, rfl⟩
  have heffect := op.effect hp.sound hsize
  rw [hanswer] at heffect
  exact heffect.unaltered hp.sound (op.reachable_perform hp hsize).sound

/-- One number is not a quaternion. The third slot has been made for it, and
stays behind empty. -/
theorem Operation.edit_failed_quaternion :
    let p := Gallery.anchored Float
    let op : Operation Float Unit := .addBlockOn (.ofList [1.0]) .quaternion
    p.Reachable ∧ ∃ q : Problem Float Unit, op.edit p = .error (.manifoldSize 4 ⟨2, 0⟩ 1) q ∧
      q.slots.size = 3 ∧ q.slots.size ≤ UInt32.size ∧ Problem.Unaltered p q := by
  intro p op
  have hp : p.Reachable := Gallery.reachable_anchored
  have hsize : (op.perform p).2.slots.size ≤ UInt32.size :=
    show 3 ≤ UInt32.size by decide
  have hedit : op.edit p = .error (.manifoldSize 4 ⟨2, 0⟩ 1) (op.perform p).2 := op.edit_apply p
  exact ⟨hp, _, hedit, rfl, hsize, (op.edit_failed hp hedit hsize).1⟩

end LeastSquares
