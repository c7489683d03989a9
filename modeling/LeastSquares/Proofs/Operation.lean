import LeastSquares.Proofs.Coherent

/-!
# Calls that change a problem

A call either fails and says why, or answers and leaves a changed problem
behind. What a call can do to the tables of a problem is said once, case by
case, and what it means for slots and handles is read off from that.

## Main definitions

* `Operation`, `Operation.perform` — a call, and what it answers and leaves
  behind.
* `Effect` — what a call can do.
* `Problem.RefusesBlock`, `Problem.RefusesResidual` — whatever is asked with a
  handle fails.

## Main results

* `Operation.effect` — a call has one of these effects.
* `Effect.generation`, `Effect.contains`, `Effect.block` — what an effect
  means for slots and handles.
* `Problem.refusesBlock_of_not_live` — a handle that is not live is refused.
-/

namespace LeastSquares

variable {α σ : Type} [Scalar α]

/-! ## Calls -/

/-- A call that changes a problem. -/
inductive Operation (α σ : Type) [Scalar α] where
  | addBlock (values : Vec α)
  | addBlockOn (values : Vec α) (manifold : Manifold α)
  | setManifold (id : BlockId) (manifold : Option (Manifold α))
  | setConstant (id : BlockId) (constant : Bool)
  | setValues (id : BlockId) (values : Vec α)
  | removeBlock (id : BlockId)
  | addResidual (cost : CostFunction α σ) (loss : Option (Loss α)) (blocks : List BlockId)
  | removeResidual (id : ResidualId)

/-- What a call gives back if it does not fail. -/
inductive Answer where
  | block (id : BlockId)
  | residual (id : ResidualId)
  | done
deriving DecidableEq, Repr

namespace Operation

/-- Answer and problem after a call that changes nothing if it fails. -/
def settle (p : Problem α σ) :
    Except ModelError (Answer × Problem α σ) → Except ModelError Answer × Problem α σ
  | .ok (answer, q) => (.ok answer, q)
  | .error e => (.error e, p)

/-- What a call answers, and the problem after it. -/
def perform (p : Problem α σ) : Operation α σ → Except ModelError Answer × Problem α σ
  | addBlock values => (.ok (.block (p.addBlock values).1), (p.addBlock values).2)
  | addBlockOn values manifold =>
      ((p.addBlockOn values manifold).1.map .block, (p.addBlockOn values manifold).2)
  | setManifold id manifold => settle p ((p.setManifold id manifold).map fun q => (.done, q))
  | setConstant id constant => settle p ((p.setConstant id constant).map fun q => (.done, q))
  | setValues id values => settle p ((p.setValues id values).map fun q => (.done, q))
  | removeBlock id => settle p ((p.removeBlock id).map fun q => (.done, q))
  | addResidual cost loss blocks =>
      settle p ((p.addResidual cost loss blocks).map fun (i, q) => (.residual i, q))
  | removeResidual id => settle p ((p.removeResidual id).map fun q => (.done, q))

/-- The slot that a call empties: that of a block it removes, or that of a
block it adds and takes back because its manifold does not fit. -/
def emptied? (p : Problem α σ) : Operation α σ → Option Nat
  | removeBlock id => if p.contains id then some id.slot.toNat else none
  | addBlockOn values manifold =>
      if manifold.ambient = values.size then none else some (p.addBlock values).1.slot.toNat
  | _ => none

/-- The call is given the handle of this parameter block. -/
def Takes (id : BlockId) : Operation α σ → Prop
  | setManifold i _ | setConstant i _ | setValues i _ | removeBlock i => i = id
  | addResidual _ _ blocks => id ∈ blocks
  | addBlock _ | addBlockOn _ _ | removeResidual _ => False

end Operation

namespace Problem

variable {p q : Problem α σ} {id : BlockId} {i : ResidualId}

/-- Whatever is asked or ordered with the handle of a parameter block
fails. -/
structure RefusesBlock (p : Problem α σ) (id : BlockId) : Prop where
  contains : p.contains id = false
  block : p.block id = .error (.unknownBlock id)
  values : p.values id = .error (.unknownBlock id)
  isConstant : p.isConstant id = .error (.unknownBlock id)
  perform : ∀ op : Operation α σ, op.Takes id → ∃ e, op.perform p = (.error e, p)

/-- Whatever is asked or ordered with the handle of a residual block fails. -/
structure RefusesResidual (p : Problem α σ) (i : ResidualId) : Prop where
  residual : p.residual i = .error (.unknownResidual i)
  evaluateResidual : ∀ applyLoss wantJacobians t,
    Succeeds (p.evaluateResidual i applyLoss wantJacobians).run t fun r _ =>
      r = .error (.unknownResidual i)
  perform : (Operation.removeResidual i).perform p = (.error (.unknownResidual i), p)

theorem contains_eq_false : p.contains id = false ↔ p.block? id = none := by
  rw [contains, Option.isSome_eq_false_iff, Option.isNone_iff_eq_none]

theorem refusesBlock_of_not_live (h : p.contains id = false) : p.RefusesBlock id := by
  have hblock : p.block id = .error (.unknownBlock id) :=
    block_eq_error (contains_eq_false.mp h)
  refine ⟨h, hblock, by rw [values, hblock]; rfl, by rw [isConstant, hblock]; rfl, ?_⟩
  intro op hop
  cases op with
  | addBlock values => cases hop
  | addBlockOn values manifold => cases hop
  | removeResidual j => cases hop
  | setManifold i manifold =>
      obtain rfl : i = id := hop
      exact ⟨.unknownBlock i, by simp only [Operation.perform, setManifold, hblock]; rfl⟩
  | setConstant i constant =>
      obtain rfl : i = id := hop
      exact ⟨.unknownBlock i, by simp only [Operation.perform, setConstant, hblock]; rfl⟩
  | setValues i values =>
      obtain rfl : i = id := hop
      exact ⟨.unknownBlock i, by simp only [Operation.perform, setValues, hblock]; rfl⟩
  | removeBlock i =>
      obtain rfl : i = id := hop
      exact ⟨.unknownBlock i, by simp only [Operation.perform, removeBlock, hblock]; rfl⟩
  | addResidual cost loss blocks =>
      cases hadd : p.addResidual cost loss blocks with
      | error e => exact ⟨e, by simp only [Operation.perform, hadd]; rfl⟩
      | ok r =>
          -- blocks that are accepted are live
          obtain ⟨-, -, hsizes, -⟩ := addResidual_eq_ok hadd
          have hlive := contains_of_forall₂ hsizes id hop
          rw [h] at hlive
          cases hlive

theorem refusesResidual_of_not_live (h : p.residual? i = none) : p.RefusesResidual i := by
  have hresidual : p.residual i = .error (.unknownResidual i) := by rw [residual, h]
  refine ⟨hresidual, fun applyLoss wantJacobians t => ?_, ?_⟩
  · unfold evaluateResidual evaluateResidual.liftExcept
    rw [succeeds_run_bind, succeeds_run_mk, succeeds_pure, hresidual]
  · simp only [Operation.perform, removeResidual, hresidual]
    rfl

end Problem

/-! ## Slots are never given up -/

namespace Problem

variable {p q : Problem α σ} {id : BlockId}

theorem size_addBlock (p : Problem α σ) (values : Vec α) :
    (p.addBlock values).2.slots.size = p.slots.size + if p.freeSlots = [] then 1 else 0 := by
  unfold addBlock
  split
  · rename_i hfree
    rw [if_neg (by simp [hfree])]
    exact Array.size_modify ..
  · rename_i hfree
    rw [if_pos hfree]
    exact Array.size_push ..

theorem size_removeBlock (hq : p.removeBlock id = .ok q) : q.slots.size = p.slots.size := by
  obtain ⟨-, -, rfl⟩ := removeBlock_eq_ok hq
  exact Array.size_modify ..

theorem size_addBlockOn (p : Problem α σ) (values : Vec α) (manifold : Manifold α) :
    (p.addBlockOn values manifold).2.slots.size = (p.addBlock values).2.slots.size := by
  unfold addBlockOn
  dsimp only
  split
  · rename_i q hq
    exact (alike_of_setManifold hq).slots_size
  · split
    · rename_i q hq
      exact size_removeBlock hq
    · rfl

/-- A block that is added takes a new slot only if none is free. -/
theorem hasRoom_of_size {values : Vec α}
    (h : (p.addBlock values).2.slots.size ≤ UInt32.size) : p.HasRoom := by
  by_cases hfree : p.freeSlots = []
  · rw [size_addBlock, if_pos hfree] at h
    exact .inr h
  · exact .inl hfree

end Problem

namespace Operation

theorem size_settle {p : Problem α σ} {r : Except ModelError (Problem α σ)}
    (h : ∀ q, r = .ok q → q.slots.size = p.slots.size) :
    (settle p (r.map fun q => (.done, q))).2.slots.size = p.slots.size := by
  cases r with
  | error e => rfl
  | ok q => exact h q rfl

/-- A call takes at most one new slot. -/
theorem size_perform (p : Problem α σ) (op : Operation α σ) :
    p.slots.size ≤ (op.perform p).2.slots.size ∧
      (op.perform p).2.slots.size ≤ p.slots.size + 1 := by
  have hadd : ∀ values, p.slots.size ≤ (p.addBlock values).2.slots.size ∧
      (p.addBlock values).2.slots.size ≤ p.slots.size + 1 := by
    intro values
    rw [Problem.size_addBlock]
    split <;> omega
  have hsame : (op.perform p).2.slots.size = p.slots.size →
      p.slots.size ≤ (op.perform p).2.slots.size ∧
        (op.perform p).2.slots.size ≤ p.slots.size + 1 := by omega
  cases op with
  | addBlock values => exact hadd values
  | addBlockOn values manifold =>
      rw [perform, Problem.size_addBlockOn]
      exact hadd values
  | setManifold id manifold =>
      exact hsame (size_settle fun q hq => (Problem.alike_of_setManifold hq).slots_size)
  | setConstant id constant =>
      exact hsame (size_settle fun q hq => (Problem.alike_of_setConstant hq).slots_size)
  | setValues id values =>
      exact hsame (size_settle fun q hq => (Problem.alike_of_setValues hq).slots_size)
  | removeBlock id => exact hsame (size_settle fun q hq => Problem.size_removeBlock hq)
  | addResidual cost loss blocks =>
      refine hsame ?_
      rw [perform]
      cases hadd : p.addResidual cost loss blocks with
      | error e => rfl
      | ok r =>
          obtain ⟨i, q⟩ := r
          obtain ⟨-, -, -, rfl⟩ := Problem.addResidual_eq_ok hadd
          rfl
  | removeResidual i =>
      refine hsame (size_settle fun q hq => ?_)
      simp only [Problem.removeResidual, except_bind_eq_ok, except_pure_eq_ok] at hq
      obtain ⟨-, -, rfl⟩ := hq
      rfl

end Operation

/-! ## What a call can do -/

/-- What a call can do, by its answer and the slot it empties. -/
inductive Effect (p : Problem α σ) :
    Except ModelError Answer → Option Nat → Problem α σ → Prop
  | failed {e : ModelError} : Effect p (.error e) none p
  | changed {q : Problem α σ} (h : Problem.Alike ParameterBlock.Replaces p q) :
      Effect p (.ok .done) none q
  | added {values : Vec α} {id : BlockId} {p' q : Problem α σ}
      (h : Problem.Adds p values id p') (hq : Problem.Alike ParameterBlock.Replaces p' q) :
      Effect p (.ok (.block id)) none q
  | undone {values : Vec α} {id : BlockId} {p' q : Problem α σ} {e : ModelError}
      (h : Problem.Adds p values id p') (hq : Problem.Removes p' id q) :
      Effect p (.error e) (some id.slot.toNat) q
  | removed {id : BlockId} {q : Problem α σ} (h : Problem.Removes p id q) :
      Effect p (.ok .done) (some id.slot.toNat) q
  | addedResidual {r : ResidualBlock α σ} {n : Nat} :
      Effect p (.ok (.residual ⟨p.residuals.size⟩)) none
        { p with residuals := p.residuals.push (some r), numResidualBlocks := n }
  | removedResidual {i : ResidualId} {r : ResidualBlock α σ} (h : p.residual? i = some r) :
      Effect p (.ok .done) none (p.dropResidual i)

namespace Operation

variable {p q : Problem α σ}

theorem effect_settle {r : Except ModelError (Problem α σ)}
    (h : ∀ q, r = .ok q → Effect p (.ok .done) none q) :
    Effect p (settle p (r.map fun q => (.done, q))).1 none
      (settle p (r.map fun q => (.done, q))).2 := by
  cases r with
  | error e => exact .failed
  | ok q => exact h q rfl

/-- A call has one of these effects, as long as there is a number for the
slot of a block that it adds. -/
theorem effect (h : p.Sound) (op : Operation α σ)
    (hsize : (op.perform p).2.slots.size ≤ UInt32.size) :
    Effect p (op.perform p).1 (op.emptied? p) (op.perform p).2 := by
  cases op with
  | addBlock values => exact .added (h.adds (Problem.hasRoom_of_size hsize) values) (.refl .rfl _)
  | addBlockOn values manifold =>
      have hle : (p.addBlock values).2.slots.size ≤ UInt32.size := by
        rw [← Problem.size_addBlockOn p values manifold]
        exact hsize
      have hadds := h.adds (Problem.hasRoom_of_size hle) values
      rcases h.addBlockOn_cases (Problem.hasRoom_of_size hle) values manifold with
        ⟨hfits, q, hq, hEq⟩ | ⟨hfits, q, e, hq, hEq⟩
      · rw [perform, emptied?, if_pos hfits, hEq]
        exact .added hadds (Problem.alike_of_setManifold hq)
      · rw [perform, emptied?, if_neg hfits, hEq]
        exact .undone hadds (Problem.removes_of_removeBlock hq)
  | setManifold id manifold =>
      exact effect_settle fun q hq => .changed (Problem.alike_of_setManifold hq)
  | setConstant id constant =>
      exact effect_settle fun q hq => .changed (Problem.alike_of_setConstant hq)
  | setValues id values =>
      exact effect_settle fun q hq => .changed (Problem.alike_of_setValues hq)
  | removeBlock id =>
      by_cases hlive : p.contains id = true
      · obtain ⟨q, hq⟩ := Problem.exists_removeBlock hlive
        rw [perform, hq, emptied?, if_pos hlive]
        exact .removed (Problem.removes_of_removeBlock hq)
      · have hlive : p.contains id = false := Bool.eq_false_iff.mpr hlive
        obtain ⟨e, he⟩ := (Problem.refusesBlock_of_not_live hlive).perform (.removeBlock id) rfl
        rw [he, emptied?, hlive]
        exact .failed
  | addResidual cost loss blocks =>
      rw [perform]
      cases hadd : p.addResidual cost loss blocks with
      | error e => exact .failed
      | ok r =>
          obtain ⟨i, q⟩ := r
          obtain ⟨rfl, -, -, rfl⟩ := Problem.addResidual_eq_ok hadd
          exact .addedResidual
  | removeResidual i =>
      refine effect_settle fun q hq => ?_
      simp only [Problem.removeResidual, except_bind_eq_ok, except_pure_eq_ok,
        Problem.residual_eq_ok] at hq
      obtain ⟨r, hr, rfl⟩ := hq
      exact .removedResidual hr

end Operation

/-! ## What one call does to slots and handles -/

namespace Problem

variable {p q : Problem α σ} {id id' : BlockId} {n : Nat}

theorem Alike.generation {R : ParameterBlock α → ParameterBlock α → Prop} (h : Alike R p q)
    (n : Nat) : q.generation n = p.generation n := by
  have hn := h.slots n
  unfold Problem.generation
  generalize p.slots[n]? = x at hn ⊢
  generalize q.slots[n]? = y at hn ⊢
  cases hn with
  | none => rfl
  | some hst => exact hst.1

theorem Adds.generation_eq {values : Vec α} (h : Adds p values id q) (n : Nat) :
    q.generation n = p.generation n := by
  by_cases hn : n = id.slot.toNat
  · have hslot := h.slots n
    rw [if_pos hn] at hslot
    rw [Problem.generation_eq hslot, h.generation, hn]
  · rw [Problem.generation, Problem.generation, h.slots, if_neg hn]

theorem generation_of_contains (h : p.contains id = true) :
    p.generation id.slot.toNat = id.generation := by
  obtain ⟨b, hb⟩ := contains_iff.mp h
  obtain ⟨s, hs, hg, -⟩ := block?_eq_some_iff.mp hb
  rw [generation_eq hs, hg]

theorem Removes.generation_eq (h : Removes p id q) (n : Nat) :
    q.generation n = p.generation n + if n = id.slot.toNat then 1 else 0 := by
  by_cases hn : n = id.slot.toNat
  · have hslot := h.slots n
    rw [if_pos hn] at hslot
    rw [Problem.generation_eq hslot, if_pos hn, hn, generation_of_contains h.live]
  · rw [if_neg hn, UInt32.add_zero, Problem.generation, Problem.generation, h.slots, if_neg hn]

theorem Adds.contains {values : Vec α} (h : Adds p values id q) :
    q.contains id' = true ↔ id' = id ∨ p.contains id' = true := by
  simp only [contains_iff, h.block?]
  by_cases hid : id' = id
  · simp [hid]
  · simp [hid]

theorem Adds.not_contains {values : Vec α} (h : Adds p values id q) : p.contains id = false :=
  contains_eq_false.mpr (h.block?_eq_none rfl)

theorem Removes.contains (h : Removes p id q) :
    q.contains id' = true ↔ id'.slot ≠ id.slot ∧ p.contains id' = true := by
  simp only [contains_iff, h.block?]
  by_cases hslot : id'.slot = id.slot
  · simp [hslot]
  · simp [hslot]

theorem size_residuals_foldl_dropResidual (l : List ResidualId) :
    (l.foldl dropResidual p).residuals.size = p.residuals.size := by
  induction l generalizing p with
  | nil => rfl
  | cons i l ih =>
      rw [List.foldl_cons, ih]
      exact Array.size_setIfInBounds

end Problem

namespace Effect

variable {p q : Problem α σ} {r : Except ModelError Answer} {o : Option Nat} {id : BlockId}
  {i : ResidualId}

/-- A slot that is emptied begins a new generation. -/
theorem generation (h : Effect p r o q) (n : Nat) :
    q.generation n = p.generation n + if o = some n then 1 else 0 := by
  cases h with
  | failed => simp
  | changed h => simp [h.generation]
  | added h hq => simp [hq.generation, h.generation_eq]
  | undone h hq => simp [hq.generation_eq, h.generation_eq, eq_comm]
  | removed h => simp [h.generation_eq, eq_comm]
  | addedResidual =>
      rw [if_neg nofun, UInt32.add_zero]
      rfl
  | removedResidual h =>
      rw [if_neg nofun, UInt32.add_zero]
      rfl

/-- A live handle stays live unless its slot is emptied. -/
theorem contains (h : Effect p r o q) (hid : p.contains id = true) :
    q.contains id = true ∨ o = some id.slot.toNat := by
  have key : ∀ {p' : Problem α σ} {id' : BlockId}, Problem.Removes p' id' q →
      p'.contains id = true →
      q.contains id = true ∨ some id'.slot.toNat = some id.slot.toNat := by
    intro p' id' hq hlive
    by_cases hslot : id.slot = id'.slot
    · exact .inr (by rw [hslot])
    · exact .inl (hq.contains.mpr ⟨hslot, hlive⟩)
  cases h with
  | failed => exact .inl hid
  | changed h => exact .inl ((h.contains id).trans hid)
  | added h hq => exact .inl ((hq.contains id).trans (h.contains.mpr (.inr hid)))
  | undone h hq => exact key hq (h.contains.mpr (.inr hid))
  | removed h => exact key h hid
  | addedResidual => exact .inl hid
  | removedResidual h => exact .inl hid

/-- A handle that is given out is of the generation of its slot, was not live
before, and is live afterwards. -/
theorem block (h : Effect p (.ok (.block id)) o q) :
    id.generation = p.generation id.slot.toNat ∧ p.contains id = false ∧
      q.contains id = true := by
  cases h with
  | added h hq =>
      exact ⟨h.generation, h.not_contains, (hq.contains id).trans (h.contains.mpr (.inl rfl))⟩

/-- The table of residual blocks never shrinks, and a handle that is given
out is the next one. -/
theorem size_residuals (h : Effect p r o q) :
    p.residuals.size ≤ q.residuals.size ∧
      ∀ i, r = .ok (.residual i) →
        i.index = p.residuals.size ∧ q.residuals.size = p.residuals.size + 1 := by
  cases h with
  | failed => exact ⟨Nat.le_refl _, nofun⟩
  | changed h => exact ⟨Nat.le_of_eq (by rw [h.residuals]), nofun⟩
  | added h hq => exact ⟨Nat.le_of_eq (by rw [hq.residuals, h.residuals]), nofun⟩
  | undone h hq =>
      refine ⟨Nat.le_of_eq ?_, nofun⟩
      rw [hq.residuals, Problem.size_residuals_foldl_dropResidual, h.residuals]
  | removed h =>
      refine ⟨Nat.le_of_eq ?_, nofun⟩
      rw [h.residuals, Problem.size_residuals_foldl_dropResidual]
  | addedResidual =>
      refine ⟨by simp, ?_⟩
      rintro i hi
      cases hi
      exact ⟨rfl, by simp⟩
  | removedResidual h =>
      refine ⟨Nat.le_of_eq ?_, nofun⟩
      rw [Problem.dropResidual, Array.size_setIfInBounds]

/-- A residual handle that has been given out and is not live stays so. -/
theorem residual? (h : Effect p r o q) (hlt : i.index < p.residuals.size)
    (hi : p.residual? i = none) : q.residual? i = none := by
  have hsame : ∀ {p q : Problem α σ}, q.residuals = p.residuals →
      q.residual? i = p.residual? i := by
    intro p q hq
    unfold Problem.residual?
    rw [hq]
  cases h with
  | failed => exact hi
  | changed h => rw [h.residual?, hi]
  | added h hq => rw [hq.residual?, hsame h.residuals, hi]
  | undone h hq => rw [hq.residual?, hsame h.residuals, hi, ite_self]
  | removed h => rw [h.residual?, hi, ite_self]
  | addedResidual =>
      unfold Problem.residual? at hi ⊢
      rwa [Array.getElem?_push_lt hlt, ← Array.getElem?_eq_getElem hlt]
  | removedResidual h => rw [Problem.residual?_dropResidual, hi, ite_self]

end Effect

namespace Operation

/-- The problem after a call is again one that operations lead to. -/
theorem reachable_perform {p : Problem α σ} (h : p.Reachable) (op : Operation α σ)
    (hsize : (op.perform p).2.slots.size ≤ UInt32.size) : (op.perform p).2.Reachable := by
  have hsettle : ∀ {r : Except ModelError (Answer × Problem α σ)},
      (∀ answer q, r = .ok (answer, q) → q.Reachable) → (settle p r).2.Reachable := by
    intro r hr
    cases r with
    | error e => exact h
    | ok r => exact hr r.1 r.2 rfl
  have hdone : ∀ {r : Except ModelError (Problem α σ)}, (∀ q, r = .ok q → q.Reachable) →
      (settle p (r.map fun q => (.done, q))).2.Reachable := by
    intro r hr
    refine hsettle fun answer q hq => ?_
    obtain ⟨q', hq', hEq⟩ := except_map_eq_ok.mp hq
    cases hEq
    exact hr _ hq'
  cases op with
  | addBlock values => exact .addBlock h (Problem.hasRoom_of_size hsize) values
  | addBlockOn values manifold =>
      rw [perform, Problem.size_addBlockOn] at hsize
      exact .addBlockOn h (Problem.hasRoom_of_size hsize) values manifold
  | setManifold id manifold => exact hdone fun q hq => .setManifold h hq
  | setConstant id constant => exact hdone fun q hq => .setConstant h hq
  | setValues id values => exact hdone fun q hq => .setValues h hq
  | removeBlock id => exact hdone fun q hq => .removeBlock h hq
  | addResidual cost loss blocks =>
      refine hsettle fun answer q hq => ?_
      obtain ⟨r, hr, hEq⟩ := except_map_eq_ok.mp hq
      cases hEq
      exact .addResidual h hr
  | removeResidual i => exact hdone fun q hq => .removeResidual h hq

end Operation

end LeastSquares
