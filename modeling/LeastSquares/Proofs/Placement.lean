import LeastSquares.Proofs.Jacobian

/-!
# Blocks in the state

The blocks of an evaluator lie one after the other in the state vector. So
values that are written at the place of a block are the values that it then
has, and every other block keeps its own. A step moves every block by its own
manifold, whatever the order in which the blocks are gone through.

## Main definitions

* `Evaluator.Placed` — blocks lie one after the other.

## Main results

* `Evaluator.MadeOf.placed` — evaluators of programs are laid out like this.
* `Evaluator.Placed.valuesIn_splice`, `Evaluator.Placed.valuesIn_splice_of_ne`
  — the blocks of a state in which one was replaced.
* `Evaluator.WellFormed.plus_spec` — what a step does to every block.
-/

namespace LeastSquares

variable {α σ : Type} [Scalar α]

namespace Vec

variable {v w : Vec α} {start n a i : Nat}

theorem get_splice (h : i < v.size) : (v.splice start w).get i =
    if start ≤ i ∧ i < start + w.size then w.get (i - start) else v.get i :=
  get_ofFn_of_lt _ h

theorem get_splice_of_outside (h : ¬ (start ≤ i ∧ i < start + w.size)) :
    (v.splice start w).get i = v.get i := by
  by_cases hi : i < v.size
  · rw [get_splice hi, if_neg h]
  · rw [get_of_le (by rw [size_splice]; omega), get_of_le (by omega)]

/-- The entries that were replaced. -/
theorem slice_splice (h : start + w.size ≤ v.size) :
    (v.splice start w).slice start w.size = w := by
  refine ext_get (size_slice _ _ _) fun i hi => ?_
  rw [size_slice] at hi
  rw [get_slice hi, get_splice (by omega), if_pos ⟨by omega, by omega⟩]
  congr 1
  omega

/-- Entries that are put back where they come from. -/
theorem splice_slice (v : Vec α) (start n : Nat) : v.splice start (v.slice start n) = v := by
  refine ext_get (size_splice _ _ _) fun i hi => ?_
  rw [size_splice] at hi
  rw [get_splice hi, size_slice]
  split
  · rw [get_slice (by omega)]
    congr 1
    omega
  · rfl

theorem slice_zero (v : Vec α) : v.slice 0 v.size = v := by
  refine ext_get (size_slice _ _ _) fun i hi => ?_
  rw [size_slice] at hi
  rw [get_slice hi, Nat.zero_add]

/-- Entries in front of or after the ones that were replaced. -/
theorem slice_splice_of_disjoint (h : a + n ≤ start ∨ start + w.size ≤ a) :
    (v.splice start w).slice a n = v.slice a n := by
  refine ext_get (by rw [size_slice, size_slice]) fun i hi => ?_
  rw [size_slice] at hi
  rw [get_slice hi, get_slice hi, get_splice_of_outside (by omega)]

end Vec

theorem total_take_le (l : List Nat) {k m : Nat} (h : k ≤ m) :
    total (l.take k) ≤ total (l.take m) := by
  have hsplit : l.take m = l.take k ++ (l.drop k).take (m - k) := by
    rw [← List.take_add, Nat.add_sub_cancel' h]
  rw [hsplit, total_append]
  exact Nat.le_add_right _ _

namespace Evaluator

/-- The blocks lie one after the other in the state. -/
def Placed (e : Evaluator α σ) : Prop :=
  ∀ k b, e.blocks[k]? = some b → b.stateOffset = total ((e.blocks.take k).map FreeBlock.size)

variable {e : Evaluator α σ} {b c : FreeBlock α} {k l : Nat} {x delta : Vec α}

theorem stateOffset_freeBlocks {p : Problem α σ} {stateOffset deltaOffset : Nat}
    {ids : List BlockId} {blocks : List (FreeBlock α)}
    (h : freeBlocks p stateOffset deltaOffset ids = .ok blocks) (hk : blocks[k]? = some b) :
    b.stateOffset = stateOffset + total ((blocks.take k).map FreeBlock.size) := by
  induction ids generalizing stateOffset deltaOffset blocks k with
  | nil =>
      cases h
      cases hk
  | cons id ids ih =>
      obtain ⟨pb, -, rest, hrest, rfl⟩ := freeBlocks_cons.mp h
      cases k with
      | zero =>
          cases hk
          rfl
      | succ k =>
          rw [ih hrest hk, List.take_succ_cons, List.map_cons, total_cons, Nat.add_assoc]

theorem MadeOf.placed {p : Problem α σ} {g : Program} (h : e.MadeOf p g) : e.Placed :=
  fun k b hb => by rw [stateOffset_freeBlocks h.blocks hb, Nat.zero_add]

namespace Placed

variable (he : e.Placed)

include he

theorem stop_eq (hb : e.blocks[k]? = some b) :
    b.stateOffset + b.size = total ((e.blocks.map FreeBlock.size).take (k + 1)) := by
  rw [he k b hb, List.map_take, total_take_succ]
  rw [List.getElem?_map, hb, Option.map_some]

/-- Every block lies within the state. -/
theorem stop_le (hb : e.blocks[k]? = some b) : b.stateOffset + b.size ≤ e.numParameters := by
  rw [he k b hb, List.map_take]
  exact total_take_add_le (by rw [List.getElem?_map, hb, Option.map_some])

theorem stop_le_of_lt (hb : e.blocks[k]? = some b) (hc : e.blocks[l]? = some c) (h : k < l) :
    b.stateOffset + b.size ≤ c.stateOffset := by
  rw [he.stop_eq hb, he l c hc, List.map_take]
  exact total_take_le _ h

theorem reaches (hx : x.size = e.numParameters) (k : Nat) : e.reaches x.size k = true := by
  unfold Evaluator.reaches
  split
  · rename_i b hb
    rw [hx]
    exact decide_eq_true (he.stop_le hb)
  · rfl

/-- Two blocks have no entry of the state in common. -/
theorem disjoint (hb : e.blocks[k]? = some b) (hc : e.blocks[l]? = some c) (h : k ≠ l) :
    c.stateOffset + c.size ≤ b.stateOffset ∨ b.stateOffset + b.size ≤ c.stateOffset := by
  rcases Nat.lt_or_gt_of_ne h with hlt | hgt
  · exact .inr (he.stop_le_of_lt hb hc hlt)
  · exact .inl (he.stop_le_of_lt hc hb hgt)

variable {v : Vec α}

/-- Values that are put in the place of a block are then its values. -/
theorem valuesIn_splice (hb : e.blocks[k]? = some b) (hx : x.size = e.numParameters)
    (hv : v.size = b.size) : b.valuesIn (x.splice b.stateOffset v) = v := by
  rw [FreeBlock.valuesIn, ← hv]
  refine Vec.slice_splice ?_
  rw [hv, hx]
  exact he.stop_le hb

/-- All other blocks keep their values. -/
theorem valuesIn_splice_of_ne (hb : e.blocks[k]? = some b) (hc : e.blocks[l]? = some c)
    (h : k ≠ l) (hv : v.size = b.size) :
    c.valuesIn (x.splice b.stateOffset v) = c.valuesIn x :=
  Vec.slice_splice_of_disjoint (hv ▸ he.disjoint hb hc h)

end Placed

/-! ## Steps -/

/-- The steps of blocks that lie one after the other. Each block has the values
that its own step leads to, and what lies between them is left alone. -/
theorem plusBlocks_spec {bs : List (FreeBlock α)} {out y : Vec α}
    (hsize : ∀ b ∈ bs, ∀ v, b.plus (b.valuesIn x) (delta.slice b.deltaOffset b.localSize) = .ok v →
      v.size = b.size)
    (hfit : ∀ b ∈ bs, b.stateOffset + b.size ≤ out.size)
    (hpair : bs.Pairwise fun b c => b.stateOffset + b.size ≤ c.stateOffset)
    (h : plusBlocks x delta bs out = .ok y) : y.size = out.size ∧
      (∀ a n, (∀ b ∈ bs, a + n ≤ b.stateOffset) → y.slice a n = out.slice a n) ∧
      ∀ b ∈ bs, b.plus (b.valuesIn x) (delta.slice b.deltaOffset b.localSize) =
        .ok (b.valuesIn y) := by
  induction bs generalizing out with
  | nil =>
      cases h
      exact ⟨rfl, fun _ _ _ => rfl, fun _ hb => absurd hb List.not_mem_nil⟩
  | cons b bs ih =>
      obtain ⟨hafter, hpair⟩ := List.pairwise_cons.mp hpair
      rw [plusBlocks] at h
      split at h
      · cases h
      · rename_i v hv
        have hvsize := hsize b (by simp) v hv
        obtain ⟨hysize, hbefore, hblocks⟩ := ih
          (fun c hc => hsize c (List.mem_cons_of_mem b hc))
          (fun c hc => by
            rw [Vec.size_splice]
            exact hfit c (List.mem_cons_of_mem b hc)) hpair h
        refine ⟨hysize.trans (Vec.size_splice _ _ _), fun a n han => ?_, fun c hc => ?_⟩
        · rw [hbefore a n fun c hc => han c (List.mem_cons_of_mem b hc)]
          exact Vec.slice_splice_of_disjoint (.inl (han b (by simp)))
        · rcases List.mem_cons.mp hc with rfl | hc
          · have hvalues : c.valuesIn y = v := by
              rw [FreeBlock.valuesIn, hbefore _ _ hafter, ← hvsize]
              exact Vec.slice_splice (hvsize ▸ hfit c (by simp))
            rw [hv, hvalues]
          · exact hblocks c hc

theorem exists_plusBlocks {bs : List (FreeBlock α)} (out : Vec α)
    (h : ∀ b ∈ bs, ∃ v, b.plus (b.valuesIn x) (delta.slice b.deltaOffset b.localSize) = .ok v) :
    ∃ y, plusBlocks x delta bs out = .ok y := by
  induction bs generalizing out with
  | nil => exact ⟨out, rfl⟩
  | cons b bs ih =>
      obtain ⟨v, hv⟩ := h b (by simp)
      rw [plusBlocks, hv]
      exact ih _ fun c hc => h c (List.mem_cons_of_mem b hc)

/-- The step of a block keeps its size. -/
theorem WellFormed.exists_plus_block (he : e.WellFormed) (hb : b ∈ e.blocks) (x delta : Vec α) :
    ∃ v, b.plus (b.valuesIn x) (delta.slice b.deltaOffset b.localSize) = .ok v ∧
      v.size = b.size := by
  have hvalues : (b.valuesIn x).size = b.size := Vec.size_slice _ _ _
  unfold FreeBlock.plus
  cases hm : b.manifold with
  | none => exact ⟨_, rfl, (Vec.size_add _ _).trans hvalues⟩
  | some m =>
      obtain ⟨hambient, htangent⟩ := he.manifold b hb m hm
      rw [← hambient]
      exact m.plus_ok _ _ (hvalues.trans hambient.symm) ((Vec.size_slice _ _ _).trans htangent.symm)

/-- A step moves every block by its own manifold. -/
theorem WellFormed.plus_spec (he : e.WellFormed) (hplaced : e.Placed) {y : Vec α}
    (h : e.plus x delta = .ok y) : y.size = x.size ∧
      ∀ b ∈ e.blocks, b.plus (b.valuesIn x) (delta.slice b.deltaOffset b.localSize) =
        .ok (b.valuesIn y) := by
  unfold Evaluator.plus at h
  split at h
  · cases h
  · rename_i hsizes
    simp only [Bool.or_eq_true, decide_eq_true_eq, not_or, not_lt] at hsizes
    have hvalues : ∀ b ∈ e.blocks, ∀ v,
        b.plus (b.valuesIn x) (delta.slice b.deltaOffset b.localSize) = .ok v →
          v.size = b.size := by
      intro b hb v hv
      obtain ⟨v', hv', hvsize⟩ := he.exists_plus_block hb x delta
      rw [hv] at hv'
      cases hv'
      exact hvsize
    have hfit : ∀ b ∈ e.blocks, b.stateOffset + b.size ≤ x.size := by
      intro b hb
      obtain ⟨k, hk⟩ := List.mem_iff_getElem?.mp hb
      exact (hplaced.stop_le hk).trans hsizes.1
    have hpair : e.blocks.Pairwise fun b c => b.stateOffset + b.size ≤ c.stateOffset :=
      List.pairwise_iff_getElem.mpr fun k l hk hl hlt =>
        hplaced.stop_le_of_lt (List.getElem?_eq_getElem hk) (List.getElem?_eq_getElem hl) hlt
    obtain ⟨hsize, -, hblocks⟩ := plusBlocks_spec hvalues hfit hpair h
    exact ⟨hsize, hblocks⟩

/-- A step that reaches every block of a state leads somewhere. -/
theorem WellFormed.exists_plus (he : e.WellFormed) (hx : x.size = e.numParameters)
    (hdelta : delta.size = e.numEffectiveParameters) : ∃ y, e.plus x delta = .ok y := by
  unfold Evaluator.plus
  rw [hx, hdelta, if_neg (by simp)]
  refine exists_plusBlocks x fun b hb => ?_
  obtain ⟨v, hv, -⟩ := he.exists_plus_block hb x delta
  exact ⟨v, hv⟩

end Evaluator

end LeastSquares
