import LeastSquares.Proofs.Cost
import LeastSquares.Proofs.EliminationOrder
import LeastSquares.Proofs.ResidualOrder
import Mathlib.Data.List.Perm.Subperm

/-!
# What reduction keeps

A residual block is set aside if it reads no free block, and a parameter
block is dropped if no other residual block reads it as a free one. Nothing
else is lost: the residual blocks that are left and those set aside are
together the ones there were, and arranging what is left for a linear solver
only changes its order.

## Main definitions

* `Problem.Readable`, `Problem.ReadsFree`, `Problem.Varies` — what a residual
  block reads.
* `Program.Dropping` — what setting constant parts aside in place leaves.
* `Removal.Of`, `ReducedProgram.Of` — what setting aside and reducing keep.

## Main results

* `Program.succeeds_separate` — residual blocks that read constant blocks
  only.
* `Program.succeeds_dropFixed`, `Program.returns_removeFixed` — setting
  constant parts aside, in place and as a result.
* `ReducedProgram.returns_create` — the whole reduction.
-/

namespace LeastSquares

variable {α σ : Type} [Scalar α]

namespace Problem

/-- The residual block and all it reads are live. -/
def Readable (p : Problem α σ) (i : ResidualId) : Prop :=
  ∃ r, p.residual? i = some r ∧ ∀ id ∈ r.blocks, p.contains id = true

/-- The residual block reads the parameter block, which is not held
constant. -/
def ReadsFree (p : Problem α σ) (i : ResidualId) (id : BlockId) : Prop :=
  ∃ r, p.residual? i = some r ∧ id ∈ r.blocks ∧ ∃ b, p.block? id = some b ∧ b.constant = false

/-- The residual block reads a parameter block that is not held constant. -/
def Varies (p : Problem α σ) (i : ResidualId) : Prop := ∃ id, p.ReadsFree i id

theorem readsFree_iff {p : Problem α σ} {i : ResidualId} {id : BlockId} : p.ReadsFree i id ↔
    ((p.residual? i).any fun r => r.blocks.contains id) = true ∧
      ((p.block? id).any fun b => !b.constant) = true := by
  simp only [ReadsFree, Option.any_eq_true, List.contains_iff_mem, Bool.not_eq_true']
  constructor
  · intro ⟨r, hr, hid, hb⟩
    exact ⟨⟨r, hr, hid⟩, hb⟩
  · intro ⟨⟨r, hr, hid⟩, hb⟩
    exact ⟨r, hr, hid, hb⟩

instance (p : Problem α σ) (i : ResidualId) (id : BlockId) : Decidable (p.ReadsFree i id) :=
  decidable_of_iff _ readsFree_iff.symm

theorem varies_iff {p : Problem α σ} {i : ResidualId} : p.Varies i ↔
    ((p.residual? i).any fun r => r.blocks.any fun id =>
      (p.block? id).any fun b => !b.constant) = true := by
  simp only [Varies, ReadsFree, Option.any_eq_true, List.any_eq_true, Bool.not_eq_true']
  constructor
  · intro ⟨id, r, hr, hid, hb⟩
    exact ⟨r, hr, id, hid, hb⟩
  · intro ⟨r, hr, id, hid, hb⟩
    exact ⟨id, r, hr, hid, hb⟩

instance (p : Problem α σ) (i : ResidualId) : Decidable (p.Varies i) :=
  decidable_of_iff _ varies_iff.symm

/-- The residual block has no usable evaluation in some state of the users'
functions, which it leaves in the given state. -/
def FailsAt (p : Problem α σ) (i : ResidualId) (t' : Tally σ) : Prop :=
  ∃ t e, (p.evaluateResidual i true false).run t = .ok (.error e) t'

end Problem

namespace Program

open Problem (SameContent SameShape)

variable {p q : Problem α σ} {g g' : Program} {i : ResidualId} {id : BlockId} {t : Tally σ}

/-! ## Constant parts -/

theorem freeBlocksOf_eq_ok {free : List BlockId} (h : freeBlocksOf p i = .ok free) :
    p.Readable i ∧ ∀ id, id ∈ free ↔ p.ReadsFree i id := by
  simp only [freeBlocksOf, except_bind_eq_ok, except_pure_eq_ok, Problem.residual_eq_ok] at h
  obtain ⟨r, hr, blocks, hblocks, rfl⟩ := h
  obtain ⟨hlive, hfree⟩ := Problem.constancies_eq_ok hblocks
  refine ⟨⟨r, hr, hlive⟩, fun id => (hfree id).trans ⟨fun hid => ⟨r, hr, hid⟩, ?_⟩⟩
  rintro ⟨r', hr', hid⟩
  rw [hr] at hr'
  cases hr'
  exact hid

theorem exists_freeBlocksOf (h : p.Readable i) : ∃ free, freeBlocksOf p i = .ok free := by
  obtain ⟨r, hr, hlive⟩ := h
  obtain ⟨blocks, hblocks⟩ := Problem.exists_constancies hlive
  refine ⟨(blocks.filter fun b => !b.2).map Prod.fst, ?_⟩
  simp only [freeBlocksOf, except_bind_eq_ok, except_pure_eq_ok, Problem.residual_eq_ok]
  exact ⟨r, hr, blocks, hblocks, rfl⟩

/-- A residual block varies if it reads a free block. -/
theorem varies_iff_of_freeBlocksOf {free : List BlockId} (h : freeBlocksOf p i = .ok free) :
    p.Varies i ↔ free ≠ [] := by
  obtain ⟨-, hfree⟩ := freeBlocksOf_eq_ok h
  rw [ne_eq, List.eq_nil_iff_forall_not_mem, not_forall_not]
  exact exists_congr fun id => (hfree id).symm

/-- What is known of residual blocks once they are separated. -/
structure Separated (p : Problem α σ) (cost : α) (ids fixed : List ResidualId) (total : α)
    (kept : List (ResidualId × List BlockId)) : Prop where
  fixed_eq : fixed = ids.filter fun i => ¬ p.Varies i
  kept_eq : kept.map Prod.fst = ids.filter fun i => p.Varies i
  constant : ∀ i ∈ fixed, freeBlocksOf p i = .ok []
  free : ∀ i free, (i, free) ∈ kept → freeBlocksOf p i = .ok free ∧ free ≠ []
  cost : p.Pure → ∀ u, addCosts cost (fixed.map (p.residualCost? u)) = some total

/-- Separating loses no residual block. -/
theorem Separated.split {cost total : α} {ids fixed : List ResidualId}
    {kept : List (ResidualId × List BlockId)} (h : Separated p cost ids fixed total kept) :
    ids.Perm (fixed ++ kept.map Prod.fst) := by
  rw [h.fixed_eq, h.kept_eq]
  have hperm := List.filter_append_perm (fun i => decide (p.Varies i)) ids
  simp only [← decide_not] at hperm
  exact (List.perm_append_comm.trans hperm).symm

section Cons

variable {cost c total : α} {ids fixed : List ResidualId} {free : List BlockId}
  {kept : List (ResidualId × List BlockId)}

/-- A residual block that reads constant blocks only joins the fixed ones, and
its cost the sum. -/
theorem Separated.cons_fixed (h : Separated p (cost + c) ids fixed total kept)
    (hfree : freeBlocksOf p i = .ok []) (hc : p.Pure → ∀ u, p.residualCost? u i = some c) :
    Separated p cost (i :: ids) (i :: fixed) total kept := by
  have hconst : ¬ p.Varies i := by simp [varies_iff_of_freeBlocksOf hfree]
  refine ⟨?_, ?_, ?_, h.free, fun hp u => ?_⟩
  · rw [List.filter_cons_of_pos (by simpa using hconst), ← h.fixed_eq]
  · rw [List.filter_cons_of_neg (by simpa using hconst), h.kept_eq]
  · intro j hj
    rcases List.mem_cons.mp hj with rfl | hj
    · exact hfree
    · exact h.constant j hj
  · rw [List.map_cons, hc hp u]
    exact h.cost hp u

/-- A residual block that reads a free block joins the kept ones. -/
theorem Separated.cons_kept (h : Separated p cost ids fixed total kept)
    (hfree : freeBlocksOf p i = .ok free) (hne : free ≠ []) :
    Separated p cost (i :: ids) fixed total ((i, free) :: kept) := by
  have hvaries : p.Varies i := (varies_iff_of_freeBlocksOf hfree).mpr hne
  refine ⟨?_, ?_, h.constant, ?_, h.cost⟩
  · rw [List.filter_cons_of_neg (by simpa using hvaries), ← h.fixed_eq]
  · rw [List.filter_cons_of_pos (by simpa using hvaries), List.map_cons, h.kept_eq]
  · intro j free' hj
    rcases List.mem_cons.mp hj with hj | hj
    · cases hj
      exact ⟨hfree, hne⟩
    · exact h.free j free' hj

end Cons

/-- Why residual blocks cannot be separated: one of them cannot be read, or
one that reads constant blocks only has no usable evaluation. -/
def Unseparable (p : Problem α σ) (position : Nat) (ids : List ResidualId) (e : ModelError)
    (t : Tally σ) : Prop :=
  (∃ i ∈ ids, ¬ p.Readable i) ∨ ∃ n i, ids[n]? = some i ∧ freeBlocksOf p i = .ok [] ∧
    p.FailsAt i t ∧ e = .fixedCostFailed (position + n)

theorem Unseparable.cons {position : Nat} {ids : List ResidualId} {e : ModelError}
    (h : Unseparable p (position + 1) ids e t) : Unseparable p position (i :: ids) e t := by
  rcases h with ⟨j, hj, hread⟩ | ⟨n, j, hj, hfree, hfail, rfl⟩
  · exact .inl ⟨j, List.mem_cons_of_mem i hj, hread⟩
  · exact .inr ⟨n + 1, j, hj, hfree, hfail, by rw [Nat.add_assoc, Nat.add_comm 1 n]⟩

theorem succeeds_fixedCostOf (p : Problem α σ) (position : Nat) (i : ResidualId) :
    Succeeds (fixedCostOf p position i).run t fun r t' =>
      match r with
      | .ok cost => p.Pure → ∀ u, p.residualCost? u i = some cost
      | .error e => p.FailsAt i t' ∧ e = .fixedCostFailed position := by
  unfold fixedCostOf
  rw [succeeds_run_mk, succeeds_bind]
  obtain ⟨r, t', hr, hcost⟩ := p.succeeds_evaluateResidual (t := t) i
  refine ⟨r, t', hr, ?_⟩
  cases r with
  | error e => exact succeeds_pure.mpr ⟨⟨t, e, hr⟩, rfl⟩
  | ok ev => exact succeeds_pure.mpr fun hp u => (hcost hp u).symm

/-- Separating residual blocks cannot break. -/
theorem succeeds_separate (p : Problem α σ) (position : Nat) (cost : α) (ids : List ResidualId) :
    Succeeds (separate p position cost ids).run t fun r t' =>
      match r with
      | .ok (total, kept) => ∃ fixed, Separated p cost ids fixed total kept
      | .error e => Unseparable p position ids e t' := by
  induction ids generalizing position cost t with
  | nil => exact succeeds_run_pure.mpr ⟨[], rfl, rfl, nofun, nofun, fun _ _ => rfl⟩
  | cons i ids ih =>
      rw [separate, succeeds_run_bind, succeeds_run_mk, succeeds_pure]
      cases hfree : freeBlocksOf p i with
      | error e =>
          refine .inl ⟨i, by simp, fun hread => ?_⟩
          obtain ⟨free, hfree'⟩ := exists_freeBlocksOf hread
          rw [hfree] at hfree'
          cases hfree'
      | ok free =>
          dsimp only
          split
          · rename_i hnil
            rw [List.isEmpty_iff] at hnil
            subst hnil
            rw [succeeds_run_bind]
            refine (succeeds_fixedCostOf p position i).mono ?_
            rintro (e | c) t' hc
            · exact .inr ⟨0, i, rfl, hfree, hc.1, hc.2⟩
            · refine (ih (position + 1) (cost + c)).mono ?_
              rintro (e | ⟨total, kept⟩) t'' h
              · exact h.cons
              · obtain ⟨fixed, h⟩ := h
                exact ⟨i :: fixed, h.cons_fixed hfree hc⟩
          · rename_i hnil
            rw [succeeds_run_bind]
            refine (ih (position + 1) cost).mono ?_
            rintro (e | ⟨total, kept⟩) t' h
            · exact h.cons
            · obtain ⟨fixed, h⟩ := h
              exact succeeds_run_pure.mpr ⟨fixed, h.cons_kept hfree (by simpa using hnil)⟩

end Program

/-- What setting constant parts aside keeps of a program. -/
structure Removal.Of (removal : Removal α) (p : Problem α σ) (g : Program) : Prop where
  residuals : ∃ fixed, g.residuals.Perm (fixed ++ removal.program.residuals) ∧
    (∀ i ∈ fixed, p.Readable i ∧ ∀ id, ¬ p.ReadsFree i id) ∧
    (p.Pure → ∀ u, addCosts 0 (fixed.map (p.residualCost? u)) = some removal.fixedCost)
  kept : ∀ i ∈ removal.program.residuals, p.Readable i ∧ ∃ id, p.ReadsFree i id
  sublist : removal.program.blocks.Sublist g.blocks
  mem_blocks : ∀ id, id ∈ removal.program.blocks ↔
    id ∈ g.blocks ∧ ∃ i ∈ removal.program.residuals, p.ReadsFree i id
  mem_dropped : ∀ id, id ∈ removal.dropped ↔ id ∈ g.blocks ∧ id ∉ removal.program.blocks
  balanced : removal.program.residuals = [] ↔ removal.program.blocks = []

namespace Program

variable {p q : Problem α σ} {g g' : Program} {i : ResidualId} {id : BlockId} {t : Tally σ}

/-- What taking the constant part out of a program and an order leaves: the
residual blocks that vary, the parameter blocks that one of these reads, and
the order without the other parameter blocks. -/
structure Dropping (p : Problem α σ) (g : Program) (o : Option EliminationOrder)
    (left : Program × Option EliminationOrder) (total : α) : Prop where
  readable : ∀ i ∈ g.residuals, p.Readable i
  residuals : left.1.residuals = g.residuals.filter fun i => p.Varies i
  blocks : left.1.blocks = g.blocks.filter fun id => ∃ i ∈ left.1.residuals, p.ReadsFree i id
  order : left.2 = o.map (·.removeAll (g.blocks.filter fun id => !left.1.blocks.contains id))
  cost : p.Pure → ∀ u, addCosts 0
    ((g.residuals.filter fun i => ¬ p.Varies i).map (p.residualCost? u)) = some total

/-- The blocks that are used are those that a residual block reads that is
kept. -/
theorem Separated.contains_used {cost total : α} {ids fixed : List ResidualId}
    {kept : List (ResidualId × List BlockId)} (h : Separated p cost ids fixed total kept)
    (id : BlockId) : (kept.flatMap Prod.snd).contains id =
      decide (∃ i ∈ kept.map Prod.fst, p.ReadsFree i id) := by
  rw [List.contains_eq_mem]
  apply decide_eq_decide.mpr
  simp only [List.mem_flatMap, List.mem_map]
  constructor
  · rintro ⟨⟨i, free⟩, hi, hid⟩
    have hfree := (freeBlocksOf_eq_ok (h.free i free hi).1).2
    exact ⟨i, ⟨_, hi, rfl⟩, (hfree id).mp hid⟩
  · rintro ⟨i, ⟨⟨i', free⟩, hi, rfl⟩, hid⟩
    have hfree := (freeBlocksOf_eq_ok (h.free i' free hi).1).2
    exact ⟨_, hi, (hfree id).mpr hid⟩

theorem filter_not_contains_filter (l : List BlockId) (test : BlockId → Bool) :
    l.filter (fun id => !(l.filter test).contains id) = l.filter fun id => !test id := by
  apply List.filter_congr
  intro id hid
  rw [List.contains_eq_mem]
  simp [List.mem_filter, hid]

theorem Separated.dropping {fixed : List ResidualId} {total : α} {o : Option EliminationOrder}
    {kept : List (ResidualId × List BlockId)}
    (h : Separated p 0 g.residuals fixed total kept) :
    Dropping p g o (⟨g.blocks.filter (kept.flatMap Prod.snd).contains, kept.map Prod.fst⟩,
      o.map (·.removeAll (g.blocks.filter fun id => !(kept.flatMap Prod.snd).contains id)))
      total where
  readable := by
    intro i hi
    rcases List.mem_append.mp (h.split.mem_iff.mp hi) with hi | hi
    · exact (freeBlocksOf_eq_ok (h.constant i hi)).1
    · obtain ⟨⟨i, free⟩, hmem, rfl⟩ := List.mem_map.mp hi
      exact (freeBlocksOf_eq_ok (h.free i free hmem).1).1
  residuals := h.kept_eq
  blocks := List.filter_congr fun id _ => h.contains_used id
  order := by rw [filter_not_contains_filter]
  cost := by
    have hcost := h.cost
    rw [h.fixed_eq] at hcost
    exact hcost

/-- Taking constant parts out cannot break, but for the balance. -/
theorem succeeds_dropFixed (g : Program) (o : Option EliminationOrder) (p : Problem α σ) :
    Succeeds (g.dropFixed o p) t fun r t' =>
      match r.1 with
      | .ok total => Dropping p g o r.2 total ∧ (r.2.1.residuals = [] ↔ r.2.1.blocks = [])
      | .error (.error e) => r.2 = (g, o) ∧ Unseparable p 0 g.residuals e t'
      | .error (.fault f) => f = .unbalancedProgram ∧ (∃ total, Dropping p g o r.2 total) ∧
          ¬ (r.2.1.residuals = [] ↔ r.2.1.blocks = []) := by
  unfold dropFixed
  rw [succeeds_bind]
  refine (succeeds_separate p 0 0 g.residuals).mono ?_
  rintro (e | ⟨total, kept⟩) t' h
  · exact succeeds_pure.mpr ⟨rfl, h⟩
  · obtain ⟨fixed, h⟩ := h
    have hbalance : (kept.isEmpty ==
        (g.blocks.filter (kept.flatMap Prod.snd).contains).isEmpty) = true ↔
          (kept.map Prod.fst = [] ↔ g.blocks.filter (kept.flatMap Prod.snd).contains = []) := by
      rw [beq_iff_eq, Bool.eq_iff_iff, List.isEmpty_iff, List.isEmpty_iff, List.map_eq_nil_iff]
    dsimp only
    split
    · rename_i hb
      exact succeeds_pure.mpr ⟨h.dropping, hbalance.mp hb⟩
    · rename_i hb
      exact succeeds_pure.mpr ⟨rfl, ⟨total, h.dropping⟩, fun hb' => hb (hbalance.mpr hb')⟩

theorem Dropping.mem_blocks {o : Option EliminationOrder}
    {left : Program × Option EliminationOrder} {total : α} (h : Dropping p g o left total) :
    id ∈ left.1.blocks ↔ id ∈ g.blocks ∧ ∃ i ∈ left.1.residuals, p.ReadsFree i id := by
  rw [h.blocks, List.mem_filter, decide_eq_true_eq]

theorem Dropping.removal {o : Option EliminationOrder}
    {left : Program × Option EliminationOrder} {total : α} (h : Dropping p g o left total)
    (hbalance : left.1.residuals = [] ↔ left.1.blocks = []) :
    Removal.Of ⟨left.1, g.blocks.filter fun id => !left.1.blocks.contains id, total⟩ p g where
  residuals := by
    have hperm := List.filter_append_perm (fun i => decide (p.Varies i)) g.residuals
    simp only [← decide_not] at hperm
    rw [← h.residuals] at hperm
    refine ⟨_, (List.perm_append_comm.trans hperm).symm, ?_, h.cost⟩
    intro i hi
    obtain ⟨hi, hconst⟩ := List.mem_filter.mp hi
    exact ⟨h.readable i hi, fun id hid => of_decide_eq_true hconst ⟨id, hid⟩⟩
  kept := by
    intro i hi
    rw [h.residuals] at hi
    obtain ⟨hi, hvaries⟩ := List.mem_filter.mp hi
    have hvaries : p.Varies i := of_decide_eq_true hvaries
    exact ⟨h.readable i hi, hvaries⟩
  sublist := by
    rw [h.blocks]
    exact List.filter_sublist
  mem_blocks _ := h.mem_blocks
  mem_dropped _ := by simp [List.mem_filter]
  balanced := hbalance

theorem returns_removeFixed :
    Returns (g.removeFixed p).run t fun r _ => ∀ removal, r = .ok removal → removal.Of p g := by
  unfold removeFixed
  rw [returns_run_mk, returns_bind]
  refine (succeeds_dropFixed g none p).returns.mono ?_
  rintro ⟨(f | e) | total, left, o⟩ t' h
  · exact returns_throw
  · exact returns_pure.mpr nofun
  · rw [InPlace.result, returns_pure]
    rintro removal hremoval
    cases hremoval
    exact h.1.removal h.2

/-- The program lists live blocks, each once, and all blocks that its residual
blocks read. -/
structure Closed (g : Program) (p : Problem α σ) : Prop where
  nodup : g.blocks.Nodup
  live : ∀ id ∈ g.blocks, p.contains id = true
  readable : ∀ i ∈ g.residuals, p.Readable i
  covers : ∀ i ∈ g.residuals, ∀ id, p.ReadsFree i id → id ∈ g.blocks

/-- A residual block that is kept reads a block that is kept. -/
theorem Closed.balanced (h : g.Closed p) {o : Option EliminationOrder}
    {left : Program × Option EliminationOrder} {total : α} (hleft : Dropping p g o left total) :
    left.1.residuals = [] ↔ left.1.blocks = [] := by
  constructor
  · intro hres
    rw [hleft.blocks, hres]
    simp
  · intro hblocks
    rw [List.eq_nil_iff_forall_not_mem]
    intro i hi
    have hvaries := hi
    rw [hleft.residuals] at hvaries
    obtain ⟨hmem, hvaries⟩ := List.mem_filter.mp hvaries
    obtain ⟨id, hid⟩ := of_decide_eq_true hvaries
    have hid' : id ∈ left.1.blocks := hleft.mem_blocks.mpr ⟨h.covers i hmem id hid, i, hi, hid⟩
    rw [hblocks] at hid'
    cases hid'

/-- Constant parts of a closed program can be set aside, but for a residual
block without a usable evaluation. -/
theorem succeeds_removeFixed (hg : g.Closed p) :
    Succeeds (g.removeFixed p).run t fun r t' =>
      match r with
      | .ok removal => removal.Of p g
      | .error e => ∃ n i, g.residuals[n]? = some i ∧ (∀ id, ¬ p.ReadsFree i id) ∧
          p.FailsAt i t' ∧ e = .fixedCostFailed n := by
  unfold removeFixed
  rw [succeeds_run_mk, succeeds_bind]
  refine (succeeds_dropFixed g none p).mono ?_
  rintro ⟨(f | e) | total, left, o⟩ t' h
  · exact absurd (hg.balanced h.2.1.choose_spec) h.2.2
  · rcases h.2 with ⟨i, hi, hread⟩ | ⟨n, i, hi, hfree, hfail, rfl⟩
    · exact absurd (hg.readable i hi) hread
    · refine succeeds_pure.mpr ⟨n, i, hi, fun id hid => ?_, hfail, by rw [Nat.zero_add]⟩
      simpa using ((freeBlocksOf_eq_ok hfree).2 id).mpr hid
  · exact succeeds_pure.mpr (h.1.removal h.2)

/-! ## Arranging -/

/-- No member fails the test exactly if all members pass it. -/
theorem firstMember?_eq_none_iff {test : BlockId → Bool} {o : EliminationOrder} :
    firstMember? test o = none ↔ ∀ id ∈ o.toList, test id = true := by
  simp only [firstMember?, List.findSome?_eq_none_iff, Option.map_eq_none_iff,
    List.find?_eq_none, Bool.not_eq_true', Bool.not_eq_false]
  constructor
  · intro h id hid
    obtain ⟨group, ms, hms, hid⟩ := EliminationOrder.mem_toList.mp hid
    exact h (group, ms) hms id hid
  · intro h g hg id hid
    exact h id (EliminationOrder.mem_toList.mpr ⟨g.1, g.2, hg, hid⟩)

/-- Putting blocks in order stops before anything is changed, or the order
lists the blocks of the program. -/
theorem reorderBlocks_cases {o : EliminationOrder} (ho : o.WellFormed) (g : Program) :
    (∃ e, g.reorderBlocks o = (.error e, g)) ∨
      (o.toList.Perm g.blocks ∧ g.reorderBlocks o = (.ok (), { g with blocks := o.toList })) := by
  unfold reorderBlocks
  split
  · exact .inl ⟨_, rfl⟩
  · rename_i hsize
    split
    · exact .inl ⟨_, rfl⟩
    · rename_i hmembers
      refine .inr ⟨?_, rfl⟩
      -- as many blocks as places, and every block has a place
      have hsub : o.toList ⊆ g.blocks := fun id hid => by
        simpa using firstMember?_eq_none_iff.mp hmembers id hid
      refine (List.Nodup.subperm ho.nodup_toList hsub).perm_of_length_le ?_
      rw [ho.length_toList]
      omega

/-- An order that fits lists the blocks of the program. -/
theorem applyOrder_eq_ok {o : EliminationOrder} (ho : o.WellFormed)
    (h : g.applyOrder o = .ok g') :
    g'.residuals = g.residuals ∧ g'.blocks = o.toList ∧ o.toList.Perm g.blocks := by
  unfold applyOrder at h
  rcases reorderBlocks_cases ho g with ⟨e, he⟩ | ⟨hperm, hok⟩
  · rw [he] at h
    cases h
  · rw [hok] at h
    cases h
    exact ⟨rfl, rfl, hperm⟩

theorem wellFormed_schurOrder {o : EliminationOrder} (h : g.schurOrder p = .ok o) :
    o.WellFormed := by
  obtain ⟨graph, -, rfl⟩ := except_map_eq_ok.mp h
  exact (EliminationOrder.reachable_ofList _).wellFormed

end Program

/-- What reducing keeps of a program. -/
structure ReducedProgram.Of (r : ReducedProgram α) (p q : Problem α σ) (removal : Removal α) :
    Prop where
  content : p.SameContent q
  fixedCost : r.fixedCost = removal.fixedCost
  residuals : r.program.residuals.Perm removal.program.residuals
  blocks : r.program.blocks.Perm removal.program.blocks
  nodup : r.program.blocks.Nodup

namespace ReducedProgram

variable {p q : Problem α σ} {g : Program} {r : ReducedProgram α} {removal : Removal α}
  {o : EliminationOrder} {kind : LinearSolverKind} {preconditioner : PreconditionerKind}
  {firstGroup : Option Nat} {t : Tally σ}

theorem outcome_bind_eq_ok {ε β γ : Type} {x : Outcome ε β} {f : β → Outcome ε γ} {c : γ}
    (h : x >>= f = .ok c) : ∃ b, x = .ok b ∧ f b = .ok c := except_bind_eq_ok.mp h

theorem ofExcept_eq_ok {ε β : Type} {x : Except ε β} {b : β}
    (h : Outcome.ofExcept x = .ok b) : x = .ok b := by
  cases x with
  | error e => cases h
  | ok b' =>
      cases h
      rfl

theorem wellFormed_chooseOrder {g : Program} (ho : o.WellFormed) {order : EliminationOrder}
    (h : chooseOrder p g kind o = .ok order) : order.WellFormed := by
  unfold chooseOrder at h
  split at h
  · exact Program.wellFormed_schurOrder h
  · cases h
    exact ho

theorem chooseRows_eq_ok {g g' : Program} (h : chooseRows p g kind o = .ok g') :
    g'.blocks = g.blocks ∧ g'.residuals.Perm g.residuals := by
  unfold chooseRows at h
  split at h
  · obtain ⟨⟨sizes, g''⟩, hrows, rfl⟩ := except_map_eq_ok.mp h
    obtain ⟨hblocks, hperm, -⟩ := Program.orderResiduals_spec hrows
    exact ⟨hblocks, hperm⟩
  · cases h
    exact ⟨rfl, .refl _⟩

theorem arrange_eq_ok (ho : o.WellFormed)
    (h : arrange p removal kind preconditioner firstGroup o = .ok r) :
    r.fixedCost = removal.fixedCost ∧ r.program.residuals.Perm removal.program.residuals ∧
      r.program.blocks.Perm removal.program.blocks ∧ r.program.blocks.Nodup := by
  unfold arrange at h
  obtain ⟨order, horder, h⟩ := outcome_bind_eq_ok h
  obtain ⟨arranged, harranged, h⟩ := outcome_bind_eq_ok h
  obtain ⟨program, hprogram, h⟩ := outcome_bind_eq_ok h
  cases h
  have hwf := wellFormed_chooseOrder ho (ofExcept_eq_ok horder)
  obtain ⟨hres, hblocks, hperm⟩ := Program.applyOrder_eq_ok hwf (ofExcept_eq_ok harranged)
  obtain ⟨hblocks', hperm'⟩ := chooseRows_eq_ok hprogram
  rw [hres] at hperm'
  rw [hblocks] at hblocks'
  refine ⟨rfl, hperm', ?_, ?_⟩
  · rw [hblocks']
    exact hperm
  · rw [hblocks']
    exact hwf.nodup_toList

theorem returns_liftOutcome {β : Type} {x : Outcome ModelError β}
    {Q : Except ModelError β → Tally σ → Prop} (hok : ∀ b, x = .ok b → Q (.ok b) t)
    (herror : ∀ e, x = .error (.error e) → Q (.error e) t) :
    Returns (liftOutcome (σ := σ) x).run t Q := by
  unfold liftOutcome
  split
  · exact returns_run_pure.mpr (hok _ rfl)
  · exact returns_run_throw.mpr (herror _ rfl)
  · exact returns_run_lift.mpr returns_throw

theorem returns_ofProgram (ho : o.WellFormed) :
    Returns (ofProgram p g o kind preconditioner).run t fun res _ => ∀ r, res = .ok r →
      ∃ removal : Removal α, removal.Of p g ∧ r.fixedCost = removal.fixedCost ∧
        r.program.residuals.Perm removal.program.residuals ∧
        r.program.blocks.Perm removal.program.blocks ∧ r.program.blocks.Nodup := by
  unfold ofProgram
  rw [returns_run_bind]
  refine Program.returns_removeFixed.mono ?_
  rintro (e | removal) t' h
  · exact nofun
  · have hremoval := h removal rfl
    dsimp only
    split
    · rename_i hempty
      rw [List.isEmpty_iff] at hempty
      rw [returns_run_pure]
      rintro r hr
      cases hr
      refine ⟨removal, hremoval, rfl, .refl _, .refl _, ?_⟩
      rw [hempty]
      exact .nil
    · refine returns_liftOutcome (fun reduced hreduced r hr => ?_) fun e _ => nofun
      cases hr
      exact ⟨removal, hremoval, arrange_eq_ok (ho.removeAll _) hreduced⟩

/-- Reducing a program keeps its blocks, but for those set aside, and writes
nothing but places into the problem. -/
theorem returns_create (ho : o.WellFormed) :
    Returns (create p g o kind preconditioner) t fun res _ => p.SameContent res.2 ∧
      ∀ r, res.1 = .ok r → ∃ removal : Removal α, removal.Of p g ∧ r.Of p res.2 removal := by
  rw [create, returns_bind]
  refine (returns_ofProgram ho).mono ?_
  rintro (e | reduced) t' h
  · exact returns_pure.mpr ⟨.refl p, nofun⟩
  · refine returns_pure.mpr ⟨Program.sameContent_setOffsets, fun r hr => ?_⟩
    obtain ⟨-, -, rfl⟩ := except_map_eq_ok.mp hr
    obtain ⟨removal, hremoval, hcost, hresiduals, hblocks, hnodup⟩ := h _ rfl
    exact ⟨removal, hremoval, Program.sameContent_setOffsets, hcost, hresiduals, hblocks, hnodup⟩

end ReducedProgram

end LeastSquares
