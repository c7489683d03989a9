import LeastSquares.Proofs.Descent
import LeastSquares.Proofs.Objective
import LeastSquares.Proofs.Restriction
import LeastSquares.Proofs.StepAcceptance

/-!
# Descent block by block

Inner iterations optimize each block of a group with all other blocks held at
one and the same state, and put the better values together afterwards. What
one block gains is a matter of the terms that read it. If no term reads two
blocks of the group, the values of one block make no difference to the terms
of another, so that each block gains after the others what it gained alone,
and the costs add up.

A single block is optimized by a run of a trust region minimizer without
lagging reference. If such a run accepts a step, it ends below the cost where
it started.

## Main definitions

* `Evaluator.Improves` — values of one block that lower the cost.
* `Evaluator.Lowers` — what sweeps do to a state.

## Main results

* `TrustRegion.Visits.exists_lower` — a run with accepted steps.
* `Evaluator.Improves.after` — gains of blocks that are apart.
* `CoordinateDescent.returns_sweep_lowers` — a sweep.
-/

namespace LeastSquares

/-! ## Terms that read a block -/

namespace Evaluator

section Terms

variable {α σ : Type} [Scalar α] {e : Evaluator α σ} {b : FreeBlock α} {k l : Nat}
  {x y v : Vec α} {t : ResidualTerm α σ} {u : σ}

/-- The terms that read a block. -/
def reading (e : Evaluator α σ) (k : Nat) : List (ResidualTerm α σ) :=
  e.terms.filter fun t => t.columns.contains k

/-- The cost of some terms at a state. -/
def costOver? (e : Evaluator α σ) (u : σ) (x : Vec α) (terms : List (ResidualTerm α σ)) :
    Option α := addCosts 0 (terms.map (e.termCost? u x))

theorem mem_reading : t ∈ e.reading k ↔ t ∈ e.terms ∧ k ∈ t.columns := by
  rw [reading, List.mem_filter, List.contains_iff_mem]

/-- The cost of a term depends on the blocks that it reads. -/
theorem termCost?_congr (h : ∀ l ∈ t.columns, ∀ c, e.blocks[l]? = some c →
    c.valuesIn y = c.valuesIn x) : e.termCost? u y t = e.termCost? u x t := by
  rw [termCost?, termCost?, pointOf_congr h]

theorem costOver?_congr {terms : List (ResidualTerm α σ)}
    (h : ∀ t ∈ terms, e.termCost? u y t = e.termCost? u x t) :
    e.costOver? u y terms = e.costOver? u x terms := by
  rw [costOver?, costOver?, List.map_congr_left h]

end Terms

/-! ## Costs -/

variable {σ : Type} {e : Evaluator ℝ σ} {b : FreeBlock ℝ} {k l : Nat} {x v w : Vec ℝ} {u : σ}

/-- The cost while only one block moves is that of the terms that read it. -/
theorem cost?_restrictTo (he : e.Placed) (hb : e.blocks[k]? = some b)
    (hx : x.size = e.numParameters) (hv : v.size = b.size) :
    (e.restrictTo k x).cost? u v = e.costOver? u (x.splice b.stateOffset v) (e.reading k) := by
  have hterms : (e.restrictTo k x).terms = (e.reading k).map fun t =>
      { t with sources := t.sources.map (e.restrictSource k x) } := rfl
  rw [cost?, if_pos (hv.trans (numParameters_restrictTo hb).symm), real_filter_isFinite, costOver?,
    hterms, List.map_map]
  refine congrArg _ (List.map_congr_left fun t _ => ?_)
  rw [Function.comp_apply, termCost?, termCost?, pointOf_restrictTo he hb hx hv]

/-- The cost is that of the terms that read a block, and that of the others. -/
theorem cost?_eq_split (hx : x.size = e.numParameters) (k : Nat) : e.cost? u x =
    (e.costOver? u x (e.reading k)).bind fun c =>
      (e.costOver? u x (e.terms.filter fun t => !t.columns.contains k)).map fun c' => c + c' := by
  have hperm := (List.filter_append_perm (fun t => t.columns.contains k) e.terms).map
    (e.termCost? u x)
  rw [cost?, if_pos hx, real_filter_isFinite, ← addCosts_perm hperm, List.map_append,
    addCosts_append]
  refine Option.bind_congr fun c _ => ?_
  rw [addCosts_eq_map, costOver?, real_zero]

/-- Values of a block that lower the cost of the terms that read it. -/
structure Improves (e : Evaluator ℝ σ) (u : σ) (x : Vec ℝ) (k : Nat) (b : FreeBlock ℝ)
    (v : Vec ℝ) : Prop where
  block : e.blocks[k]? = some b
  size : v.size = b.size
  lower : ∃ c c', e.costOver? u x (e.reading k) = some c ∧
    e.costOver? u (x.splice b.stateOffset v) (e.reading k) = some c' ∧ c' < c

/-- Better values of a block lower the whole cost. -/
theorem Improves.cost (h : e.Improves u x k b v) (he : e.Placed) (hx : x.size = e.numParameters)
    {c : ℝ} (hc : e.cost? u x = some c) :
    ∃ c', e.cost? u (x.splice b.stateOffset v) = some c' ∧ c' < c := by
  obtain ⟨before, after, hbefore, hafter, hless⟩ := h.lower
  have hothers : e.costOver? u (x.splice b.stateOffset v)
      (e.terms.filter fun t => !t.columns.contains k) =
        e.costOver? u x (e.terms.filter fun t => !t.columns.contains k) := by
    refine costOver?_congr fun t ht => termCost?_congr fun l hl c hc => ?_
    refine he.valuesIn_splice_of_ne h.block hc ?_ h.size
    rintro rfl
    simp [hl] at ht
  rw [cost?_eq_split hx k, hbefore, Option.bind_some, Option.map_eq_some_iff] at hc
  obtain ⟨others, hrest, rfl⟩ := hc
  refine ⟨after + others, ?_, by linarith⟩
  rw [cost?_eq_split ((Vec.size_splice _ _ _).trans hx) k, hafter, hothers, hrest]
  rfl

/-- Values that improve a block still do so once a block apart from it was
moved. -/
theorem Improves.after (h : e.Improves u x k b v) (he : e.Placed) (hx : x.size = e.numParameters)
    (happart : e.Apart l k) {d : FreeBlock ℝ} (hd : e.blocks[l]? = some d)
    (hw : w.size = d.size) : e.Improves u (x.splice d.stateOffset w) k b v := by
  have hne : ∀ t ∈ e.reading k, ∀ m ∈ t.columns, l ≠ m := by
    rintro t ht _ hm rfl
    exact happart t (mem_reading.mp ht).1 ⟨hm, (mem_reading.mp ht).2⟩
  obtain ⟨before, after, hbefore, hafter, hless⟩ := h.lower
  refine ⟨h.block, h.size, before, after, ?_, ?_, hless⟩
  · rw [← hbefore]
    refine costOver?_congr fun t ht => termCost?_congr fun m hm c hc => ?_
    exact he.valuesIn_splice_of_ne hd hc (hne t ht m hm) hw
  · rw [← hafter]
    refine costOver?_congr fun t ht => termCost?_congr fun m hm c hc => ?_
    by_cases hmk : k = m
    · subst hmk
      rw [h.block] at hc
      cases hc
      rw [he.valuesIn_splice h.block ((Vec.size_splice _ _ _).trans hx) h.size,
        he.valuesIn_splice h.block hx h.size]
    · rw [he.valuesIn_splice_of_ne h.block hc hmk h.size,
        he.valuesIn_splice_of_ne h.block hc hmk h.size,
        he.valuesIn_splice_of_ne hd hc (hne t ht m hm) hw]

/-! ## States -/

/-- What a visit to some blocks does to a state and to the number of blocks
that were moved. -/
structure Lowers (e : Evaluator ℝ σ) (u : σ) (columns : List Nat) (before after : Nat × Vec ℝ) :
    Prop where
  size : after.2.size = before.2.size
  count : before.1 ≤ after.1
  cost : ∀ c, e.cost? u before.2 = some c → ∃ c', e.cost? u after.2 = some c' ∧ c' ≤ c ∧
    (before.1 < after.1 → c' < c)
  outside : ∀ i, (∀ k ∈ columns, ∀ b, e.blocks[k]? = some b →
    ¬ (b.stateOffset ≤ i ∧ i < b.stateOffset + b.size)) → after.2.get i = before.2.get i

theorem Lowers.refl (e : Evaluator ℝ σ) (u : σ) (columns : List Nat) (r : Nat × Vec ℝ) :
    e.Lowers u columns r r :=
  ⟨rfl, le_refl _, fun c hc => ⟨c, hc, le_refl c, fun h => absurd h (lt_irrefl _)⟩,
    fun _ _ => rfl⟩

theorem Lowers.trans {columns columns' : List Nat} {r r' r'' : Nat × Vec ℝ}
    (h : e.Lowers u columns r r') (h' : e.Lowers u columns' r' r'') :
    e.Lowers u (columns ++ columns') r r'' := by
  refine ⟨h'.size.trans h.size, h.count.trans h'.count, fun c hc => ?_, fun i hi => ?_⟩
  · obtain ⟨c', hc', hle, hlt⟩ := h.cost c hc
    obtain ⟨c'', hc'', hle', hlt'⟩ := h'.cost c' hc'
    refine ⟨c'', hc'', hle'.trans hle, fun hcount => ?_⟩
    by_cases hfirst : r.1 < r'.1
    · exact hle'.trans_lt (hlt hfirst)
    · exact (hlt' (by omega)).trans_le hle
  · rw [h'.outside i fun k hk => hi k (List.mem_append_right _ hk),
      h.outside i fun k hk => hi k (List.mem_append_left _ hk)]

/-- Moving one block to better values. -/
theorem Improves.lowers (h : e.Improves u x k b v) (he : e.Placed)
    (hx : x.size = e.numParameters) (n : Nat) :
    e.Lowers u [k] (n, x) (n + 1, x.splice b.stateOffset v) := by
  refine ⟨Vec.size_splice _ _ _, Nat.le_succ n, fun c hc => ?_, fun i hi => ?_⟩
  · obtain ⟨c', hc', hlt⟩ := h.cost he hx hc
    exact ⟨c', hc', hlt.le, fun _ => hlt⟩
  · refine Vec.get_splice_of_outside ?_
    rw [h.size]
    exact hi k (by simp) b h.block

end Evaluator

/-! ## A run for one block -/

/-- In a chain every member but the first one follows another. -/
theorem exists_of_isChain_cons {β : Type} {R : β → β → Prop} {a b : β} {l : List β}
    (h : (a :: l).IsChain R) (hb : b ∈ l) : ∃ a' ∈ a :: l, R a' b := by
  induction l generalizing a with
  | nil => cases hb
  | cons c l ih =>
      obtain ⟨hac, hchain⟩ := List.isChain_cons_cons.mp h
      rcases List.mem_cons.mp hb with rfl | hb
      · exact ⟨a, by simp, hac⟩
      · obtain ⟨a', ha', hR⟩ := ih hchain hb
        exact ⟨a', List.mem_cons_of_mem a ha', hR⟩

namespace TrustRegion

variable {σ : Type} [ScalarText ℝ] {m : TrustRegion ℝ σ} {strategy : Strategy ℝ} {x : Vec ℝ}
  {w w' : World ℝ σ} {states : List (State ℝ)} {summary : MinimizerSummary ℝ}

/-- A run that has counted a successful step has reported a state after the
first one whose step was accepted. -/
theorem Visits.exists_successful (h : m.Visits strategy {} x w states summary w')
    (hinner : m.InnerExplores) (hsteps : 0 < summary.history.successfulSteps) :
    ∃ first rest s, states = first :: rest ∧ s ∈ rest ∧ s.record.successful = true := by
  have hrecords := h.records_eq hinner
  cases h with
  | none missed => exact absurd hsteps (Nat.lt_irrefl 0)
  | @some linear counts' _ reason last _ _ found passes length =>
      have hcounted : counts'.jacobian = 1 := (returns_linearize _ _ found).counted
      have hlinked := linked_initial found strategy (w.clock w.ticks)
      have htold := (regular_loop hinner).told (x, linear.cost) passes hlinked nofun
      have haccurate : last.history.Accurate :=
        htold.accurate (History.due_first rfl rfl hcounted)
      change 0 < last.history.successfulSteps at hsteps
      rw [haccurate.successful, List.countP_pos_iff] at hsteps
      obtain ⟨r, hr, hsuccessful⟩ := hsteps
      simp only [Bool.and_eq_true, decide_eq_true_eq] at hsuccessful
      obtain ⟨first, rest, d, w1, rfl, shown⟩ := passes.exists_cons
      have hzero : first.record.iteration = 0 := (returns_report _ _ shown).1.shown.iteration
      have hmem : r ∈ (first :: rest).map State.record :=
        hrecords ▸ List.mem_reverse.mpr hr
      obtain ⟨s, hs, rfl⟩ := List.mem_map.mp hmem
      refine ⟨first, rest, s, rfl, ?_, hsuccessful.1⟩
      rcases List.mem_cons.mp hs with rfl | hs
      · exact absurd hsuccessful.2 (by rw [hzero]; exact Nat.lt_irrefl 0)
      · exact hs

/-- A run without lagging reference that accepts a step ends below the cost
where it started. -/
theorem Visits.exists_lower (h : m.Visits strategy {} x w states summary w')
    (hinner : m.InnerExplores) (he : m.evaluator.Pure) (ho : 0 ≤ m.options.minRelativeDecrease)
    (hlimit : m.options.useNonmonotonicSteps = false ∨ m.options.maxNonmonotonicSteps = 0)
    (hback : summary.termination.writesBack = true)
    (hsteps : 0 < summary.history.successfulSteps) :
    m.evaluator.Finds x summary.initialCost ∧
      ∃ c, m.evaluator.Finds summary.best c ∧ c < summary.initialCost := by
  obtain ⟨hminimized, hran⟩ := h.minimized hinner
  have hran := hran hback
  have hrecords := h.records_eq hinner
  obtain ⟨hall, -⟩ := h.descending hinner he ho
  obtain ⟨-, hlower⟩ := h.monotone hinner he ho hlimit
  have hbest := Trace.best_of_forall (x, summary.initialCost) hminimized.found hran.initial
  rw [← hran.best, Trace.foldl_better_eq hran.steady (le_refl _), ← hminimized.records,
    hrecords] at hbest
  refine ⟨hran.initial, _, hbest, ?_⟩
  obtain ⟨first, rest, s, rfl, hs, hsuccessful⟩ := h.exists_successful hinner hsteps
  -- the state before the accepted step is not above the initial cost
  obtain ⟨a, ha, has⟩ := exists_of_isChain_cons hlower hs
  have hle : a.record.cost ≤ summary.initialCost := by
    have hdescending := hall a ha
    rw [hdescending.linked.record, ← hdescending.current]
    linarith [hdescending.ordered.current, hdescending.ordered.candidate, hdescending.bounded]
  have hmem : s.record ∈ (first :: rest).map State.record :=
    List.mem_map_of_mem (List.mem_cons_of_mem first hs)
  calc lowestFrom summary.initialCost ((first :: rest).map State.record)
      ≤ s.record.cost := lowestFrom_le_cost _ hmem
    _ < a.record.cost := has hsuccessful
    _ ≤ summary.initialCost := hle

end TrustRegion

/-! ## Sweeps -/

namespace CoordinateDescent

variable {σ : Type} {e : Evaluator ℝ σ} {x : Vec ℝ} {u : σ}

/-- Better values of blocks that are apart from each other lower the cost
together. -/
theorem lowers_apply (he : e.Placed) (hx : x.size = e.numParameters) (n : Nat)
    {moves : List (Nat × Option (Vec ℝ))} (hpair : moves.Pairwise fun a b => e.Apart a.1 b.1)
    (hbetter : ∀ move ∈ moves, ∀ v, move.2 = some v → ∃ b, e.Improves u x move.1 b v) :
    e.Lowers u (moves.map Prod.fst) (n, x) (apply e (n, x) moves) := by
  induction moves generalizing n x with
  | nil => exact .refl e u [] _
  | cons move moves ih =>
      obtain ⟨happart, hmoves⟩ := List.pairwise_cons.mp hpair
      have hrest : ∀ move ∈ moves, ∀ v, move.2 = some v → ∃ b, e.Improves u x move.1 b v :=
        fun m hm => hbetter m (List.mem_cons_of_mem _ hm)
      obtain ⟨k, _ | v⟩ := move
      · rw [apply]
        exact (Evaluator.Lowers.refl e u [k] _).trans (ih hx n hmoves hrest)
      · obtain ⟨b, himproves⟩ := hbetter (k, some v) (by simp) v rfl
        rw [apply, himproves.block]
        refine (himproves.lowers he hx n).trans
          (ih ((Vec.size_splice _ _ _).trans hx) (n + 1) hmoves fun m hm w hw => ?_)
        obtain ⟨d, hd⟩ := hrest m hm w hw
        exact ⟨d, hd.after he hx (happart m hm) himproves.block himproves.size⟩

variable [ScalarText ℝ] {w : World ℝ σ} {k : Nat}

/-- The values that a block is given lower the cost. -/
theorem Optimizes.improves {v : Vec ℝ} (h : Optimizes e x k v) (he : e.Pure)
    (hplaced : e.Placed) (hx : x.size = e.numParameters) (u : σ) :
    ∃ b, e.Improves u x k b v := by
  obtain @⟨b, states, summary, w, w', hb, hvisits, hwrites, hsteps⟩ := h
  have hpure : (blockRun e x k).evaluator.Pure := he.restrictTo k x
  have hdecrease : (0 : ℝ) ≤ (options : MinimizerOptions ℝ).minRelativeDecrease := by
    show (0 : ℝ) ≤ 1e-3
    norm_num
  obtain ⟨hinitial, c, hbest, hless⟩ :=
    hvisits.exists_lower innerExplores_blockRun hpure hdecrease (.inl rfl) hwrites hsteps
  have hvalues : (b.valuesIn x).size = b.size := Vec.size_slice _ _ _
  have hsize : summary.best.size = b.size :=
    hbest.size.trans (Evaluator.numParameters_restrictTo hb)
  refine ⟨b, hb, hsize, _, c, ?_, ?_, hless⟩
  · have hcost : (e.restrictTo k x).cost? u (b.valuesIn x) = some summary.initialCost :=
      hinitial.cost hpure u
    rw [← hcost, Evaluator.cost?_restrictTo hplaced hb hx hvalues]
    congr 1
    exact (Vec.splice_slice x b.stateOffset b.size).symm
  · have hcost : (e.restrictTo k x).cost? u summary.best = some c := hbest.cost hpure u
    rw [← hcost, Evaluator.cost?_restrictTo hplaced hb hx hsize]

/-- Visits to groups whose blocks are apart lower the cost. -/
theorem returns_sweepGroups_lowers (he : e.Pure) (hplaced : e.Placed) (u : σ)
    {groups : List (List Nat)} (hgroups : ∀ group ∈ groups, group.Pairwise e.Apart)
    {before : Nat × Vec ℝ} (hx : before.2.size = e.numParameters) :
    Returns (sweepGroups e groups before) w fun after _ =>
      e.Lowers u groups.flatten before after := by
  induction groups generalizing before w with
  | nil => exact returns_pure.mpr (.refl e u _ _)
  | cons group groups ih =>
      obtain ⟨n, x⟩ := before
      rw [sweepGroups, returns_bind]
      refine (Returns.mapM (I := fun _ => True)
        (P := fun k r => ∀ v, r = some v → ∃ b, e.Improves u x k b v)
        (fun k _ w1 _ => returns_solveBlock.mono fun _ _ h =>
          ⟨fun v hv => (h.2 v hv).improves he hplaced hx u, trivial⟩) trivial).mono ?_
      rintro better w1 ⟨hbetter, -⟩
      have hfst : (group.zip better).map Prod.fst = group :=
        List.map_fst_zip hbetter.length_eq.le
      have hpair : (group.zip better).Pairwise fun a b => e.Apart a.1 b.1 :=
        List.pairwise_map.mp (hfst.symm ▸ hgroups group (by simp))
      have hlowers := lowers_apply hplaced hx n hpair (u := u) fun move hmove =>
        (List.forall₂_zip hbetter hmove)
      rw [hfst] at hlowers
      refine (ih (fun g hg => hgroups g (List.mem_cons_of_mem group hg))
        (hlowers.size.trans hx)).mono fun after _ hafter => ?_
      exact hlowers.trans hafter

/-- A sweep over groups whose blocks are apart lowers the cost. -/
theorem returns_sweep_lowers {c : CoordinateDescent} (he : e.Pure) (hplaced : e.Placed)
    (hc : c.Independent e) (hx : x.size = e.numParameters) (u : σ) :
    Returns (c.sweep e x) w fun after _ => e.Lowers u c.groups.flatten (0, x) after :=
  returns_sweepGroups_lowers he hplaced u hc hx

end CoordinateDescent

end LeastSquares
