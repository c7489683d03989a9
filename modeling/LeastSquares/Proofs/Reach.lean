import LeastSquares.Proofs.Manifold
import LeastSquares.Proofs.Minimizer
import LeastSquares.Proofs.Restriction

/-!
# States that steps lead to

A minimizer moves the state in three ways: by a step for all blocks, by the
values that a run for a single block has found, and by going back to the best
state it has seen. In each of them a block moves by steps of its own manifold,
from the values that it had before. So whatever a run reports or recommends,
every block got there from its initial values by steps on its manifold.

## Main definitions

* `FreeBlock.Reaches`, `Evaluator.Reaches` — steps lead from the values of a
  block, and of all blocks, to others.

## Main results

* `CoordinateDescent.returns_sweep_reaches` — a sweep.
* `TrustRegion.Visits.reaches`, `LineSearch.Visits.reaches`,
  `Minimizer.Visits.reaches` — the states of a run.
-/

namespace LeastSquares

variable {α σ : Type} [Scalar α]

/-- If the block has a manifold, steps on it lead from some values to
others. -/
def FreeBlock.Reaches (b : FreeBlock α) (v w : Vec α) : Prop :=
  ∀ m, b.manifold = some m → m.Reaches v w

namespace Evaluator

variable {e : Evaluator α σ} {b : FreeBlock α} {k : Nat} {x y z v v' delta : Vec α}

/-- Steps lead from the values of every block in one state to those in
another. -/
structure Reaches (e : Evaluator α σ) (x y : Vec α) : Prop where
  size : y.size = x.size
  blocks : ∀ b ∈ e.blocks, b.Reaches (b.valuesIn x) (b.valuesIn y)

theorem Reaches.refl (e : Evaluator α σ) (x : Vec α) : e.Reaches x x :=
  ⟨rfl, fun _ _ _ _ => .refl⟩

theorem Reaches.trans (h : e.Reaches x y) (h' : e.Reaches y z) : e.Reaches x z :=
  ⟨h'.size.trans h.size, fun b hb m hm => (h.blocks b hb m hm).trans (h'.blocks b hb m hm)⟩

/-- A step for all blocks. -/
theorem WellFormed.reaches_plus (he : e.WellFormed) (hplaced : e.Placed)
    (h : e.plus x delta = .ok y) : e.Reaches x y := by
  obtain ⟨hsize, hblocks⟩ := he.plus_spec hplaced h
  refine ⟨hsize, fun b hb m hm => ?_⟩
  obtain ⟨hambient, htangent⟩ := he.manifold b hb m hm
  have hplus := hblocks b hb
  simp only [FreeBlock.plus, hm] at hplus
  exact .single ⟨_, (Vec.size_slice _ _ _).trans hambient.symm,
    (Vec.size_slice _ _ _).trans htangent.symm, hplus⟩

/-- Other values for one block. -/
theorem Reaches.splice (h : e.Reaches x y) (hplaced : e.Placed) (hx : x.size = e.numParameters)
    (hb : e.blocks[k]? = some b) (hv : v.size = b.size) (hreaches : b.Reaches (b.valuesIn x) v) :
    e.Reaches x (y.splice b.stateOffset v) := by
  refine ⟨(Vec.size_splice _ _ _).trans h.size, fun c hc m hm => ?_⟩
  obtain ⟨l, hl⟩ := List.mem_iff_getElem?.mp hc
  by_cases hkl : k = l
  · subst hkl
    rw [hb] at hl
    cases hl
    rw [hplaced.valuesIn_splice hb (h.size.trans hx) hv]
    exact hreaches m hm
  · rw [hplaced.valuesIn_splice_of_ne hb hl hkl hv]
    exact h.blocks c hc m hm

/-- Steps while only one block moves are steps of this block. -/
theorem Reaches.of_restrictTo (h : (e.restrictTo k x).Reaches v v')
    (hb : e.blocks[k]? = some b) (hv : v.size = b.size) : b.Reaches v v' := by
  intro m hm
  have hblock := h.blocks { b with stateOffset := 0, deltaOffset := 0 }
    (by rw [blocks_restrictTo hb]; exact List.mem_singleton_self _) m hm
  have hwhole : ∀ {u : Vec α}, u.size = b.size → u.slice 0 b.size = u := by
    intro u hu
    rw [← hu, Vec.slice_zero]
  simpa only [FreeBlock.valuesIn, hwhole hv, hwhole (h.size.trans hv)] using hblock

end Evaluator

/-! ## Trust region runs -/

namespace TrustRegion

variable {m : TrustRegion α σ} {s s' : State α} {x : Vec α} {w w' : World α σ} {trial : Trial α}

/-- Inner iterations lead to states that steps lead to. -/
def InnerReaches (m : TrustRegion α σ) : Prop :=
  ∀ sweep, m.inner = some sweep → ∀ x w, x.size = m.evaluator.numParameters →
    Returns (sweep x) w fun r _ => m.evaluator.Reaches x r.2

theorem Offered.reaches (h : m.Offered s trial) (he : m.evaluator.WellFormed)
    (hplaced : m.evaluator.Placed) (hinner : m.InnerReaches)
    (hs : s.x.size = m.evaluator.numParameters) : m.evaluator.Reaches s.x trial.x := by
  have hproposed : ∀ {trial}, m.Proposed s trial → m.evaluator.Reaches s.x trial.x := by
    rintro trial ⟨-, -, delta, hplus⟩
    exact he.reaches_plus hplaced hplus
  cases h with
  | proposed h => exact hproposed h
  | improved h _ _ _ inner swept =>
      have hfirst := hproposed h
      exact hfirst.trans (hinner _ inner _ _ (hfirst.size.trans hs) _ _ swept)

theorem Turn.reaches (h : m.Turn s (.next s')) (he : m.evaluator.WellFormed)
    (hplaced : m.evaluator.Placed) (hinner : m.InnerReaches)
    (hs : s.x.size = m.evaluator.numParameters) : m.evaluator.Reaches s.x s'.x := by
  cases h with
  | keep standing =>
      have hx : s'.x = s.x := congrArg Standing.x standing
      exact hx ▸ .refl m.evaluator s.x
  | @accept _ trial _ _ offered _ _ _ standing =>
      have hx : s'.x = trial.x := congrArg Standing.x standing
      exact hx ▸ offered.reaches he hplaced hinner hs

/-- The state that a run recommends. -/
theorem Ran.reaches {result : MinimizerSummary α} {trace : Trace α}
    (h : m.Ran x result trace)
    (htrace : ∀ entry ∈ trace, m.evaluator.Reaches x entry.2) :
    m.evaluator.Reaches x result.best := by
  rw [h.best]
  exact Trace.best_of_forall (P := fun y _ => m.evaluator.Reaches x y) _ htrace
    (.refl m.evaluator x)

variable [ScalarText α] {strategy : Strategy α} {counts : EvaluationCounts}
  {states : List (State α)} {result : MinimizerSummary α}

/-- All states of a run. -/
theorem Visits.reaches (h : m.Visits strategy counts x w states result w')
    (he : m.evaluator.WellFormed) (hplaced : m.evaluator.Placed) (hexplores : m.InnerExplores)
    (hinner : m.InnerReaches) : ∀ s ∈ states, m.evaluator.Reaches x s.x := by
  cases h with
  | none _ => exact fun _ hs => absurd hs List.not_mem_nil
  | @some linear _ _ _ _ _ _ found passes _ =>
      have hx : x.size = m.evaluator.numParameters :=
        ((returns_linearize _ _ found).found linear rfl).size
      refine passes.invariant (I := fun s => m.evaluator.Reaches x s.x) (fun s w hs => ?_)
        (fun s w hs => ?_) (.refl m.evaluator x)
      · refine returns_report.mono fun r w' hr => ?_
        have hsame : r.2.x = s.x := hr.1.shown.x
        exact hsame ▸ hs
      · refine (returns_step hexplores).mono ?_
        rintro r w' ⟨-, hturn⟩ s' rfl
        exact hs.trans (hturn.reaches he hplaced hinner (hs.size.trans hx))

end TrustRegion

/-! ## Sweeps -/

namespace CoordinateDescent

variable {e : Evaluator α σ} {x : Vec α} {k : Nat}

/-- What a sweep may put in the place of a block. -/
def Allows (e : Evaluator α σ) (x : Vec α) (k : Nat) (v : Vec α) : Prop :=
  ∃ b, e.blocks[k]? = some b ∧ v.size = b.size ∧ b.Reaches (b.valuesIn x) v

theorem reaches_apply (hplaced : e.Placed) (hx : x.size = e.numParameters)
    {moves : List (Nat × Option (Vec α))}
    (hmoves : ∀ move ∈ moves, ∀ v, move.2 = some v → Allows e x move.1 v) {r : Nat × Vec α}
    (hr : e.Reaches x r.2) : e.Reaches x (apply e r moves).2 := by
  induction moves generalizing r with
  | nil => exact hr
  | cons move moves ih =>
      have hrest := fun m hm => hmoves m (List.mem_cons_of_mem move hm)
      obtain ⟨n, y⟩ := r
      obtain ⟨k, _ | v⟩ := move
      · exact ih hrest hr
      · obtain ⟨b, hb, hv, hreaches⟩ := hmoves (k, some v) (by simp) v rfl
        rw [apply, hb]
        exact ih hrest (hr.splice hplaced hx hb hv hreaches)

variable [ScalarText α] {w : World α σ}

/-- The values that a block is given are such that its own steps lead to
them. -/
theorem Optimizes.allows {v : Vec α} (h : Optimizes e x k v) (he : e.WellFormed) :
    Allows e x k v := by
  obtain @⟨b, states, summary, w, w', hb, hvisits, hwrites, -⟩ := h
  have hinner : (blockRun e x k).InnerReaches := by
    intro sweep hsweep
    cases hsweep
  have hstates := hvisits.reaches (he.restrictTo hb) (Evaluator.Placed.restrictTo hb)
    innerExplores_blockRun hinner
  have hreaches : (e.restrictTo k x).Reaches (b.valuesIn x) summary.best :=
    ((hvisits.minimized innerExplores_blockRun).2 hwrites).reaches
      (List.forall_mem_map.mpr hstates)
  have hvalues : (b.valuesIn x).size = b.size := Vec.size_slice _ _ _
  exact ⟨b, hb, hreaches.size.trans hvalues, hreaches.of_restrictTo hb hvalues⟩

theorem returns_sweepGroups_reaches (he : e.WellFormed) (hplaced : e.Placed)
    {groups : List (List Nat)} {before : Nat × Vec α} (hx : before.2.size = e.numParameters) :
    Returns (sweepGroups e groups before) w fun after _ => e.Reaches before.2 after.2 := by
  induction groups generalizing before w with
  | nil => exact returns_pure.mpr (.refl e _)
  | cons group groups ih =>
      obtain ⟨n, x⟩ := before
      rw [sweepGroups, returns_bind]
      refine (Returns.mapM (I := fun _ => True)
        (P := fun k r => ∀ v, r = some v → Allows e x k v)
        (fun k _ w1 _ => returns_solveBlock.mono fun _ _ h =>
          ⟨fun v hv => (h.2 v hv).allows he, trivial⟩) trivial).mono ?_
      rintro better w1 ⟨hbetter, -⟩
      have hgroup : e.Reaches x (apply e (n, x) (group.zip better)).2 :=
        reaches_apply hplaced hx (fun move hmove => List.forall₂_zip hbetter hmove) (.refl e x)
      exact (ih (hgroup.size.trans hx)).mono fun after _ hafter => hgroup.trans hafter

/-- A sweep. -/
theorem returns_sweep_reaches (he : e.WellFormed) (hplaced : e.Placed)
    (hx : x.size = e.numParameters) (c : CoordinateDescent) :
    Returns (c.sweep e x) w fun r _ => e.Reaches x r.2 :=
  returns_sweepGroups_reaches he hplaced hx

theorem innerReaches (he : e.WellFormed) (hplaced : e.Placed) (o : MinimizerOptions α)
    (inner : Option CoordinateDescent) (callbacks : Pipeline α σ) :
    TrustRegion.InnerReaches ⟨o, e, inner.map fun c => c.sweep e, callbacks⟩ := by
  intro sweep hsweep x w hx
  obtain ⟨c, -, rfl⟩ := Option.map_eq_some_iff.mp hsweep
  exact returns_sweep_reaches he hplaced hx c

end CoordinateDescent

/-! ## Line search runs -/

namespace LineSearch

variable {m : LineSearch α σ} {s s' : State α} {x : Vec α} {w w' : World α σ}

theorem Moves.reaches (h : m.Moves s s') (he : m.evaluator.WellFormed)
    (hplaced : m.evaluator.Placed) : m.evaluator.Reaches s.x s'.x := by
  obtain ⟨_, _, _, _, -, -, -, hplus⟩ := h.ends
  exact he.reaches_plus hplaced hplus

/-- The state that a run recommends. -/
theorem Ran.reaches {result : MinimizerSummary α} {trace : Trace α}
    (h : m.Ran x result trace)
    (htrace : ∀ entry ∈ trace, m.evaluator.Reaches x entry.2) :
    m.evaluator.Reaches x result.best := by
  obtain ⟨record, hlast⟩ := h.best
  exact htrace _ (List.mem_of_getLast? hlast)

variable [ScalarText α] {counts : EvaluationCounts} {states : List (State α)}
  {result : MinimizerSummary α}

/-- All states of a run. -/
theorem Visits.reaches (h : m.Visits counts x w states result w')
    (he : m.evaluator.WellFormed) (hplaced : m.evaluator.Placed) :
    ∀ s ∈ states, m.evaluator.Reaches x s.x := by
  cases h with
  | none _ => exact fun _ hs => absurd hs List.not_mem_nil
  | some found passes _ =>
      refine passes.invariant (I := fun s => m.evaluator.Reaches x s.x) (fun s w hs => ?_)
        (fun s w hs => ?_) (.refl m.evaluator x)
      · refine returns_report.mono fun r w' hr => ?_
        have hsame : r.2.x = s.x := hr.1.shown.x
        exact hsame ▸ hs
      · refine returns_step.mono ?_
        rintro r w' ⟨-, hturn⟩ s' rfl
        exact hs.trans (Moves.reaches hturn he hplaced)

end LineSearch

/-! ## Either minimizer -/

/-- All states that a run reports. -/
theorem Minimizer.Visits.reaches [ScalarText α] {m : Minimizer α σ} {callbacks : Pipeline α σ}
    {x : Vec α} {w w' : World α σ} {trace : Trace α} {result : MinimizerSummary α}
    (h : m.Visits callbacks x w trace result w') (he : m.evaluator.WellFormed)
    (hplaced : m.evaluator.Placed) : ∀ entry ∈ trace, m.evaluator.Reaches x entry.2 := by
  cases h with
  | @trustRegion o e inner _ _ _ _ h =>
      exact List.forall_mem_map.mpr (h.reaches he hplaced
        (CoordinateDescent.innerExplores o e inner callbacks)
        (CoordinateDescent.innerReaches he hplaced o inner callbacks))
  | lineSearch h => exact List.forall_mem_map.mpr (h.reaches he hplaced)

end LeastSquares
