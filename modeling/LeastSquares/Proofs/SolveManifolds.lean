import LeastSquares.Proofs.Reach
import LeastSquares.Proofs.SolveFrame

/-!
# What a solve keeps of manifolds

A solve moves a block by steps on its manifold and in no other way. So at
every report, and when the solve is over, a block is where such steps lead
from where it was: the coordinates that a subset manifold holds constant are
exactly what they were, and a quaternion has the length that it had.

## Main definitions

* `ParameterBlock.Steps`, `Problem.Steps` — steps lead from one block to
  another, and from the blocks of one problem to those of another.
* `SolveKeeps` — a relation between blocks at every report of a solve and after
  it.

## Main results

* `Course.Of.steps_final`, `Course.Of.steps_reported` — a course of a solve.
* `solveKeeps_steps` — a solve.
* `solve_manifolds` — constant coordinates and quaternions.
-/

namespace LeastSquares

variable {α σ : Type} [Scalar α]

/-! ## Problems -/

/-- The second block is the first one after steps on its manifold, if it has
one. -/
structure ParameterBlock.Steps (b c : ParameterBlock α) : Prop where
  shape : b.SameShape c
  reaches : ∀ m, b.manifold = some m → m.Reaches b.values c.values

namespace Problem

variable {p q r : Problem α σ} {g : Program} {e : Evaluator α σ} {x y : Vec α}

/-- Every block is still there, related to what it was. -/
def Each (R : ParameterBlock α → ParameterBlock α → Prop) (p q : Problem α σ) : Prop :=
  ∀ id b, p.block? id = some b → ∃ c, q.block? id = some c ∧ R b c

theorem Each.mono {R R' : ParameterBlock α → ParameterBlock α → Prop} (h : p.Each R q)
    (hR : ∀ b c, R b c → R' b c) : p.Each R' q := by
  intro id b hb
  obtain ⟨c, hc, hbc⟩ := h id b hb
  exact ⟨c, hc, hR b c hbc⟩

/-- Steps lead from the blocks of one problem to those of another. -/
abbrev Steps (p q : Problem α σ) : Prop := p.Each ParameterBlock.Steps q

theorem SameContent.steps (h : p.SameContent q) : p.Steps q := by
  intro id b hb
  obtain ⟨c, hc, hbc⟩ := h.block?_left hb
  exact ⟨c, hc, hbc.sameShape, fun m _ => hbc.values ▸ .refl⟩

theorem Steps.trans (h : p.Steps q) (h' : q.Steps r) : p.Steps r := by
  intro id b hb
  obtain ⟨c, hc, hbc⟩ := h id b hb
  obtain ⟨d, hd, hcd⟩ := h' id c hc
  refine ⟨d, hd, hbc.shape.trans hcd.shape, fun m hm => ?_⟩
  exact (hbc.reaches m hm).trans (hcd.reaches m (hbc.shape.manifold.trans hm))

/-- A problem that holds a state to which steps lead from that of another
one. -/
theorem steps_of_reaches (he : e.MadeOf p g) (hx : g.Holds p x) (hreaches : e.Reaches x y)
    (hshape : p.SameShape q) (hy : g.Holds q y)
    (hout : ∀ id, id ∉ g.blocks → q.values id = p.values id) : p.Steps q := by
  intro id b hb
  obtain ⟨c, hc, hbc⟩ := hshape.block?_left hb
  refine ⟨c, hc, hbc, fun m hm => ?_⟩
  have hvalues : ∀ {p : Problem α σ} {b : ParameterBlock α} {v : Vec α}, p.block? id = some b →
      p.values id = .ok v → b.values = v := by
    intro p b v hb hv
    obtain ⟨b', hb', rfl⟩ := values_eq_ok.mp hv
    rw [hb] at hb'
    cases hb'
    rfl
  by_cases hid : id ∈ g.blocks
  · -- the block is one of those that the evaluator moves
    rw [← Evaluator.map_id_freeBlocks he.blocks] at hid
    obtain ⟨f, hf, rfl⟩ := List.mem_map.mp hid
    obtain ⟨k, hk⟩ := List.mem_iff_getElem?.mp hf
    obtain ⟨-, b', hb', -, -, hmanifold⟩ := Evaluator.place_freeBlocks he.blocks hk
    rw [hb] at hb'
    cases hb'
    rw [hvalues hb (Evaluator.valuesIn_of_holdsFrom he.blocks (.refl p) hx.entries f hf),
      hvalues hc (Evaluator.valuesIn_of_holdsFrom he.blocks hshape hy.entries f hf)]
    exact hreaches.blocks f hf m (hmanifold.trans hm)
  · have hsame := hout id hid
    rw [values_eq_ok.mpr ⟨b, hb, rfl⟩] at hsame
    rw [hvalues hc hsame]
    exact .refl

end Problem

/-! ## Reports -/

theorem Trace.exists_of_lastAccepted? {trace : Trace α} {x : Vec α}
    (h : trace.lastAccepted? = some x) : ∃ entry ∈ trace, entry.2 = x := by
  obtain ⟨entry, hlast, rfl⟩ := Option.map_eq_some_iff.mp h
  exact ⟨entry, (List.mem_filter.mp (List.mem_of_getLast? hlast)).1, rfl⟩

/-- The state that a minimizer recommends. -/
theorem SolveOptions.RanBy.reaches {o : SolveOptions α} {e : Evaluator α σ} {x : Vec α}
    {result : MinimizerSummary α} {trace : Trace α} (h : o.RanBy e x result trace)
    (htrace : ∀ entry ∈ trace, e.Reaches x entry.2) : e.Reaches x result.best := by
  cases h with
  | trustRegion m evaluator ran =>
      subst evaluator
      exact ran.reaches htrace
  | lineSearch m evaluator options ran =>
      subst evaluator
      exact ran.reaches htrace

section Solves

variable [ScalarText α] {o : SolveOptions α} {callbacks : List (Callback α σ)}
  {s : SolveSummary α} {w w' : World α σ} {c : Course α σ}

namespace Course.Of

/-- Steps lead to a problem that holds a state to which they lead, and that is
otherwise as it was. -/
theorem steps_of_holds (h : c.Of o callbacks w s w')
    (ho : ∀ order, o.eliminationOrder = some order → order.Reachable) {y : Vec α}
    (hreaches : c.minimizer.evaluator.Reaches c.start y) {q : Problem α σ}
    (hshape : w.problem.SameShape q) (hholds : c.reduced.program.Holds q y)
    (hout : ∀ id, id ∉ c.reduced.program.blocks → q.values id = w.problem.values id) :
    w.problem.Steps q := by
  have hcontent := h.created.content ho
  refine hcontent.steps.trans ?_
  refine Problem.steps_of_reaches h.assembled.evaluator (Program.holds_of_gather h.start)
    hreaches (hcontent.symm.sameShape.trans hshape) hholds fun id hid => ?_
  rw [hout id hid, hcontent.values_eq]

/-- Steps lead to all states that are reported. -/
theorem reaches (h : c.Of o callbacks w s w') (hw : w.problem.Reachable)
    (ho : ∀ order, o.eliminationOrder = some order → order.Reachable) :
    ∀ entry ∈ c.trace, c.minimizer.evaluator.Reaches c.start entry.2 := by
  have hmade := h.assembled.evaluator
  have hcoherent := hw.coherent_of_sameContent (h.created.content ho)
  exact h.visits.reaches (hmade.wellFormed hcoherent) hmade.placed

/-- When the minimizer has ended, the blocks are where steps lead. -/
theorem steps_after (h : c.Of o callbacks w s w') (hw : w.problem.Reachable)
    (ho : ∀ order, o.eliminationOrder = some order → order.Reachable) :
    w.problem.Steps c.after.problem := by
  have hcontent := h.created.content ho
  have hupdate : (o.pipeline c.reduced.program callbacks).update = none ∨
      (o.pipeline c.reduced.program callbacks).update = some c.reduced.program :=
    SolveOptions.pipeline_update
  rcases hupdate with hnone | hsome
  · rw [h.minimized.reported.problem_eq hnone]
    exact hcontent.steps
  · obtain ⟨hmoved, hunmoved, hlast⟩ :=
      h.minimized.reported.holds hsome (h.created.nodup ho) h.size
    cases hx : c.trace.lastAccepted? with
    | none =>
        rw [hunmoved hx]
        exact hcontent.steps
    | some x =>
        obtain ⟨entry, hentry, rfl⟩ := Trace.exists_of_lastAccepted? hx
        refine h.steps_of_holds ho (h.reaches hw ho entry hentry)
          (hcontent.sameShape.trans hmoved.shape) (hlast _ hx) fun id hid => ?_
        rw [hmoved.values_eq hid, hcontent.values_eq]

/-- When the result of the minimizer is written, too. -/
theorem steps_final (h : c.Of o callbacks w s w') (hw : w.problem.Reachable)
    (ho : ∀ order, o.eliminationOrder = some order → order.Reachable) :
    w.problem.Steps w'.problem := by
  cases hwrites : c.result.termination.writesBack with
  | false =>
      rw [h.kept hwrites]
      exact h.steps_after hw ho
  | true =>
      have hcontent := h.created.content ho
      have hnodup := h.created.nodup ho
      have hmoved := h.moved hnodup
      refine h.steps_of_holds ho ((h.ran hwrites).reaches (h.reaches hw ho))
        (hcontent.sameShape.trans hmoved.shape) (h.holds hnodup hwrites) fun id hid => ?_
      rw [hmoved.values_eq hid, hcontent.values_eq]

/-- And at every report, in the problem that takes over the state that is
reported. -/
theorem steps_reported (h : c.Of o callbacks w s w') (hw : w.problem.Reachable)
    (ho : ∀ order, o.eliminationOrder = some order → order.Reachable) : ∀ entry ∈ c.trace, ∃ q,
      c.reduced.program.scatter entry.2 w.problem = .ok q ∧ w.problem.Steps q := by
  intro entry hentry
  have hsize : c.reduced.program.numParameters w.problem = .ok entry.2.size := by
    rw [← Program.numParameters_eq (h.created.content ho).sameShape]
    exact h.size entry hentry
  obtain ⟨q, hq, hshape, hholds, -⟩ := Program.scatter_spec (h.created.nodup ho) hsize
  have hmoved := Problem.moved_of_scatter hq
  exact ⟨q, hq, h.steps_of_holds ho (h.reaches hw ho entry hentry) hshape hholds
    fun id hid => hmoved.values_eq hid⟩

end Course.Of

/-! ## Solves -/

/-- Every block is related to what it was before the solve, when the solve is
over and at all of its reports, in the problem that takes over the state that
is reported. -/
structure SolveKeeps (R : ParameterBlock α → ParameterBlock α → Prop) (o : SolveOptions α)
    (callbacks : List (Callback α σ)) (w : World α σ) (s : SolveSummary α) (w' : World α σ) :
    Prop where
  final : w.problem.Each R w'.problem
  reports : s.records = [] ∨ ∃ (c : Course α σ) (w1 : World α σ),
    c.Of o callbacks (Run.tick w) s w1 ∧ s.records = c.trace.map Prod.fst ∧
    Reported (o.pipeline c.reduced.program callbacks) c.trace c.before c.after ∧
    ∀ entry ∈ c.trace, ∃ q, c.reduced.program.scatter entry.2 w.problem = .ok q ∧
      w.problem.Each R q

theorem SolveKeeps.mono {R R' : ParameterBlock α → ParameterBlock α → Prop}
    (h : SolveKeeps R o callbacks w s w') (hR : ∀ b c, R b c → R' b c) :
    SolveKeeps R' o callbacks w s w' := by
  refine ⟨h.final.mono hR, h.reports.imp_right ?_⟩
  rintro ⟨c, w1, hc, hrecords, hreported, hentries⟩
  refine ⟨c, w1, hc, hrecords, hreported, fun entry hentry => ?_⟩
  obtain ⟨q, hq, hsteps⟩ := hentries entry hentry
  exact ⟨q, hq, hsteps.mono hR⟩

/-- A solve moves blocks by steps on their manifolds. -/
theorem solveKeeps_steps (hw : w.problem.Reachable)
    (ho : ∀ order, o.eliminationOrder = some order → order.Reachable)
    (hsolve : solve o callbacks w = .ok s w') :
    SolveKeeps ParameterBlock.Steps o callbacks w s w' := by
  obtain ⟨r, s1, w1, hattempt, hproblem, -, hok, herror⟩ := returns_solve ho s w' hsolve
  have hcontent : w1.problem.SameContent w'.problem := hproblem ▸ Program.sameContent_setOffsets
  cases hattempt with
  | rejected content _ records =>
      have hs := herror _ rfl
      exact ⟨(content.trans hcontent).steps, .inl (hs ▸ records)⟩
  | settled created _ _ _ _ _ records =>
      have hs := hok rfl
      exact ⟨((created.content ho).trans hcontent).steps, .inl (hs ▸ records)⟩
  | @minimized c _ _ course =>
      have hs := hok rfl
      have hcourse : c.Of o callbacks (Run.tick w) s w1 := hs ▸ course.timed _
      exact ⟨(course.steps_final hw ho).trans hcontent.steps, .inr ⟨c, w1, hcourse,
        hcourse.records, hcourse.minimized.reported, course.steps_reported hw ho⟩⟩

end Solves

/-- What a solve keeps of manifolds. At all of its reports and when it is over,
a block with a subset manifold has exactly its initial values in the coordinates
that were listed as constant, in any arithmetic. Over the real numbers a block
with the quaternion manifold has the length that it had. -/
theorem solve_manifolds :
    (∀ {α σ : Type} [Scalar α] [ScalarText α] {o : SolveOptions α}
      {callbacks : List (Callback α σ)} {w w' : World α σ} {s : SolveSummary α},
      w.problem.Reachable → (∀ order, o.eliminationOrder = some order → order.Reachable) →
      solve o callbacks w = .ok s w' → SolveKeeps (fun b c => ∀ n constant subset,
        Subset.ofConstant? n constant = .ok subset → b.manifold = some (.subset subset) →
          ∀ i ∈ constant, c.values.get i = b.values.get i) o callbacks w s w') ∧
    ∀ {σ : Type} [ScalarText ℝ] {o : SolveOptions ℝ} {callbacks : List (Callback ℝ σ)}
      {w w' : World ℝ σ} {s : SolveSummary ℝ},
      w.problem.Reachable → (∀ order, o.eliminationOrder = some order → order.Reachable) →
      solve o callbacks w = .ok s w' → SolveKeeps (fun b c =>
        b.manifold = some .quaternion → c.values.norm = b.values.norm) o callbacks w s w' := by
  refine ⟨fun hw ho hsolve => ?_, fun hw ho hsolve => ?_⟩
  · refine (solveKeeps_steps hw ho hsolve).mono fun b c hbc n constant subset hsubset hb i hi => ?_
    exact (hbc.reaches _ hb).get_subset (Subset.not_mem_free hsubset hi)
  · refine (solveKeeps_steps hw ho hsolve).mono fun b c hbc hb => ?_
    exact (hbc.reaches _ hb).norm_quaternion

namespace Gallery

/-- Two blocks on manifolds: one whose second coordinate is held constant, and
a quaternion. -/
def fastened (α : Type) [Scalar α] : Problem α Unit where
  slots := #[
    ⟨0, some { values := .ofList [1, 2.0], manifold := some (.subset (.ofConstant 2 [1])) }⟩,
    ⟨0, some { values := .ofList [1, 0, 0, 0], manifold := some .quaternion }⟩]
  residuals := #[some ⟨[⟨0, 0⟩], anchor (.ofList [5.0, 3.0]), none⟩,
    some ⟨[⟨1, 0⟩], anchor (.ofList [0, 1, 0, 0]), none⟩]
  numBlocks := 2
  numResidualBlocks := 2

theorem reachable_fastened : (fastened α).Reachable := by
  have h : Problem.Reachable (α := α) (σ := Unit) .empty := .empty
  have h := h.addBlockOn (.inr (show 0 < UInt32.size by decide)) (.ofList [1, 2.0])
    (.subset (.ofConstant 2 [1]))
  have h := h.addBlockOn (.inr (show 1 < UInt32.size by decide)) (.ofList [1, 0, 0, 0])
    .quaternion
  have h := h.addResidual
    (show Problem.addResidual _ (anchor (.ofList [5.0, 3.0])) none [⟨0, 0⟩] = .ok (_, _) from rfl)
  exact h.addResidual
    (show Problem.addResidual _ (anchor (.ofList [0, 1, 0, 0])) none [⟨1, 0⟩] = .ok (_, _) from rfl)

/-- The world with these blocks, in which time stands still. -/
def fastenedWorld (α : Type) [Scalar α] : World α Unit where
  problem := fastened α
  tally := ⟨(), 0⟩
  clock _ := 0

/-- The evaluator for both blocks. -/
def fastenedEvaluator (α : Type) [Scalar α] : Evaluator α Unit where
  blocks := [⟨⟨0, 0⟩, 0, 2, 0, 1, some (.subset (.ofConstant 2 [1]))⟩,
    ⟨⟨1, 0⟩, 2, 4, 1, 3, some .quaternion⟩]
  terms := [⟨⟨0⟩, anchor (.ofList [5.0, 3.0]), none, [.free 0]⟩,
    ⟨⟨1⟩, anchor (.ofList [0, 1, 0, 0]), none, [.free 1]⟩]
  layout := .general
  check := none
  template := .ofStructure [1, 3] [(2, [0]), (4, [1])]

/-- Where the blocks start. -/
def fastenedStart (α : Type) [Scalar α] : Vec α := .ofList [1, 2.0, 1, 0, 0, 0]

theorem determines_fastened (a b q₀ q₁ q₂ q₃ : ℝ) : (fastenedEvaluator ℝ).Determines
    (.ofList [a, b, q₀, q₁, q₂, q₃])
    (((a - 5) ^ 2 + (b - 3) ^ 2 + q₀ ^ 2 + (q₁ - 1) ^ 2 + q₂ ^ 2 + q₃ ^ 2) / 2)
    (.ofList [a - 5, -q₀, -q₃, q₂]) := by
  have hcost : ((0 : ℕ) : ℝ) +
      0.5 * (((0 : ℕ) : ℝ) + (a - 5.0) * (a - 5.0) + (b - 3.0) * (b - 3.0)) +
      0.5 * (((0 : ℕ) : ℝ) + (q₀ - (0 : ℕ)) * (q₀ - (0 : ℕ)) + (q₁ - (1 : ℕ)) * (q₁ - (1 : ℕ)) +
        (q₂ - (0 : ℕ)) * (q₂ - (0 : ℕ)) + (q₃ - (0 : ℕ)) * (q₃ - (0 : ℕ))) =
      ((a - 5) ^ 2 + (b - 3) ^ 2 + q₀ ^ 2 + (q₁ - 1) ^ 2 + q₂ ^ 2 + q₃ ^ 2) / 2 := by
    norm_num
    ring
  intro wantJacobian t
  cases wantJacobian with
  | false => exact ⟨_, _, rfl, _, rfl, hcost, nofun⟩
  | true =>
      refine ⟨_, _, by with_unfolding_all rfl, _, rfl, hcost, fun _ => congrArg some ?_⟩
      -- the Jacobians of the anchors are identities, those of the manifolds are left
      show Vec.concat [Vec.zeros 1 + ((Mat.identity 2).mul
          (Subset.ofConstant 2 [1]).plusJacobian).tMulVec (.ofList [a - 5.0, b - 3.0]),
        Vec.zeros 3 + ((Mat.identity 4).mul
          (Manifold.quaternionJacobian (.ofList [q₀, q₁, q₂, q₃]))).tMulVec
            (.ofList [q₀ - (0 : ℕ), q₁ - (1 : ℕ), q₂ - (0 : ℕ), q₃ - (0 : ℕ)])] = _
      rw [Mat.tMulVec_mul rfl, Mat.tMulVec_identity (n := 2) rfl, Mat.tMulVec_mul rfl,
        Mat.tMulVec_identity (n := 4) rfl]
      show Vec.ofList [
        ((0 : ℕ) : ℝ) + (((0 : ℕ) : ℝ) + (1 : ℕ) * (a - 5.0) + (0 : ℕ) * (b - 3.0)),
        ((0 : ℕ) : ℝ) + (((0 : ℕ) : ℝ) + -q₁ * (q₀ - (0 : ℕ)) + q₀ * (q₁ - (1 : ℕ)) +
          -q₃ * (q₂ - (0 : ℕ)) + q₂ * (q₃ - (0 : ℕ))),
        ((0 : ℕ) : ℝ) + (((0 : ℕ) : ℝ) + -q₂ * (q₀ - (0 : ℕ)) + q₃ * (q₁ - (1 : ℕ)) +
          q₀ * (q₂ - (0 : ℕ)) + -q₁ * (q₃ - (0 : ℕ))),
        ((0 : ℕ) : ℝ) + (((0 : ℕ) : ℝ) + -q₃ * (q₀ - (0 : ℕ)) + -q₂ * (q₁ - (1 : ℕ)) +
          q₁ * (q₂ - (0 : ℕ)) + q₀ * (q₃ - (0 : ℕ)))] = _
      norm_num
      ring_nf

/-- A step turns the quaternion into one of the same length. -/
theorem exists_turned (x delta : Vec ℝ) (hx : x.size = 4) (hdelta : delta.size = 3) :
    ∃ q₀ q₁ q₂ q₃, Manifold.quaternion.plus x delta = .ok (.ofList [q₀, q₁, q₂, q₃]) ∧
      q₀ ^ 2 + q₁ ^ 2 + q₂ ^ 2 + q₃ ^ 2 = quaternionSq x := by
  let y := Manifold.quaternionPlus x delta
  have hy : y = .ofList [y.get 0, y.get 1, y.get 2, y.get 3] := by
    have hsize : y.size = 4 := Manifold.size_quaternionPlus hx hdelta
    refine Vec.ext_get hsize fun i hi => ?_
    rw [hsize] at hi
    match i, hi with
    | 0, _ => rfl
    | 1, _ => rfl
    | 2, _ => rfl
    | 3, _ => rfl
  refine ⟨_, _, _, _, ?_, quaternionSq_plus x delta⟩
  rw [Manifold.plus_quaternion hx hdelta, ← hy]

/-- A step of a quarter of the gradient moves both blocks. -/
theorem exists_plus_fastened : ∃ q₀ q₁ q₂ q₃ : ℝ,
    (fastenedEvaluator ℝ).plus (.ofList [1, 2, 1, 0, 0, 0])
      ((-Vec.ofList [(1 : ℝ) - 5, -1, -0, 0]).scale (1 / 4)) =
        .ok (.ofList [1 + -(1 - 5) * (1 / 4), 2, q₀, q₁, q₂, q₃]) ∧
      q₀ ^ 2 + q₁ ^ 2 + q₂ ^ 2 + q₃ ^ 2 = 1 := by
  obtain ⟨q₀, q₁, q₂, q₃, hturn, hsq⟩ := exists_turned
    (.slice (.ofList [1, 2, 1, 0, 0, 0]) 2 4)
    (.slice ((-Vec.ofList [(1 : ℝ) - 5, -1, -0, 0]).scale (1 / 4)) 1 3) rfl rfl
  have hlast (out : Vec ℝ) : Evaluator.plusBlocks (.ofList [1, 2, 1, 0, 0, 0])
      ((-Vec.ofList [(1 : ℝ) - 5, -1, -0, 0]).scale (1 / 4))
      [⟨⟨1, 0⟩, 2, 4, 1, 3, some .quaternion⟩] out =
        .ok (out.splice 2 (.ofList [q₀, q₁, q₂, q₃])) := by
    simp only [Evaluator.plusBlocks, FreeBlock.plus, FreeBlock.valuesIn, hturn]
  refine ⟨q₀, q₁, q₂, q₃, ?_, hsq.trans ?_⟩
  · refine Eq.trans ?_ (hlast (.ofList [1 + -(1 - 5) * (1 / 4), 2, 1, 0, 0, 0]))
    with_unfolding_all rfl
  · show (1 : ℝ) ^ 2 + 0 ^ 2 + 0 ^ 2 + 0 ^ 2 = 1
    norm_num

theorem exists_prepared_fastened : ∃ p t reduced,
    (searching ℝ 1).Prepared (fastenedWorld ℝ)
      { fastenedWorld ℝ with problem := p, tally := t } reduced
      (.lineSearch (searching ℝ 1).minimizer (fastenedEvaluator ℝ)) (fastenedStart ℝ) := by
  refine ⟨_, _, _, ⟨_, rfl⟩, ?_, validate_searching 1,
    ⟨_, rfl, by with_unfolding_all rfl⟩, ⟨_, rfl⟩, rfl, fun _ _ => ?_, nofun, rfl⟩
  · rintro (h | h) <;> cases h
  · exact SolveOptions.completes_assemble_lineSearch rfl (by with_unfolding_all rfl)

/-- The first trial goes a quarter of the way along the ray. The quaternion stays
within reach of its target, and the other block comes closer. -/
theorem exists_searched_fastened : ∃ s w', solve (searching ℝ 1) [] (fastenedWorld ℝ) = .ok s w' ∧
    ∃ cost ≤ 7, s.records.map IterationRecord.cost = [19 / 2, cost] := by
  obtain ⟨p, t, reduced, hprepared⟩ := exists_prepared_fastened
  have hstart : fastenedStart ℝ = .ofList [1, 2, 1, 0, 0, 0] := by
    show Vec.ofList [((1 : ℕ) : ℝ), 2.0, (1 : ℕ), (0 : ℕ), (0 : ℕ), (0 : ℕ)] = _
    norm_num
  have hnorm : (Vec.ofList [(1 : ℝ) - 5, -1, -0, 0]).maxNorm = 4 := by
    show Scalar.larger (Scalar.larger (Scalar.larger |(1 : ℝ) - 5| |(-1 : ℝ)|) |(-0 : ℝ)|)
      |(0 : ℝ)| = 4
    norm_num [Scalar.larger]
  obtain ⟨q₀, q₁, q₂, q₃, hplus, hunit⟩ := exists_plus_fastened
  have hcost : ((1 + -(1 - 5) * (1 / 4) - 5) ^ 2 + (2 - 3) ^ 2 + q₀ ^ 2 + (q₁ - 1) ^ 2 + q₂ ^ 2 +
      q₃ ^ 2) / 2 ≤ 7 := by
    nlinarith only [hunit, sq_nonneg q₀, sq_nonneg q₂, sq_nonneg q₃, sq_nonneg (q₁ + 1)]
  have hlow : (7 : ℝ) ≤ ((1 - 5) ^ 2 + (2 - 3) ^ 2 + 1 ^ 2 + (0 - 1) ^ 2 + 0 ^ 2 + 0 ^ 2) / 2 +
      (1e-4 : ℝ) * (1 / 4) * -(Vec.ofList [(1 : ℝ) - 5, -1, -0, 0]).normSq := by
    show _ ≤ _ + (1e-4 : ℝ) * (1 / 4) * -(((0 : ℕ) : ℝ) + (1 - 5) * (1 - 5) + -1 * -1 + -0 * -0 +
      0 * 0)
    norm_num
  obtain ⟨s, w', hsolve, -, -, hcosts⟩ := exists_searched (hstart ▸ hprepared)
    (fun _ => rfl) (determines_fastened 1 2 1 0 0 0) (by rw [hnorm]; norm_num)
    (by rw [hnorm]; norm_num) hplus (determines_fastened _ _ _ _ _ _) (hcost.trans hlow)
  refine ⟨s, w', hsolve, _, hcost, hcosts.trans ?_⟩
  norm_num

end Gallery

/-- A line search that moves a block on a subset manifold and a quaternion. -/
theorem solve_manifolds_fastened : ∃ s w', solve (Gallery.searching ℝ 1) []
      (Gallery.fastenedWorld ℝ) = .ok s w' ∧
    (∃ cost ≤ 7, s.records.map IterationRecord.cost = [19 / 2, cost]) ∧
    SolveKeeps (fun b c => ∀ n constant subset, Subset.ofConstant? n constant = .ok subset →
        b.manifold = some (.subset subset) → ∀ i ∈ constant, c.values.get i = b.values.get i)
      (Gallery.searching ℝ 1) [] (Gallery.fastenedWorld ℝ) s w' ∧
    SolveKeeps (fun b c => b.manifold = some .quaternion → c.values.norm = b.values.norm)
      (Gallery.searching ℝ 1) [] (Gallery.fastenedWorld ℝ) s w' ∧
    ∃ b, w'.problem.block? ⟨0, 0⟩ = some b ∧ b.values.get 1 = 2.0 := by
  have ho : ∀ order, (Gallery.searching ℝ 1).eliminationOrder = some order → order.Reachable :=
    fun _ horder => by cases horder
  obtain ⟨s, w', hsolve, hmoved⟩ := Gallery.exists_searched_fastened
  have hsubset := solve_manifolds.1 (Gallery.reachable_fastened (α := ℝ)) ho hsolve
  have hquaternion := solve_manifolds.2 Gallery.reachable_fastened ho hsolve
  obtain ⟨b, hb, hvalues⟩ := hsubset.final ⟨0, 0⟩ _ rfl
  refine ⟨s, w', hsolve, hmoved, hsubset, hquaternion, b, hb, ?_⟩
  exact hvalues 2 [1] (.ofConstant 2 [1]) rfl rfl 1 (by simp)

end LeastSquares
