import LeastSquares.Proofs.Reachable
import LeastSquares.Proofs.SolveCompletion

/-!
# What a solve leaves alone

However a solve returns, it has changed at most values of free blocks that a
residual block reads, and the places of all blocks are noted in natural
order. A solve that is turned down has changed no values. One that was
aborted or broke down has changed none either, unless accepted states are
written as they are reported; then the last one reported stays.

## Main results

* `SolveOptions.Attempted.frame` — which values an attempt can change.
* `solve_frame` — what a solve leaves alone.
-/

namespace LeastSquares

variable {α σ : Type} [Scalar α]

/-! ## Blocks that are optimized -/

/-- The blocks of a reduced program are the free blocks that residual blocks
read. -/
theorem SolveOptions.Created.mem_blocks {o : SolveOptions α} {w v : World α σ}
    {reduced : ReducedProgram α} (h : o.Created w v reduced)
    (ho : ∀ order, o.eliminationOrder = some order → order.Reachable) (hw : w.problem.Sound)
    (id : BlockId) : id ∈ reduced.program.blocks ↔ ∃ i, w.problem.ReadsFree i id := by
  obtain ⟨removal, hremoval, hreduced⟩ := h.exists_removal ho
  obtain ⟨fixed, hperm, hfixed, -⟩ := hremoval.residuals
  rw [hreduced.blocks.mem_iff, hremoval.mem_blocks]
  constructor
  · rintro ⟨-, i, -, hreads⟩
    exact ⟨i, hreads⟩
  · rintro ⟨i, hreads⟩
    have ⟨r, hr, _, b, hb, _⟩ := hreads
    have hi : i ∈ (Program.ofProblem w.problem).residuals := Problem.mem_residualIds.mpr ⟨r, hr⟩
    have hid : id ∈ (Program.ofProblem w.problem).blocks :=
      (Problem.mem_blockIds hw.room).mpr (Problem.contains_iff.mpr ⟨b, hb⟩)
    rcases List.mem_append.mp (hperm.mem_iff.mp hi) with hi | hi
    · exact absurd hreads ((hfixed i hi).2 id)
    · exact ⟨hid, i, hi, hreads⟩

/-! ## Attempts -/

section Attempts

variable [ScalarText α] {o : SolveOptions α} {callbacks : List (Callback α σ)}
  {s : SolveSummary α} {w w' : World α σ}

namespace SolveOptions.Attempted

variable {r : Except (SolveError α) Unit}

/-- An attempt changes values of free blocks that residual blocks read, and
nothing else. -/
theorem frame (h : o.Attempted callbacks w r s w')
    (ho : ∀ order, o.eliminationOrder = some order → order.Reachable) (hw : w.problem.Sound) :
    w.problem.SameShape w'.problem ∧ ∀ id, (∀ i, ¬ w.problem.ReadsFree i id) →
      w'.problem.values id = w.problem.values id := by
  cases h with
  | rejected content _ => exact ⟨content.sameShape, fun id _ => content.values_eq id⟩
  | settled created =>
      have hcontent := created.content ho
      exact ⟨hcontent.sameShape, fun id _ => hcontent.values_eq id⟩
  | minimized course =>
      have hcontent := course.created.content ho
      have hmoved := course.moved (course.created.nodup ho)
      refine ⟨hcontent.sameShape.trans hmoved.shape, fun id hid => ?_⟩
      rw [hmoved.values_eq, hcontent.values_eq]
      rw [course.created.mem_blocks ho hw]
      rintro ⟨i, hreads⟩
      exact hid i hreads

/-- An attempt whose minimizer was aborted or broke down leaves the state of
the last accepted step that was reported, if such states are written, and the
initial values otherwise. -/
theorem stopped (h : o.Attempted callbacks w r s w')
    (ho : ∀ order, o.eliminationOrder = some order → order.Reachable)
    (hstop : s.termination = .userAbort ∨ s.termination = .numericalFailure) :
    r = .ok () ∧ ∃ c : Course α σ, c.Of o callbacks w s w' ∧
      (o.updateEveryIteration = false → w.problem.SameContent w'.problem) ∧
      (o.updateEveryIteration = true →
        (c.trace.lastAccepted? = none → w.problem.SameContent w'.problem) ∧
        ∀ x, c.trace.lastAccepted? = some x → c.reduced.program.Holds w'.problem x) := by
  cases h with
  | rejected _ termination => rcases hstop with hstop | hstop <;> cases termination.symm.trans hstop
  | settled _ _ _ _ _ termination =>
      rcases hstop with hstop | hstop <;> cases termination.symm.trans hstop
  | minimized course =>
      rename_i c
      have hcontent := course.created.content ho
      have hafter : w'.problem = c.after.problem := by
        refine course.kept ?_
        rw [← course.termination]
        rcases hstop with hstop | hstop <;> rw [hstop] <;> rfl
      refine ⟨rfl, c, course, fun hoff => ?_, fun hon => ?_⟩
      · have hnone : (o.pipeline c.reduced.program callbacks).update = none := by
          rw [pipeline, hoff]
          rfl
        rw [hafter, course.minimized.reported.problem_eq hnone]
        exact hcontent
      · have hsome : (o.pipeline c.reduced.program callbacks).update = some c.reduced.program := by
          rw [pipeline, hon]
          rfl
        obtain ⟨-, hnone, hlast⟩ :=
          course.minimized.reported.holds hsome (course.created.nodup ho) course.size
        rw [hafter]
        exact ⟨fun hno => hnone hno ▸ hcontent, hlast⟩

end SolveOptions.Attempted

end Attempts

/-! ## Solves -/

/-- Noting the places of all blocks of a problem makes them valid. -/
theorem Program.isValid_ofProblem {p q q' : Problem α σ} (hp : p.Sound) (hs : p.SameShape q)
    (hq : q' = ((Program.ofProblem p).setOffsets q).2) :
    (Program.ofProblem q').isValid q' = true := by
  have hshape : p.SameShape q' := hs.trans (hq ▸ Program.sameContent_setOffsets.sameShape)
  have hsame : Program.ofProblem q' = .ofProblem p := by
    rw [ofProblem, ofProblem, hshape.blockIds, hshape.residualIds]
  rw [hsame, hq]
  refine Program.isValid_setOffsets (Problem.nodup_blockIds hp.room) fun id hid => ?_
  rw [hs.contains]
  exact (Problem.mem_blockIds hp.room).mp hid

/-- A block that is constant, or that only residual blocks without free blocks
read, is not read as a free block. -/
theorem Problem.not_readsFree {p : Problem α σ} {id : BlockId} {b : ParameterBlock α}
    (hb : p.block? id = some b) (h : b.constant = true ∨
      ∀ i r, p.residual? i = some r → id ∈ r.blocks → ∀ id' ∈ r.blocks,
        ∀ c, p.block? id' = some c → c.constant = true) (i : ResidualId) :
    ¬ p.ReadsFree i id := by
  rintro ⟨r, hr, hid, c, hc, hfree⟩
  have hconst : c.constant = true := by
    rcases h with h | h
    · rw [hb] at hc
      cases hc
      exact h
    · exact h i r hr hid id hid c hc
  rw [hconst] at hfree
  cases hfree

/-- What a solve leaves alone. -/
theorem solve_frame [ScalarText α] {o : SolveOptions α} {callbacks : List (Callback α σ)}
    {w w' : World α σ} {s : SolveSummary α} (hw : w.problem.Reachable)
    (ho : ∀ order, o.eliminationOrder = some order → order.Reachable)
    (hsolve : solve o callbacks w = .ok s w') :
    ((Program.ofProblem w'.problem).isValid w'.problem = true ∧
      w.problem.SameShape w'.problem) ∧
    (∀ id b, w.problem.block? id = some b → (b.constant = true ∨
        ∀ i r, w.problem.residual? i = some r → id ∈ r.blocks → ∀ id' ∈ r.blocks,
          ∀ c, w.problem.block? id' = some c → c.constant = true) →
      w'.problem.values id = w.problem.values id) ∧
    (s.error ≠ none → ∀ id, w'.problem.values id = w.problem.values id) ∧
    (s.termination = .userAbort ∨ s.termination = .numericalFailure →
      (o.updateEveryIteration = false → ∀ id, w'.problem.values id = w.problem.values id) ∧
      (o.updateEveryIteration = true → ∃ (c : Course α σ) (w1 : World α σ),
        c.Of o callbacks (Run.tick w) s w1 ∧
          w'.problem = ((Program.ofProblem w.problem).setOffsets w1.problem).2 ∧
          w'.tally = w1.tally ∧
          (∀ id, id ∈ c.reduced.program.blocks ↔ ∃ i, w.problem.ReadsFree i id) ∧
          Reported (o.pipeline c.reduced.program callbacks) c.trace c.before c.after ∧
          c.trace.map Prod.fst = s.records ∧
          (c.trace.lastAccepted? = none → ∀ id, w'.problem.values id = w.problem.values id) ∧
          ∀ x, c.trace.lastAccepted? = some x → c.reduced.program.Holds w'.problem x)) := by
  have hsound := hw.sound
  obtain ⟨r, s1, w1, hattempt, hproblem, htally, hok, herror⟩ := returns_solve ho s w' hsolve
  obtain ⟨hshape, hframe⟩ := hattempt.frame ho hsound
  have hcontent : w1.problem.SameContent w'.problem := hproblem ▸ Program.sameContent_setOffsets
  have hkept : ∀ {id}, w1.problem.values id = w.problem.values id →
      w'.problem.values id = w.problem.values id := fun h => (hcontent.values_eq _).trans h
  refine ⟨⟨?_, hshape.trans hcontent.sameShape⟩, fun id b hb hfixed => ?_,
    fun hs id => ?_, fun hstop => ?_⟩
  · exact Program.isValid_ofProblem hsound hshape hproblem
  · exact hkept (hframe id (Problem.not_readsFree hb hfixed))
  · cases r with
    | ok _ =>
        have hs1 := hok rfl
        rw [hs1] at hs
        cases hattempt with
        | settled _ _ _ _ error _ => exact absurd error hs
        | minimized course => exact absurd course.error hs
    | error e =>
        cases hattempt with
        | rejected content _ => exact hkept (content.values_eq id)
  · have hs1 : s.termination = s1.termination ∧ s.records = s1.records := by
      cases r with
      | ok _ => exact hok rfl ▸ ⟨rfl, rfl⟩
      | error e => exact herror e rfl ▸ ⟨rfl, rfl⟩
    rw [hs1.1] at hstop
    obtain ⟨rfl, c, hc, hoff, hon⟩ := hattempt.stopped ho hstop
    refine ⟨fun ho id => hkept ((hoff ho).values_eq id), fun hyes => ?_⟩
    obtain ⟨hnone, hlast⟩ := hon hyes
    have hcourse : c.Of o callbacks (Run.tick w) s w1 := hok rfl ▸ hc.timed _
    refine ⟨c, w1, hcourse, hproblem, htally, hc.created.mem_blocks ho hsound,
      hc.minimized.reported, hcourse.records.symm, ?_, ?_⟩
    · exact fun hno id => hkept ((hnone hno).values_eq id)
    · exact fun x hx => (hlast x hx).sameContent hcontent

namespace Gallery

/-- Options for two moves, in which the problem takes over the states as they
are reported. -/
def twoMoves : SolveOptions Float := { searching Float 2 with updateEveryIteration := true }

/-- A callback that aborts once a move was made. -/
def abortMoved : Callback Float Unit :=
  fun record _ u => (if record.iteration = 0 then .continue else .abort, u)

end Gallery

/-- A callback aborts after the first move, which has led from one to two. -/
theorem solve_frame_anchored : ∃ s w', solve Gallery.twoMoves [Gallery.abortMoved]
      (Gallery.anchoredWorld Float) = .ok s w' ∧ s.termination = .userAbort ∧
    (Program.ofProblem w'.problem).isValid w'.problem = true ∧
    w'.problem.values ⟨1, 0⟩ = (Gallery.anchored Float).values ⟨1, 0⟩ ∧
    (∃ b, w'.problem.block? ⟨0, 0⟩ = some b ∧ (b.values.get 0 == 2.0) = true) ∧
    ∃ (c : Course Float Unit) (w1 : World Float Unit),
      c.Of Gallery.twoMoves [Gallery.abortMoved] (Run.tick (Gallery.anchoredWorld Float)) s w1 ∧
        c.trace.length = 2 ∧
        ∀ x, c.trace.lastAccepted? = some x → c.reduced.program.Holds w'.problem x := by
  obtain ⟨s, w', hsolve, htest⟩ : ∃ s w', solve Gallery.twoMoves [Gallery.abortMoved]
      (Gallery.anchoredWorld Float) = .ok s w' ∧
      (s.termination == .userAbort && s.records.length == 2 &&
        (w'.problem.block? ⟨0, 0⟩).any fun b => b.values.get 0 == 2.0) = true := by
    refine exists_of_test (fun (s : SolveSummary Float) (w' : World Float Unit) =>
      s.termination == .userAbort && s.records.length == 2 &&
        (w'.problem.block? ⟨0, 0⟩).any fun b => b.values.get 0 == 2.0) ?_
    decide +kernel
  simp only [Bool.and_eq_true, beq_iff_eq, Option.any_eq_true] at htest
  obtain ⟨⟨hstop, hlength⟩, hmoved⟩ := htest
  obtain ⟨⟨hvalid, -⟩, hframe, -, hlast⟩ :=
    solve_frame Gallery.reachable_anchored (fun _ horder => by cases horder) hsolve
  obtain ⟨c, w1, hc, -, -, -, -, hrecords, -, hholds⟩ := (hlast (.inl hstop)).2 rfl
  refine ⟨s, w', hsolve, hstop, hvalid, hframe ⟨1, 0⟩ _ rfl (.inl rfl), hmoved, c, w1, hc, ?_,
    hholds⟩
  rw [← hlength, ← hrecords, List.length_map]

end LeastSquares
