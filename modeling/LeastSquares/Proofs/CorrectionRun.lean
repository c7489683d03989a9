import LeastSquares.Proofs.Armijo
import LeastSquares.Proofs.OptionBounds
import LeastSquares.Proofs.QuasiNewton

/-!
# The quasi-Newton memory in the course of a run

Each move hands its memory one pair: the move itself, and how much the gradient
has changed over it. Before that the memory is emptied if its direction did not
lead down, which over the real numbers never happens. So at every report the memory
is the one of rank `maxLbfgsRank` after the calls of all moves up to there, whatever
direction the moves have taken.

Options that ask for quasi-Newton directions are refused if the rank is zero.
Options that ask for steepest descent are not, and the memory is handed the same
pairs there. With rank zero it then keeps all of them, one more for every move.

## Main definitions

* `LineSearch.told`, `LineSearch.calls` — what one move tells the memory, and what
  all moves do.
* `LineSearch.Remembers` — what the memory holds at a report.

## Main results

* `LineSearch.memory_of_leads` — one iteration.
* `LineSearch.memory_of_passes` — all iterations.
* `LineSearch.memory_run` — a whole run.
* `LineSearch.proposed_run` — the directions of a run over the real numbers.
* `LineSearch.not_memory_run_bounded` — a memory above its rank.
-/

namespace LeastSquares

namespace LineSearch

variable {α σ : Type} [Scalar α] {m : LineSearch α σ} {a b s : State α} {w w' : World α σ}

/-! ## One iteration -/

/-- What the move from one state to another tells the memory. It is emptied first
if the direction asked for does not lead down. -/
def told (m : LineSearch α σ) (a b : State α) : List (Lbfgs.Call α) :=
  (if a.gradient.dot (m.proposed a) < 0 then [] else [.reset]) ++
    [.update ⟨(m.ray a).direction.scale b.record.stepSize, b.gradient - a.gradient⟩]

theorem update_mem_told {c : Correction α} : .update c ∈ m.told a b ↔
    c = ⟨(m.ray a).direction.scale b.record.stepSize, b.gradient - a.gradient⟩ := by
  unfold told
  split <;> simp

/-- What the moves from each of some states to the next tell the memory. -/
def calls (m : LineSearch α σ) : List (State α) → List (Lbfgs.Call α)
  | a :: b :: rest => m.told a b ++ m.calls (b :: rest)
  | _ => []

theorem calls_concat (m : LineSearch α σ) (before : List (State α)) (a b : State α) :
    m.calls (before ++ [a, b]) = m.calls (before ++ [a]) ++ m.told a b := by
  induction before with
  | nil => exact List.append_nil _
  | cons c before ih =>
      cases before with
      | nil => simp [calls]
      | cons d before =>
          show m.told c d ++ m.calls (d :: before ++ [a, b]) = _
          rw [ih, ← List.append_assoc]
          rfl

theorem memory_chooseRay (m : LineSearch α σ) (s : State α) :
    (m.chooseRay s.memory s.gradient).2 =
      if s.gradient.dot (m.proposed s) < 0 then s.memory else s.memory.reset := by
  rw [chooseRay_eq]
  split <;> rfl

theorem returns_step_memory : Returns (m.step s) w fun r _ => ∀ s', r = .next s' →
    s'.memory = (m.told s s').foldl Lbfgs.Call.apply s.memory := by
  refine returns_steps.mono fun r w' hsteps => ?_
  cases hsteps with
  | lost _ _ => nofun
  | missed _ _ _ => nofun
  | moved _ _ _ =>
      rintro s' hs'
      cases hs'
      show ((m.chooseRay s.memory s.gradient).2).update _ = _
      rw [memory_chooseRay, told, List.foldl_append]
      split <;> rfl

variable [ScalarText α]

/-- From one reported state to the next. -/
theorem memory_of_leads (h : m.loop.Leads a b) :
    b.memory = (m.told a b).foldl Lbfgs.Call.apply a.memory := by
  obtain ⟨s', w, w1, d, w2, htaken, hshown⟩ := h
  have hmemory := returns_step_memory _ _ htaken s' rfl
  have hreviewed : m.Reviewed s' b := (returns_report _ _ hshown).1
  obtain ⟨iterationTime, cumulativeTime, hrecord⟩ := hreviewed.record
  have htold : m.told a b = m.told a s' := by
    rw [told, told, hreviewed.gradient, hrecord]
  rw [hreviewed.memory, hmemory, htold]

/-! ## All iterations -/

variable {states : List (State α)} {result : Reason α × State α} {rank : Nat}

/-- At every reported state the memory is the one after the calls of all moves
up to there. -/
theorem memory_of_passes (h : m.loop.Passes s w states result w') (hs : s.memory = .new rank)
    {before : List (State α)} (hbefore : before ++ [a] <+: states) :
    a.memory = .after rank (m.calls (before ++ [a])) := by
  induction before using List.reverseRecOn generalizing a with
  | nil =>
      obtain ⟨s', rest, d, w1, rfl, hshown⟩ := h.exists_cons
      obtain rfl : a = s' := by simpa using hbefore
      exact ((returns_report _ _ hshown).1.memory).trans hs
  | append_singleton before b ih =>
      obtain ⟨rest, hstates⟩ := hbefore
      have hsplit : before ++ b :: a :: rest = states := by simpa using hstates
      have hleads := List.isChain_iff_forall_rel_of_append_cons_cons.mp h.isChain hsplit.symm
      have hb : b.memory = .after rank (m.calls (before ++ [b])) := by
        refine ih ⟨a :: rest, ?_⟩
        simpa using hsplit
      rw [memory_of_leads hleads, hb, List.append_assoc, List.singleton_append, calls_concat,
        Lbfgs.after, Lbfgs.after, List.foldl_append]

/-! ## Runs -/

/-- What the memory holds at a reported state, given the reports before. -/
structure Remembers (m : LineSearch α σ) (before : List (State α)) (s : State α) : Prop where
  equal : s.memory.s.length = s.memory.y.length
  length : s.memory.s.length = s.memory.pairs.length
  capped : 0 < m.options.maxLbfgsRank → s.memory.s.length ≤ m.options.maxLbfgsRank ∧
    s.memory.pairs = (Lbfgs.curved (m.calls (before ++ [s]))).rtake m.options.maxLbfgsRank
  uncapped : m.options.maxLbfgsRank = 0 →
    s.memory.pairs = Lbfgs.curved (m.calls (before ++ [s]))

omit [ScalarText α] in
theorem remembers_of_memory {before : List (State α)}
    (h : s.memory = .after m.options.maxLbfgsRank (m.calls (before ++ [s]))) :
    m.Remembers before s := by
  have hholds := Lbfgs.holds_after m.options.maxLbfgsRank (m.calls (before ++ [s]))
  rw [← h] at hholds
  have hlength : s.memory.s.length = s.memory.pairs.length := by
    rw [hholds.length_s, hholds.pairs_eq]
  have hequal : s.memory.s.length = s.memory.y.length :=
    hholds.length_s.trans hholds.length_y.symm
  refine ⟨hequal, hlength, fun hrank => ⟨?_, ?_⟩, fun hrank => ?_⟩
  · rw [hholds.length_s]
    exact Lbfgs.length_kept_le hrank
  · rw [hholds.pairs_eq, Lbfgs.kept, if_neg hrank.ne']
  · rw [hholds.pairs_eq, Lbfgs.kept, if_pos hrank]

variable {counts : EvaluationCounts} {x : Vec α} {summary : MinimizerSummary α}

theorem Visits.memory (h : m.Visits counts x w states summary w') {before : List (State α)}
    (hbefore : before ++ [s] <+: states) :
    s.memory = .after m.options.maxLbfgsRank (m.calls (before ++ [s])) := by
  cases h with
  | none _ => simp at hbefore
  | some _ passes _ => exact memory_of_passes passes rfl hbefore

/-- What the memory holds in a run with options that have passed the check. Both
queues are equally long at every report. With a positive rank they hold as many
pairs as it says, at most: the newest ones among those of positive curvature since
the memory was emptied last. Options for quasi-Newton directions have such a rank.
With rank zero the memory holds all of these pairs. -/
theorem memory_run {o : SolveOptions α} {e : Evaluator α σ} {callbacks : Pipeline α σ}
    (hvalid : o.validate = .ok ()) (hkind : o.minimizerKind = .lineSearch)
    (h : minimize ⟨o.minimizer, e, callbacks⟩ counts x w = .ok summary w') :
    (o.direction = .lbfgs → 0 < o.maxLbfgsRank) ∧
    (∃ states, Visits ⟨o.minimizer, e, callbacks⟩ counts x w states summary w') ∧
    ∀ states, Visits ⟨o.minimizer, e, callbacks⟩ counts x w states summary w' →
      summary.history.records = states.map State.record ∧
      ∀ before s, before ++ [s] <+: states →
        Remembers ⟨o.minimizer, e, callbacks⟩ before s := by
  refine ⟨fun hdirection => ?_, returns_visits _ _ h, fun states hvisits => ⟨?_, ?_⟩⟩
  · have hflaw := SolveOptions.minimizerFlaw?_of_validate hvalid
    rw [SolveOptions.minimizerFlaw?, hkind] at hflaw
    have hrank : ¬(o.direction = .lbfgs ∧ o.maxLbfgsRank = 0) :=
      (SolveOptions.ite_some_eq_none_iff.mp hflaw).1
    exact Nat.pos_of_ne_zero fun hzero => hrank ⟨hdirection, hzero⟩
  · rw [hvisits.minimized.1.records, List.map_map]
    rfl
  · exact fun before s hbefore => remembers_of_memory (hvisits.memory hbefore)

/-! ## Directions of a run -/

section Real

variable {m : LineSearch ℝ σ} {s : State ℝ} {w w' : World ℝ σ} [ScalarText ℝ]
  {states : List (State ℝ)} {counts : EvaluationCounts} {x : Vec ℝ}
  {summary : MinimizerSummary ℝ}

omit [ScalarText ℝ] in
theorem uniform_calls {n : Nat} (h : ∀ s ∈ states, s.gradient.size = n) :
    Lbfgs.Uniform n (m.calls states) := by
  induction states with
  | nil => nofun
  | cons a states ih =>
      cases states with
      | nil => nofun
      | cons b states =>
          have ha := h a List.mem_cons_self
          have hb := h b (List.mem_cons_of_mem a List.mem_cons_self)
          intro c hc
          rcases List.mem_append.mp hc with hc | hc
          · obtain rfl := update_mem_told.mp hc
            exact ⟨(Vec.size_scale _ _).trans ((m.size_direction a).trans ha),
              (Vec.size_sub _ _).trans hb⟩
          · exact ih (fun s hs => h s (List.mem_cons_of_mem a hs)) c hc

/-- With quasi-Newton directions over the real numbers no search of a run takes
another direction, and none empties the memory. -/
theorem proposed_run (he : m.evaluator.Robust) (hdirection : m.options.direction = .lbfgs)
    (htolerance : 0 ≤ m.options.gradientTolerance) (h : m.minimize counts x w = .ok summary w') :
    ∃ states, m.Visits counts x w states summary w' ∧
      summary.history.records = states.map State.record ∧
      ∀ s ∈ states, m.loop.Proceeds s → s.gradient.dot (m.proposed s) < 0 ∧
        m.chooseRay s.memory s.gradient =
          (⟨m.proposed s, s.gradient.dot (m.proposed s)⟩, s.memory) := by
  obtain ⟨states, hvisits⟩ := returns_visits _ _ h
  obtain ⟨hlinked, -⟩ := hvisits.moves
  have hsize : ∀ s ∈ states, s.gradient.size = m.evaluator.numEffectiveParameters := fun s hs => by
    obtain ⟨_, _, _, _, hevaluated⟩ := (hlinked s hs).evaluated
    exact (succeeds_evaluateGradient he).returns _ _ hevaluated _ _ rfl
  refine ⟨states, hvisits, ?_, fun s hs hgo => ?_⟩
  · rw [hvisits.minimized.1.records, List.map_map]
    rfl
  · obtain ⟨before, rest, hsplit⟩ := List.append_of_mem hs
    have hbefore : before ++ [s] <+: states := ⟨rest, by simp [hsplit]⟩
    have huniform : Lbfgs.Uniform m.evaluator.numEffectiveParameters (m.calls (before ++ [s])) :=
      uniform_calls fun a ha => hsize a (hbefore.subset ha)
    have hne : s.gradient ≠ Vec.zeros m.evaluator.numEffectiveParameters := fun hzero => by
      have hpos := Vec.normSq_pos ((hlinked s hs).maxNorm_pos hgo htolerance)
      rw [hzero, Vec.normSq_eq_sum] at hpos
      simp at hpos
    have hdown : s.gradient.dot (m.proposed s) < 0 := by
      rw [proposed, hdirection, hvisits.memory hbefore]
      exact Lbfgs.downhill_after huniform _ (hsize s hs) hne
    refine ⟨hdown, ?_⟩
    rw [chooseRay_eq]
    exact if_pos ((real_lt _ _).mpr (real_zero.symm ▸ hdown))

end Real

/-! ## Runs to the limit of iterations -/

/-- The summary of a run and the state that it ends with, if the initial point has
a usable evaluation. -/
def ended? (m : LineSearch α σ) (counts : EvaluationCounts) (x : Vec α) :
    Run α σ (Option (MinimizerSummary α × State α)) := do
  let start ← Run.now
  match ← m.evaluateGradient counts x with
  | (none, _) => pure none
  | (some (cost, gradient), counts) =>
      let (reason, s) ← m.iterate m.options.maxIterations (m.initial x cost gradient counts start)
      pure (some (⟨reason, s.history, s.x, cost⟩, s))

/-- A run comes to the limit of iterations in a state that passes a test. -/
def endsAtLimit (test : State α → Bool) : Option (MinimizerSummary α × State α) → Bool
  | some (⟨.iterationLimit _, _, _, _⟩, s) => test s
  | _ => false

/-- A run that comes to the limit of iterations ends with a state that was
reported. -/
theorem returns_ended? (test : State α → Bool) :
    Returns (m.ended? counts x) w fun r w' => endsAtLimit test r = true →
      ∃ summary states s, m.minimize counts x w = .ok summary w' ∧
        m.Visits counts x w states summary w' ∧ s ∈ states ∧ test s = true := by
  rw [ended?, returns_bind, Run.returns_now, returns_bind]
  rintro ⟨_ | ⟨cost, gradient⟩, counts'⟩ w1 hfound
  · exact returns_pure.mpr nofun
  · dsimp only
    rw [returns_bind]
    rintro ⟨reason, s⟩ w2 hiterate
    have hrun : m.minimize counts x w = .ok ⟨reason, s.history, s.x, cost⟩ w2 := by
      rw [minimize, eStateM_bind_apply]
      show (m.evaluateGradient counts x >>= _) (Run.tick w) = _
      rw [eStateM_bind_apply, hfound]
      show (m.iterate _ (m.initial x cost gradient counts' (w.clock w.ticks)) >>= _) w1 = _
      rw [eStateM_bind_apply, hiterate]
      rfl
    rw [iterate_eq] at hiterate
    obtain ⟨states, last, hpasses, hlen, -, hlast, hends⟩ :=
      Loop.returns_iterate_runs _ _ _ hiterate
    refine returns_pure.mpr fun htest => ?_
    unfold endsAtLimit at htest
    split at htest
    · rename_i hsome
      cases hsome
      have hs : s = last := by
        cases hends with
        | decided _ => rfl
        | limit => rfl
        | stopped _ => rfl
        | broken _ taken => cases returns_steps _ _ taken
      exact ⟨_, states, s, hrun, .some hfound hpasses hlen, hs ▸ List.mem_of_getLast? hlast, htest⟩
    · cases htest

/-- A run of three reports with room for a single pair. -/
theorem memory_run_anchored :
    let o : SolveOptions Float :=
      { minimizerKind := .lineSearch
        maxLbfgsRank := 1
        maxIterations := 2 }
    ∃ (e : Evaluator Float Unit) (summary : MinimizerSummary Float) (w' : World Float Unit)
      (states : List (State Float)),
      o.validate = .ok () ∧
      Evaluator.create (Gallery.anchored Float) (.ofProblem (Gallery.anchored Float)) .denseQR 0
        none = .ok e ∧
      minimize ⟨o.minimizer, e, {}⟩ {} (.ofList [1, 2.0]) (Gallery.anchoredWorld Float) =
        .ok summary w' ∧
      summary.history.records = states.map State.record ∧
      (∃ s ∈ states, s.memory.s.length = 1) ∧
      ∀ before s, before ++ [s] <+: states → s.memory.s.length ≤ 1 := by
  intro o
  have hflaw : o.flaw?.isNone = true := by decide +kernel
  have hvalid : o.validate = .ok () := by
    rw [SolveOptions.validate, Option.isNone_iff_eq_none.mp hflaw]
  obtain ⟨e, hcreate, r, w', hended, htest⟩ : ∃ e : Evaluator Float Unit,
      Evaluator.create (Gallery.anchored Float) (.ofProblem (Gallery.anchored Float)) .denseQR 0
        none = .ok e ∧
      ∃ r w', ended? ⟨o.minimizer, e, {}⟩ {} (.ofList [1, 2.0]) (Gallery.anchoredWorld Float) =
        .ok r w' ∧ endsAtLimit (fun s => s.memory.s.length == 1) r = true := by
    refine ⟨_, rfl, exists_of_test (fun r _ => endsAtLimit _ r) ?_⟩
    decide +kernel
  obtain ⟨summary, states, s, hrun, hvisits, hs, hlength⟩ := returns_ended? _ _ _ hended htest
  obtain ⟨-, -, hall⟩ := memory_run hvalid rfl hrun
  obtain ⟨hrecords, hremembers⟩ := hall states hvisits
  exact ⟨e, summary, w', states, hvalid, hcreate, hrun, hrecords, ⟨s, hs, beq_iff_eq.mp hlength⟩,
    fun before s hbefore => ((hremembers before s hbefore).capped Nat.one_pos).1⟩

/-- Options for steepest descent pass the check with rank zero, and the memory
holds a pair after the first move. -/
theorem not_memory_run_bounded :
    let o : SolveOptions Float :=
      { minimizerKind := .lineSearch
        direction := .steepestDescent
        maxLbfgsRank := 0
        maxIterations := 1 }
    ∃ (e : Evaluator Float Unit) (summary : MinimizerSummary Float) (w' : World Float Unit)
      (states : List (State Float)),
      o.validate = .ok () ∧
      Evaluator.create (Gallery.anchored Float) (.ofProblem (Gallery.anchored Float)) .denseQR 0
        none = .ok e ∧
      minimize ⟨o.minimizer, e, {}⟩ {} (.ofList [1, 2.0]) (Gallery.anchoredWorld Float) =
        .ok summary w' ∧
      Visits ⟨o.minimizer, e, {}⟩ {} (.ofList [1, 2.0]) (Gallery.anchoredWorld Float) states
        summary w' ∧
      ∃ s ∈ states, o.maxLbfgsRank < s.memory.s.length := by
  intro o
  have hflaw : o.flaw?.isNone = true := by decide +kernel
  have hvalid : o.validate = .ok () := by
    rw [SolveOptions.validate, Option.isNone_iff_eq_none.mp hflaw]
  obtain ⟨e, hcreate, r, w', hended, htest⟩ : ∃ e : Evaluator Float Unit,
      Evaluator.create (Gallery.anchored Float) (.ofProblem (Gallery.anchored Float)) .denseQR 0
        none = .ok e ∧
      ∃ r w', ended? ⟨o.minimizer, e, {}⟩ {} (.ofList [1, 2.0]) (Gallery.anchoredWorld Float) =
        .ok r w' ∧ endsAtLimit (fun s => decide (0 < s.memory.s.length)) r = true := by
    refine ⟨_, rfl, exists_of_test (fun r _ => endsAtLimit _ r) ?_⟩
    decide +kernel
  obtain ⟨summary, states, s, hrun, hvisits, hs, hlength⟩ := returns_ended? _ _ _ hended htest
  exact ⟨e, summary, w', states, hvalid, hcreate, hrun, hvisits, s, hs, of_decide_eq_true hlength⟩

end LineSearch

end LeastSquares
