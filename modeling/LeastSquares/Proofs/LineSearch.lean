import LeastSquares.Minimizer.LineSearch
import LeastSquares.Proofs.Loop

/-!
# Runs of the line search minimizer

A search along a ray makes trials, each for a shorter length than the last
one and each by one evaluation, until the cost is low enough or no further
trial is to be made. An iteration ends the run or moves to where its search
has ended. So every report is about a state at which cost and gradient were
evaluated, each state was reached from the one before by a search, and the
run recommends the state of the last report.

## Main definitions

* `LineSearch.Trials` — the trials of a search.
* `LineSearch.Searches`, `LineSearch.Steps` — what the search of an iteration
  and the iteration come to.
* `LineSearch.LowEnough` — what a search asks of the state that it ends at.
* `LineSearch.Leads` — one reported state leads to the next.
* `LineSearch.Visits` — the states of a run.

## Main results

* `LineSearch.returns_trial`, `LineSearch.returns_backtrack` — one trial, and
  the search along a ray.
* `LineSearch.Trials.ends`, `LineSearch.Trials.length_le`,
  `LineSearch.Trials.shortened` — where a search ends, and its lengths.
* `LineSearch.returns_steps`, `LineSearch.returns_step` — one iteration.
* `LineSearch.regular_loop` — what all iterations keep.
* `LineSearch.moves_of_passes` — the states of all iterations.
* `LineSearch.returns_visits_proceeds`, `LineSearch.returns_visits`,
  `LineSearch.Visits.minimized` — a run.
-/

namespace LeastSquares.LineSearch

variable {α σ : Type} [Scalar α] {m : LineSearch α σ} {s s' : State α} {w : World α σ}
  {x y : Vec α}

/-! ## Searching along a ray -/

/-- Whether the cost after a move of some length is low enough. -/
def low (m : LineSearch α σ) (cost slope length : α) (trialCost : Option α) : Bool :=
  Scalar.within trialCost (cost + m.options.sufficientDecrease * length * slope)

/-- One trial: the state to which a length leads, the cost there if it has one,
and the counts after its evaluation. -/
structure Tried (m : LineSearch α σ) (x : Vec α) (ray : Ray α) (length : α)
    (counts : EvaluationCounts) (w : World α σ) (y : Vec α) (trialCost : Option α)
    (counts' : EvaluationCounts) (w' : World α σ) : Prop where
  reached : m.evaluator.plus x (ray.direction.scale length) = .ok y
  measured : ∃ evaluation, m.evaluator.measured counts y false w = .ok (evaluation, counts') w' ∧
    evaluation.map Evaluation.cost = trialCost

/-- The trials of a search from a length on, with `left` more allowed after the
first, and where they end: at a length for which the cost is low enough, or
nowhere, if no trial is left or the next length would be too short. -/
inductive Trials (m : LineSearch α σ) (x : Vec α) (cost : α) (ray : Ray α) :
    Nat → α → EvaluationCounts → World α σ →
      List α → Option (α × Vec α) → EvaluationCounts → World α σ → Prop
  | taken {left : Nat} {length : α} {counts counts' : EvaluationCounts} {w w' : World α σ}
      {y : Vec α} {trialCost : Option α}
      (tried : m.Tried x ray length counts w y trialCost counts' w')
      (low : m.low cost ray.slope length trialCost = true) :
      Trials m x cost ray left length counts w [length] (some (length, y)) counts' w'
  | exhausted {length : α} {counts counts' : EvaluationCounts} {w w' : World α σ} {y : Vec α}
      {trialCost : Option α} (tried : m.Tried x ray length counts w y trialCost counts' w')
      (high : ¬ m.low cost ray.slope length trialCost = true) :
      Trials m x cost ray 0 length counts w [length] none counts' w'
  | tooShort {left : Nat} {length : α} {counts counts' : EvaluationCounts} {w w' : World α σ}
      {y : Vec α} {trialCost : Option α}
      (tried : m.Tried x ray length counts w y trialCost counts' w')
      (high : ¬ m.low cost ray.slope length trialCost = true)
      (short : shorten cost ray.slope length trialCost < m.options.minLineSearchStep) :
      Trials m x cost ray (left + 1) length counts w [length] none counts' w'
  | next {left : Nat} {length : α} {counts counts' counts'' : EvaluationCounts}
      {w w1 w' : World α σ} {y : Vec α} {trialCost : Option α} {lengths : List α}
      {move : Option (α × Vec α)} (tried : m.Tried x ray length counts w y trialCost counts' w1)
      (high : ¬ m.low cost ray.slope length trialCost = true)
      (long : ¬ shorten cost ray.slope length trialCost < m.options.minLineSearchStep)
      (rest : Trials m x cost ray left (shorten cost ray.slope length trialCost) counts' w1
        lengths move counts'' w') :
      Trials m x cost ray (left + 1) length counts w (length :: lengths) move counts'' w'

section Trials

variable {cost length : α} {ray : Ray α} {left done : Nat} {counts counts' : EvaluationCounts}
  {lengths : List α} {move : Option (α × Vec α)} {trialCost : Option α}

/-- What a search comes to: it makes trials and counts them. -/
def Backtracks (m : LineSearch α σ) (x : Vec α) (cost : α) (ray : Ray α) (left done : Nat)
    (length : α) (counts : EvaluationCounts) (w : World α σ) (r : Found α × EvaluationCounts)
    (w' : World α σ) : Prop :=
  ∃ lengths, m.Trials x cost ray left length counts w lengths r.1.move r.2 w' ∧
    r.1.evaluations = done + lengths.length

/-- A trial ends the search, or leaves it to the trials after it. -/
theorem returns_trial (hrest : ∀ n, left = n + 1 → ∀ done length counts w,
      Returns (m.backtrack x cost ray n done length counts) w
        (m.Backtracks x cost ray n done length counts w)) :
    Returns (m.backtrack x cost ray left done length counts) w
      (m.Backtracks x cost ray left done length counts w) := by
  unfold backtrack
  rw [returns_bind, Run.returns_ofFault]
  intro y hy
  rw [returns_bind]
  rintro ⟨evaluation, counts'⟩ w1 hmeasured
  have htried : m.Tried x ray length counts w y _ counts' w1 := ⟨hy, _, hmeasured, rfl⟩
  dsimp only
  split
  · rename_i hlow
    exact returns_pure.mpr ⟨_, .taken htried hlow, rfl⟩
  · rename_i hhigh
    cases left with
    | zero => exact returns_pure.mpr ⟨_, .exhausted htried hhigh, rfl⟩
    | succ n =>
        dsimp only
        split
        · rename_i hshort
          exact returns_pure.mpr ⟨_, .tooShort htried hhigh hshort, rfl⟩
        · rename_i hlong
          refine (hrest n rfl _ _ _ w1).mono ?_
          rintro r w2 ⟨lengths, htrials, hcount⟩
          refine ⟨_, .next htried hhigh hlong htrials, ?_⟩
          rw [hcount, List.length_cons]
          omega

theorem returns_backtrack : Returns (m.backtrack x cost ray left done length counts) w
    (m.Backtracks x cost ray left done length counts w) := by
  induction left generalizing w done length counts with
  | zero => exact returns_trial nofun
  | succ left ih =>
      refine returns_trial fun n hn done length counts w => ?_
      obtain rfl : left = n := by omega
      exact ih

theorem Tried.measures (h : m.Tried x ray length counts w y trialCost counts' w') :
    m.evaluator.Explores w w' ∧ counts'.jacobian = counts.jacobian ∧
      ∀ c, trialCost = some c → m.evaluator.Finds y c := by
  obtain ⟨evaluation, hmeasured, rfl⟩ := h.measured
  have hmeasures := m.evaluator.returns_measured _ _ hmeasured
  exact ⟨hmeasures.explores, hmeasures.counted, Evaluator.finds_of_map hmeasures.found⟩

/-- A search evaluates states, and asks for no Jacobians. -/
theorem Trials.explores (h : m.Trials x cost ray left length counts w lengths move counts' w') :
    m.evaluator.Explores w w' ∧ counts'.jacobian = counts.jacobian := by
  induction h with
  | taken tried _ => exact ⟨tried.measures.1, tried.measures.2.1⟩
  | exhausted tried _ => exact ⟨tried.measures.1, tried.measures.2.1⟩
  | tooShort tried _ _ => exact ⟨tried.measures.1, tried.measures.2.1⟩
  | next tried _ _ _ ih =>
      exact ⟨tried.measures.1.trans ih.1, ih.2.trans tried.measures.2.1⟩

/-- The cost at a state is low enough for a move of this length, as far as a
cost was found there. -/
def LowEnough (m : LineSearch α σ) (cost slope length : α) (y : Vec α) : Prop :=
  ∃ trialCost : Option α, (∀ c, trialCost = some c → m.evaluator.Finds y c) ∧
    m.low cost slope length trialCost = true

/-- A search that ends somewhere does so at a length that it has tried, where
the cost is low enough. -/
theorem Trials.ends (h : m.Trials x cost ray left length counts w lengths move counts' w')
    {t : α} (hmove : move = some (t, y)) : t ∈ lengths ∧ m.LowEnough cost ray.slope t y ∧
      m.evaluator.plus x (ray.direction.scale t) = .ok y := by
  induction h with
  | taken tried low =>
      cases hmove
      exact ⟨List.mem_singleton_self _, ⟨_, tried.measures.2.2, low⟩, tried.reached⟩
  | exhausted _ _ => cases hmove
  | tooShort _ _ _ => cases hmove
  | next _ _ _ _ ih => exact ⟨List.mem_cons_of_mem _ (ih hmove).1, (ih hmove).2⟩

theorem Trials.head? (h : m.Trials x cost ray left length counts w lengths move counts' w') :
    lengths.head? = some length := by
  cases h <;> rfl

/-- No more trials are made than are allowed. -/
theorem Trials.length_le
    (h : m.Trials x cost ray left length counts w lengths move counts' w') :
    lengths.length ≤ left + 1 := by
  induction h with
  | taken _ _ => exact Nat.succ_le_succ (Nat.zero_le _)
  | exhausted _ _ => exact le_refl 1
  | tooShort _ _ _ => exact Nat.succ_le_succ (Nat.zero_le _)
  | next _ _ _ _ ih => exact Nat.succ_le_succ ih

/-- What holds of the first length, and is kept by shortening, holds of every
length that is tried; and what shortening does, it does from each to the next. -/
theorem Trials.shortened {P : α → Prop} {R : α → α → Prop}
    (h : m.Trials x cost ray left length counts w lengths move counts' w') (hfirst : P length)
    (hshorten : ∀ t trialCost, P t → P (shorten cost ray.slope t trialCost) ∧
      R t (shorten cost ray.slope t trialCost)) : (∀ t ∈ lengths, P t) ∧ lengths.IsChain R := by
  induction h with
  | taken _ _ => exact ⟨List.forall_mem_singleton.mpr hfirst, .singleton _⟩
  | exhausted _ _ => exact ⟨List.forall_mem_singleton.mpr hfirst, .singleton _⟩
  | tooShort _ _ _ => exact ⟨List.forall_mem_singleton.mpr hfirst, .singleton _⟩
  | @next _ _ _ _ _ _ _ _ _ trialCost lengths _ _ _ _ rest ih =>
      obtain ⟨hnext, hrel⟩ := hshorten _ trialCost hfirst
      obtain ⟨hall, hchain⟩ := ih hnext
      refine ⟨List.forall_mem_cons.mpr ⟨hfirst, hall⟩, ?_⟩
      obtain ⟨t, rest', rfl⟩ : ∃ t rest', lengths = t :: rest' := by
        cases rest <;> exact ⟨_, _, rfl⟩
      cases rest.head?
      exact List.isChain_cons_cons.mpr ⟨hrel, hchain⟩

end Trials

/-! ## One iteration -/

/-- The direction that the options ask for. -/
def proposed (m : LineSearch α σ) (s : State α) : Vec α :=
  match m.options.direction with
  | .steepestDescent => -s.gradient
  | .lbfgs => s.memory.direction s.gradient

/-- The ray along which an iteration searches. -/
def ray (m : LineSearch α σ) (s : State α) : Ray α := (m.chooseRay s.memory s.gradient).1

/-- The direction that is asked for is taken if it leads down, and replaced by
the one against the gradient if not, with the memory emptied. -/
theorem chooseRay_eq (m : LineSearch α σ) (s : State α) : m.chooseRay s.memory s.gradient =
    if s.gradient.dot (m.proposed s) < 0 then
      (⟨m.proposed s, s.gradient.dot (m.proposed s)⟩, s.memory)
    else (steepest s.gradient, s.memory.reset) := rfl

theorem ray_eq (m : LineSearch α σ) (s : State α) : m.ray s =
    if s.gradient.dot (m.proposed s) < 0 then ⟨m.proposed s, s.gradient.dot (m.proposed s)⟩
    else steepest s.gradient := by
  rw [ray, chooseRay_eq]
  split <;> rfl

/-- The length that an iteration tries first. -/
def firstLength (m : LineSearch α σ) (s : State α) : α :=
  m.initialStep s.lastChange s.gradient (m.ray s).slope

/-- The search of an iteration. -/
def search (m : LineSearch α σ) (s : State α) : Run α σ (Found α × EvaluationCounts) :=
  m.backtrack s.x s.cost (m.ray s) (m.options.maxLineSearchEvaluations - 1) 0 (m.firstLength s)
    s.history.counts

/-- What the search of an iteration comes to, with the lengths that it tries. -/
structure Searches (m : LineSearch α σ) (s : State α) (w : World α σ) (lengths : List α)
    (r : Found α × EvaluationCounts) (w' : World α σ) : Prop where
  trials : m.Trials s.x s.cost (m.ray s) (m.options.maxLineSearchEvaluations - 1)
    (m.firstLength s) s.history.counts w lengths r.1.move r.2 w'
  evaluations : r.1.evaluations = lengths.length

theorem returns_search :
    Returns (m.search s) w fun r w' => ∃ lengths, m.Searches s w lengths r w' :=
  returns_backtrack.mono fun _ _ ⟨lengths, htrials, hcount⟩ =>
    ⟨lengths, htrials, hcount.trans (Nat.zero_add _)⟩

/-- The state of an iteration after its search. -/
def searched (m : LineSearch α σ) (s : State α) (counts : EvaluationCounts) : State α :=
  { s with
    memory := (m.chooseRay s.memory s.gradient).2
    history := { s.history with counts } }

/-- What an iteration does: it searches, and moves to where the search ends if
cost and gradient can be evaluated there. -/
inductive Steps (m : LineSearch α σ) (s : State α) (w : World α σ) :
    StepResult α → World α σ → Prop
  | lost {r : Found α × EvaluationCounts} {w' : World α σ}
      (search : m.search s (Run.tick w) = .ok r w') (nowhere : r.1.move = none) :
      Steps m s w (.stop (.lineSearch r.1.evaluations, m.searched s r.2)) w'
  | missed {r : Found α × EvaluationCounts} {length : α} {y : Vec α}
      {counts : EvaluationCounts} {w1 w' : World α σ}
      (search : m.search s (Run.tick w) = .ok r w1) (move : r.1.move = some (length, y))
      (missed : m.evaluateGradient r.2 y w1 = .ok (none, counts) w') :
      Steps m s w (.stop (.noAcceptedEvaluation, m.searched s counts)) w'
  | moved {r : Found α × EvaluationCounts} {length cost : α} {y gradient : Vec α}
      {counts : EvaluationCounts} {w1 w' : World α σ}
      (search : m.search s (Run.tick w) = .ok r w1) (move : r.1.move = some (length, y))
      (found : m.evaluateGradient r.2 y w1 = .ok (some (cost, gradient), counts) w') :
      Steps m s w (.next (advance (m.searched s counts) (m.ray s) length y cost gradient
        r.1.evaluations (w.clock w.ticks))) w'

theorem returns_steps : Returns (m.step s) w (m.Steps s w) := by
  rw [step, returns_bind, Run.returns_now]
  dsimp only
  rw [returns_bind]
  rintro ⟨⟨_ | ⟨length, y⟩, evaluations⟩, counts⟩ w1 hsearch
  · exact returns_pure.mpr (.lost hsearch rfl)
  · dsimp only
    rw [returns_bind]
    rintro ⟨_ | ⟨cost, gradient⟩, counts'⟩ w2 hresult
    · exact returns_pure.mpr (.missed hsearch rfl hresult)
    · exact returns_pure.mpr (.moved hsearch rfl hresult)

/-- Cost and gradient of the state were evaluated there, and are on the
record. -/
structure Linked (m : LineSearch α σ) (s : State α) : Prop where
  evaluated : ∃ counts w counts' w',
    m.evaluateGradient counts s.x w = .ok (some (s.cost, s.gradient), counts') w'
  record : s.record.cost = s.cost
  maxNorm : s.record.gradientMaxNorm = s.gradient.maxNorm

/-- The next state is where a search along a ray has led. -/
structure Moves (m : LineSearch α σ) (s s' : State α) : Prop where
  linked : m.Linked s'
  iteration : s'.record.iteration = s.record.iteration + 1
  successful : s'.record.successful = true
  level : History.Level 1 s.history s'.history
  search : ∃ w r w', m.search s w = .ok r w' ∧
    r.1.move = some (s'.record.stepSize, s'.x) ∧ s'.record.lineSearchEvaluations = r.1.evaluations

/-- What an iteration can come to: the run ends with the state that it has, or
moves on. -/
def Turn (m : LineSearch α σ) (s : State α) : StepResult α → Prop
  | .stop (_, s') => s'.x = s.x ∧ History.Level 0 s.history s'.history
  | .next s' => m.Moves s s'

/-- What an evaluation of cost and gradient comes to. -/
structure EvaluatesGradient (m : LineSearch α σ) (counts : EvaluationCounts) (x : Vec α)
    (w : World α σ) (r : Option (α × Vec α) × EvaluationCounts) (w' : World α σ) : Prop where
  explores : m.evaluator.Explores w w'
  found : ∀ c g, r.1 = some (c, g) → m.evaluator.Finds x c
  counted : r.2.jacobian = counts.jacobian + if r.1.isSome then 1 else 0

theorem returns_evaluateGradient {counts : EvaluationCounts} :
    Returns (m.evaluateGradient counts x) w (m.EvaluatesGradient counts x w) := by
  rw [evaluateGradient, returns_bind]
  refine m.evaluator.returns_measured.mono ?_
  rintro ⟨_ | ev, counts'⟩ w1 hmeasures
  · exact returns_pure.mpr ⟨hmeasures.explores, nofun, hmeasures.counted⟩
  · obtain ⟨gradient, jacobian, hev⟩ := hmeasures.full rfl ev rfl
    rw [hev]
    refine returns_pure.mpr ⟨hmeasures.explores, fun c g hcg => ?_, hmeasures.counted⟩
    cases hcg
    exact hmeasures.found ev rfl

theorem Linked.found (h : m.Linked s) : m.evaluator.Finds s.x s.cost := by
  obtain ⟨_, _, _, _, hevaluated⟩ := h.evaluated
  exact (returns_evaluateGradient _ _ hevaluated).found _ _ rfl

/-- The state to which an iteration moves. -/
theorem Moves.ends {s s' : State α} (h : m.Moves s s') : ∃ w lengths r w',
    m.Searches s w lengths r w' ∧ s'.record.stepSize ∈ lengths ∧
      m.LowEnough s.cost (m.ray s).slope s'.record.stepSize s'.x ∧
      m.evaluator.plus s.x ((m.ray s).direction.scale s'.record.stepSize) = .ok s'.x := by
  obtain ⟨w, r, w', hsearch, hmove, -⟩ := h.search
  obtain ⟨lengths, hsearches⟩ := returns_search _ _ hsearch
  exact ⟨w, lengths, r, w', hsearches, hsearches.trials.ends hmove⟩

/-- One iteration ends the run or moves. -/
theorem returns_step :
    Returns (m.step s) w fun r w' => m.evaluator.Explores w w' ∧ m.Turn s r := by
  refine returns_steps.mono fun r w' hsteps => ?_
  have hexplores : ∀ {r w1}, m.search s (Run.tick w) = .ok r w1 →
      m.evaluator.Explores w w1 ∧ r.2.jacobian = s.history.counts.jacobian := fun hsearch => by
    obtain ⟨_, hsearches⟩ := returns_search _ _ hsearch
    exact ⟨(Evaluator.Explores.tick w).trans hsearches.trials.explores.1,
      hsearches.trials.explores.2⟩
  cases hsteps with
  | lost search _ =>
      obtain ⟨hw1, hcounted⟩ := hexplores search
      exact ⟨hw1, rfl, rfl, rfl, rfl, hcounted⟩
  | missed search _ missed =>
      obtain ⟨hw1, hcounted⟩ := hexplores search
      have hmissed := returns_evaluateGradient _ _ missed
      exact ⟨hw1.trans hmissed.explores, rfl, rfl, rfl, rfl, hmissed.counted.trans hcounted⟩
  | moved search move found =>
      obtain ⟨hw1, hcounted⟩ := hexplores search
      have hfound := returns_evaluateGradient _ _ found
      exact ⟨hw1.trans hfound.explores, ⟨⟨_, _, _, _, found⟩, rfl, rfl⟩, rfl, rfl,
        ⟨rfl, rfl, rfl, hfound.counted.trans (congrArg (· + 1) hcounted)⟩,
        _, _, _, search, move, rfl⟩

/-! ## All iterations -/

/-- The minimizer as a loop. -/
def loop [ScalarText α] (m : LineSearch α σ) : Loop α σ (State α) where
  report := m.report
  stop? := m.stop?
  step := m.step
  start := State.start
  x := State.x
  record := State.record
  history := State.history

theorem iterate_eq [ScalarText α] (m : LineSearch α σ) (left : Nat) (s : State α) :
    m.iterate left s = m.loop.iterate left s := by
  induction left generalizing s with
  | zero => rfl
  | succ left ih =>
      rw [iterate, Loop.iterate, show m.iterate left = m.loop.iterate left from funext ih]
      refine bind_congr fun r => ?_
      obtain ⟨d, s'⟩ := r
      dsimp only
      cases d.reason? with
      | some reason => rfl
      | none =>
          refine bind_congr fun elapsed => ?_
          have hstop : m.loop.stop? s' elapsed = m.stop? s' elapsed := rfl
          rw [hstop]
          cases m.stop? s' elapsed with
          | some reason => rfl
          | none =>
              refine bind_congr fun r => ?_
              cases r <;> rfl

/-- One reported state leads to the next by a search along a ray. -/
def Leads (m : LineSearch α σ) (a b : IterationRecord α × Vec α) : Prop :=
  ∃ s s' : State α, m.Linked s ∧ m.Moves s s' ∧ s.cost = a.1.cost ∧ s'.cost = b.1.cost

/-- The state after its report. -/
structure Reviewed [ScalarText α] (m : LineSearch α σ) (s s' : State α) : Prop where
  shown : m.loop.Shown s s'
  cost : s'.cost = s.cost
  gradient : s'.gradient = s.gradient
  memory : s'.memory = s.memory
  record : ∃ iterationTime cumulativeTime,
    s'.record = { s.record with iterationTime, cumulativeTime }

variable [ScalarText α]

theorem returns_report : Returns (m.report s) w fun r w' => m.Reviewed s r.2 ∧
    ∃ w1, m.evaluator.Explores w w1 ∧ m.callbacks.run r.2.record r.2.x w1 = .ok r.1 w' := by
  unfold report
  simp only [returns_bind, Run.returns_since]
  intro d w' hd
  exact returns_pure.mpr ⟨⟨⟨rfl, rfl, rfl, rfl, rfl⟩, rfl, rfl, rfl, _, _, rfl⟩, _,
    (Evaluator.Explores.tick w).look, hd⟩

theorem Reviewed.linked (h : m.Reviewed s s') (hs : m.Linked s) : m.Linked s' := by
  have hx : s'.x = s.x := h.shown.x
  obtain ⟨iterationTime, cumulativeTime, hrecord⟩ := h.record
  refine ⟨?_, ?_, ?_⟩
  · rw [hx, h.cost, h.gradient]
    exact hs.evaluated
  · rw [h.cost, hrecord]
    exact hs.record
  · rw [h.gradient, hrecord]
    exact hs.maxNorm

theorem Moves.follows (h : m.Moves s s') : m.loop.Follows s s' where
  iteration := h.iteration
  steady hno := absurd (h.successful.symm.trans hno) nofun
  level := by
    show History.Level (if s'.record.successful then 1 else 0) s.history s'.history
    rw [h.successful]
    exact h.level

theorem regular_loop (m : LineSearch α σ) :
    m.loop.Regular m.evaluator m.callbacks m.Linked where
  found s hs := hs.record ▸ hs.found
  report s w := returns_report.mono fun r w' hr => ⟨hr.1.shown, hr.1.linked, hr.2⟩
  step s w hs := returns_step.mono fun r w' hr => by
    refine ⟨hr.1, ?_, ?_⟩
    · rintro reason s' rfl
      exact hr.2.2
    · rintro s' rfl
      have hmoves : m.Moves s s' := hr.2
      exact ⟨hmoves.linked, hmoves.follows⟩

variable {states : List (State α)} {result : Reason α × State α} {w' : World α σ}

/-- The run ends with the state of the last report. -/
theorem last_of_passes (h : m.loop.Passes s w states result w') :
    ∃ last, states.getLast? = some last ∧ result.2.x = last.x := by
  induction h with
  | halt _ _ => exact ⟨_, rfl, rfl⟩
  | stop _ taken => exact ⟨_, rfl, (returns_step _ _ taken).2.1⟩
  | next _ _ rest ih =>
      obtain ⟨last, hlast, hx⟩ := ih
      obtain ⟨s', more, -, -, rfl, -⟩ := rest.exists_cons
      exact ⟨last, by rw [List.getLast?_cons_cons, hlast], hx⟩

/-- At every reported state cost and gradient were evaluated, and a search has
led from each to the next. -/
theorem moves_of_passes (h : m.loop.Passes s w states result w') (hs : m.Linked s) :
    (∀ s' ∈ states, m.Linked s') ∧
      states.IsChain fun a b => ∃ s', m.Moves a s' ∧ m.Reviewed s' b := by
  refine ⟨h.invariant (fun s w hs => returns_report.mono fun r w' hr => hr.1.linked hs)
    (fun s w hs => returns_step.mono fun r w' hr => ?_) hs, h.isChain.imp fun a b hleads => ?_⟩
  · rintro s' rfl
    exact hr.2.linked
  · obtain ⟨s', w1, w2, d, w3, htaken, hshown⟩ := hleads
    exact ⟨s', (returns_step _ _ htaken).2, (returns_report _ _ hshown).1⟩

/-- Every reported state leads to the next. -/
theorem chain_of_passes (h : m.loop.Passes s w states result w') (hs : m.Linked s) :
    (states.map m.loop.entry).IsChain m.Leads := by
  obtain ⟨hlinked, hmoves⟩ := moves_of_passes h hs
  refine (List.isChain_map _).mpr (hmoves.imp_of_mem_imp fun a b ha _ hab => ?_)
  obtain ⟨s', hmoves, hreviewed⟩ := hab
  have hcost : b.record.cost = s'.record.cost := hreviewed.shown.cost
  exact ⟨a, s', hlinked a ha, hmoves, (hlinked a ha).record.symm,
    hmoves.linked.record.symm.trans hcost.symm⟩

/-! ## Runs -/

/-- The state at the initial point. -/
def initial (m : LineSearch α σ) (x : Vec α) (cost : α) (gradient : Vec α)
    (counts : EvaluationCounts) (start : Nat) : State α where
  x := x
  cost := cost
  gradient := gradient
  memory := .new m.options.maxLbfgsRank
  lastChange := none
  record :=
    { valid := true
      successful := true
      cost
      gradientMaxNorm := gradient.maxNorm
      gradientNorm := gradient.norm }
  history := { counts }
  start := start
  iterationStart := start

/-- The states of a run after their reports. There are none if the initial
point has no usable evaluation. -/
inductive Visits (m : LineSearch α σ) (counts : EvaluationCounts) (x : Vec α) (w : World α σ) :
    List (State α) → MinimizerSummary α → World α σ → Prop
  | none {counts' : EvaluationCounts} {w' : World α σ}
      (missed : m.evaluateGradient counts x (Run.tick w) = .ok (none, counts') w') :
      Visits m counts x w [] ⟨.noInitialEvaluation, { counts := counts' }, x, 0⟩ w'
  | some {cost : α} {gradient : Vec α} {counts' : EvaluationCounts} {states : List (State α)}
      {reason : Reason α} {s : State α} {w1 w' : World α σ}
      (found : m.evaluateGradient counts x (Run.tick w) = .ok (some (cost, gradient), counts') w1)
      (passes : m.loop.Passes (m.initial x cost gradient counts' (w.clock w.ticks)) w1 states
        (reason, s) w') (length : states.length ≤ m.options.maxIterations + 1) :
      Visits m counts x w states ⟨reason, s.history, s.x, cost⟩ w'

omit [ScalarText α] in
theorem linked_initial {cost : α} {gradient : Vec α} {counts counts' : EvaluationCounts}
    (h : m.evaluateGradient counts x w = .ok (some (cost, gradient), counts') w') (start : Nat) :
    m.Linked (m.initial x cost gradient counts' start) :=
  ⟨⟨_, _, _, _, h⟩, rfl, rfl⟩

/-- A run goes on after each of its states but the last one, and ends there. -/
theorem returns_visits_proceeds {counts : EvaluationCounts} :
    Returns (m.minimize counts x) w fun result w' => ∃ states,
      m.Visits counts x w states result w' ∧ (states.IsChain fun a _ => m.loop.Proceeds a) ∧
      (result.reason = .noInitialEvaluation ∨
        ∃ last s, states.getLast? = some last ∧ m.loop.Ends last (result.reason, s)) := by
  rw [minimize, returns_bind, Run.returns_now, returns_bind]
  rintro ⟨_ | ⟨cost, gradient⟩, counts'⟩ w1 hfound
  · exact returns_pure.mpr ⟨[], .none hfound, .nil, .inl rfl⟩
  · dsimp only
    rw [iterate_eq, returns_bind]
    refine (Loop.returns_iterate_runs _).mono ?_
    rintro ⟨reason, s⟩ w2 ⟨states, last, hpasses, hlen, hchain, hlast, hends⟩
    exact returns_pure.mpr
      ⟨states, .some hfound hpasses hlen, hchain, .inr ⟨last, s, hlast, hends⟩⟩

theorem returns_visits {counts : EvaluationCounts} :
    Returns (m.minimize counts x) w fun result w' =>
      ∃ states, m.Visits counts x w states result w' :=
  returns_visits_proceeds.mono fun _ _ ⟨states, hvisits, _⟩ => ⟨states, hvisits⟩

/-- What a run comes to that finds a cost at the initial point: the first
report is about this point, each reported state leads to the next, and the
last one is recommended. -/
structure Ran (m : LineSearch α σ) (x : Vec α) (result : MinimizerSummary α) (trace : Trace α) :
    Prop where
  initial : m.evaluator.Finds x result.initialCost
  first : ∃ record rest, trace = (record, x) :: rest ∧ record.cost = result.initialCost
  chain : trace.IsChain m.Leads
  best : ∃ record, trace.getLast? = some (record, result.best)

theorem Visits.minimized {counts : EvaluationCounts} {states : List (State α)}
    {result : MinimizerSummary α} (h : m.Visits counts x w states result w') :
    Minimized m.evaluator m.callbacks result (states.map m.loop.entry) w w' ∧
      (result.termination.writesBack = true → m.Ran x result (states.map m.loop.entry)) := by
  cases h with
  | none missed =>
      have hexplores := (Evaluator.Explores.tick w).trans
        (returns_evaluateGradient _ _ missed).explores
      exact ⟨⟨.done hexplores, rfl, nofun, nofun⟩, nofun⟩
  | @some cost gradient counts' states reason s w1 w' found passes length =>
      have hgradient := returns_evaluateGradient _ _ found
      have hx := hgradient.found cost gradient rfl
      have hlinked := linked_initial found (w.clock w.ticks)
      have htold := m.regular_loop.told (x, cost) passes hlinked nofun
      obtain ⟨last, hlast, hbest⟩ := last_of_passes passes
      have hbest : s.x = last.x := hbest
      have hexplores := (Evaluator.Explores.tick w).trans hgradient.explores
      have hfoundBest : m.evaluator.Finds last.x last.record.cost :=
        htold.found last (List.mem_of_getLast? hlast)
      refine ⟨htold.minimized hexplores rfl (hbest ▸ hfoundBest), fun _ => ⟨hx,
        m.regular_loop.exists_first passes, chain_of_passes passes hlinked, last.record, ?_⟩⟩
      rw [List.getLast?_map, hlast, hbest]
      rfl

end LeastSquares.LineSearch
