import LeastSquares.Proofs.StepAcceptance

/-!
# Rows of rising costs

The costs that a step is judged by remember the last minimum, the number of steps
since, and the highest cost since. At one step, when the number reaches the limit,
the highest cost becomes the reference. From then on every accepted step leads below
it, so that it stays the highest one until there is a new minimum. So the steps that
rise above all costs since the last minimum are among the first ones after it, as
many as the limit says.

Below the highest cost nothing is bounded. The number is not set back by a step that
lowers the cost, and once it has passed the limit it meets it no more. Then the cost
may rise in any number of steps in a row.

## Main definitions

* `StepAcceptance.Course` — steps that are accepted one after the other.
* `StepAcceptance.Recalls` — what the costs remember of a course.
* `StepAcceptance.Roomy` — there is room below the reference for good.
* `TrustRegion.Traced` — the accepted steps of a run are a course.

## Main results

* `StepAcceptance.accept_cases` — what an accepted step does.
* `StepAcceptance.Recalls.lowers`, `StepAcceptance.Recalls.waits` — one step.
* `StepAcceptance.recalls_of_course` — a whole course.
* `StepAcceptance.climbs_bounded` — rows of rising costs that start from the highest.
* `StepAcceptance.exists_climb`, `StepAcceptance.not_climbs_bounded` — rows of rising
  costs that start below it.
* `TrustRegion.climbs_run` — a run.
-/

namespace LeastSquares

namespace StepAcceptance

variable {a b : StepAcceptance ℝ} {cost change least first : ℝ}

/-! ## One step -/

/-- A step to a new minimum. -/
structure Lowers (a b : StepAcceptance ℝ) (cost : ℝ) : Prop where
  minimum : b.minimum = cost
  candidate : b.candidate = cost
  nonmonotonic : b.nonmonotonic = 0
  reference : b.reference = a.reference
  limit : b.limit = a.limit

/-- A step to no new minimum. -/
structure Waits (a b : StepAcceptance ℝ) (cost : ℝ) : Prop where
  minimum : b.minimum = a.minimum
  candidate : b.candidate = max a.candidate cost
  nonmonotonic : b.nonmonotonic = a.nonmonotonic + 1
  reference : b.reference =
    if a.nonmonotonic + 1 = a.limit then max a.candidate cost else a.reference
  limit : b.limit = a.limit

@[simp] theorem limit_accept : (a.accept cost change).limit = a.limit := by
  unfold accept take
  dsimp only
  split <;> split <;> first | rfl | (split <;> rfl)

theorem accept_cases (cost change : ℝ) (hlimit : 0 < a.limit) :
    cost < a.minimum ∧ a.Lowers (a.accept cost change) cost ∨
      a.minimum ≤ cost ∧ a.Waits (a.accept cost change) cost := by
  unfold accept take
  simp only [real_lt, real_add]
  split
  · rename_i hlower
    rw [if_neg (show ¬0 = a.limit by omega)]
    exact .inl ⟨hlower, rfl, rfl, rfl, rfl, rfl⟩
  · rename_i hlower
    refine .inr ⟨not_lt.mp hlower, ?_⟩
    split
    · rename_i hhigher
      have hmax := max_eq_right hhigher.le
      dsimp only
      split <;> exact ⟨rfl, hmax.symm, rfl, by simp [*], rfl⟩
    · rename_i hhigher
      have hmax := max_eq_left (not_lt.mp hhigher)
      dsimp only
      split <;> exact ⟨rfl, hmax.symm, rfl, by simp [*], rfl⟩

/-- The predicted decrease since the reference was taken is at most that before, and
that of the step. -/
theorem changes_accept (cost : ℝ) (h : a.candidateChange ≤ a.referenceChange)
    (hnonneg : 0 ≤ a.referenceChange) (hchange : 0 ≤ change) :
    (a.accept cost change).candidateChange ≤ (a.accept cost change).referenceChange ∧
      (a.accept cost change).referenceChange ≤ a.referenceChange + change := by
  have hcandidate : a.candidateChange + change ≤ a.referenceChange + change :=
    add_le_add_left h change
  have hsum : 0 ≤ a.referenceChange + change := add_nonneg hnonneg hchange
  unfold accept take
  simp only [real_lt, real_add, real_zero]
  split
  · dsimp only
    split
    · exact ⟨le_refl _, hsum⟩
    · exact ⟨hsum, le_refl _⟩
  · split
    · dsimp only
      split
      · exact ⟨le_refl _, hsum⟩
      · exact ⟨hsum, le_refl _⟩
    · dsimp only
      split
      · exact ⟨le_refl _, hcandidate⟩
      · exact ⟨hcandidate, le_refl _⟩

/-! ## Courses -/

/-- An accepted step: the cost that it leads to, and the decrease that was
predicted. -/
structure Taken where
  cost : ℝ
  change : ℝ

/-- Steps that are accepted one after the other, each of which promises a
decrease. -/
inductive Course (least : ℝ) (a : StepAcceptance ℝ) : List Taken → StepAcceptance ℝ → Prop
  | nil : Course least a [] a
  | concat {steps : List Taken} {b : StepAcceptance ℝ} {s : Taken} (before : Course least a steps b)
      (promising : 0 < s.change) (good : least < b.quality (some s.cost) s.change) :
      Course least a (steps ++ [s]) (b.accept s.cost s.change)

variable {steps climb : List Taken} {c : StepAcceptance ℝ}

theorem Course.limit (h : Course least a steps b) : b.limit = a.limit := by
  induction h with
  | nil => rfl
  | concat _ _ _ ih => rw [limit_accept, ih]

theorem Course.ordered (h : Course least a steps b) (ha : a.Ordered) (hleast : 0 ≤ least) :
    b.Ordered := by
  induction h with
  | nil => exact ha
  | concat _ promising good ih =>
      exact (ih.accept (lt_reference ih promising (hleast.trans_lt good)) promising.le).1

/-- The cost is that of the last step. -/
theorem Course.current (h : Course least a steps b) :
    (a.current :: steps.map Taken.cost).getLast? = some b.current := by
  cases h with
  | nil => rfl
  | concat _ _ _ =>
      rw [List.map_append, ← List.cons_append, List.map_singleton, List.getLast?_concat,
        current_accept]

/-! ## What is remembered -/

/-- What the costs remember of all costs of a course: the lowest one, which the ones
since do not go below, how many these are, and the highest since. -/
structure Recalls (a : StepAcceptance ℝ) (costs since : List ℝ) : Prop where
  split : ∃ before, costs = before ++ a.minimum :: since ∧ ∀ c ∈ before, a.minimum < c
  above : ∀ c ∈ since, a.minimum ≤ c
  nonmonotonic : a.nonmonotonic = since.length
  candidate : IsGreatest {c | c ∈ a.minimum :: since} a.candidate
  reference : a.limit ≤ since.length → a.reference = a.candidate
  spent : ∀ c ∈ since.drop a.limit, ∃ d ∈ a.minimum :: since.take a.limit, c < d

theorem recalls_new (first : ℝ) {limit : Nat} (hlimit : 0 < limit) :
    (new first limit).Recalls [first] [] where
  split := ⟨[], rfl, nofun⟩
  above := nofun
  nonmonotonic := rfl
  candidate := ⟨List.mem_singleton_self _, fun c hc => (List.mem_singleton.mp hc).le⟩
  reference hle := absurd hle hlimit.not_ge
  spent := by
    rw [List.drop_nil]
    nofun

theorem isGreatest_concat {l : List ℝ} {m : ℝ} (h : IsGreatest {c | c ∈ l} m) (cost : ℝ) :
    IsGreatest {c | c ∈ l ++ [cost]} (max m cost) := by
  have hinsert : {c | c ∈ l ++ [cost]} = insert cost {c | c ∈ l} := by
    ext c
    simp [or_comm]
  rw [hinsert, max_comm]
  exact h.insert cost

/-- An accepted cost after as many steps as the limit is not the highest since the
minimum. -/
theorem Recalls.exists_lt {costs since : List ℝ} (h : a.Recalls costs since)
    (hle : a.limit ≤ since.length) (hcost : cost < a.reference) :
    ∃ d ∈ a.minimum :: since.take a.limit, cost < d := by
  rw [h.reference hle] at hcost
  have hmem : a.candidate ∈ a.minimum :: (since.take a.limit ++ since.drop a.limit) := by
    rw [List.take_append_drop]
    exact h.candidate.1
  rw [← List.cons_append, List.mem_append] at hmem
  rcases hmem with hmem | hmem
  · exact ⟨_, hmem, hcost⟩
  · obtain ⟨d, hd, hlt⟩ := h.spent _ hmem
    exact ⟨d, hd, hcost.trans hlt⟩

/-- A step to a new minimum leaves nothing since. -/
theorem Recalls.lowers {costs since : List ℝ} (h : a.Recalls costs since) (hlimit : 0 < a.limit)
    (hlower : cost < a.minimum) (hb : a.Lowers b cost) : b.Recalls (costs ++ [cost]) [] where
  split := by
    obtain ⟨before, hsplit, hbefore⟩ := h.split
    refine ⟨costs, by rw [hb.minimum], fun c hc => ?_⟩
    rw [hb.minimum]
    rw [hsplit, List.mem_append, List.mem_cons] at hc
    rcases hc with hc | rfl | hc
    · exact hlower.trans (hbefore c hc)
    · exact hlower
    · exact hlower.trans_le (h.above c hc)
  above := nofun
  nonmonotonic := hb.nonmonotonic
  candidate := by
    rw [hb.candidate, hb.minimum]
    exact ⟨List.mem_singleton_self _, fun c hc => (List.mem_singleton.mp hc).le⟩
  reference hle := by
    rw [hb.limit] at hle
    exact absurd hle hlimit.not_ge
  spent := by
    rw [List.drop_nil]
    nofun

/-- A step to no new minimum is the last one since. -/
theorem Recalls.waits {costs since : List ℝ} (h : a.Recalls costs since)
    (hcost : cost < a.reference) (hlower : a.minimum ≤ cost) (hb : a.Waits b cost) :
    b.Recalls (costs ++ [cost]) (since ++ [cost]) where
  split := by
    obtain ⟨before, hsplit, hbefore⟩ := h.split
    refine ⟨before, ?_, by rwa [hb.minimum]⟩
    rw [hb.minimum, hsplit, List.append_assoc, List.cons_append]
  above := by
    rw [hb.minimum]
    exact List.forall_mem_append.mpr ⟨h.above, List.forall_mem_singleton.mpr hlower⟩
  nonmonotonic := by
    rw [hb.nonmonotonic, h.nonmonotonic, List.length_append]
    rfl
  candidate := by
    rw [hb.minimum, hb.candidate]
    exact isGreatest_concat h.candidate cost
  reference hle := by
    rw [hb.limit, List.length_append, List.length_singleton] at hle
    rw [hb.reference, hb.candidate, h.nonmonotonic]
    split
    · rfl
    · have hpast := h.reference (by omega)
      rw [hpast, max_eq_left (hpast ▸ hcost).le]
  spent := by
    rw [hb.minimum, hb.limit]
    intro c hc
    by_cases hle : a.limit ≤ since.length
    · rw [List.take_append_of_le_length hle]
      rw [List.drop_append_of_le_length hle, List.mem_append, List.mem_singleton] at hc
      rcases hc with hc | rfl
      · exact h.spent c hc
      · exact h.exists_lt hle hcost
    · rw [List.drop_eq_nil_of_le (by rw [List.length_append, List.length_singleton]; omega)] at hc
      cases hc

/-- One step. -/
theorem Recalls.accept {costs since : List ℝ} (h : a.Recalls costs since) (hlimit : 0 < a.limit)
    (hcost : cost < a.reference) :
    ∃ since', (a.accept cost change).Recalls (costs ++ [cost]) since' := by
  obtain ⟨hlower, hlowers⟩ | ⟨hlower, hwaits⟩ := accept_cases cost change hlimit
  · exact ⟨[], h.lowers hlimit hlower hlowers⟩
  · exact ⟨since ++ [cost], h.waits hcost hlower hwaits⟩

/-- A whole course. -/
theorem recalls_of_course {limit : Nat} (hlimit : 0 < limit) (hleast : 0 ≤ least)
    (h : Course least (new first limit) steps b) :
    ∃ since, b.Recalls (first :: steps.map Taken.cost) since := by
  induction h with
  | nil => exact ⟨[], recalls_new first hlimit⟩
  | @concat steps b s before promising good ih =>
      obtain ⟨since, hrecalls⟩ := ih
      have hordered := before.ordered (ordered_new first limit) hleast
      have hcost := lt_reference hordered promising (hleast.trans_lt good)
      rw [List.map_append, ← List.cons_append]
      exact hrecalls.accept (before.limit ▸ hlimit) hcost

/-! ## Rows of rising costs -/

/-- Costs that rise from one to the next. -/
def Rising (costs : List ℝ) : Prop := costs.IsChain (· < ·)

theorem Course.rising_concat {s : Taken} (h : Course least a steps b) :
    Rising (a.current :: (steps ++ [s]).map Taken.cost) ↔
      Rising (a.current :: steps.map Taken.cost) ∧ b.current < s.cost := by
  rw [List.map_append, ← List.cons_append, Rising, List.isChain_append, h.current]
  simp [Rising]

/-- The cost is the highest since the last minimum, which is the reference if there
were as many steps since as the limit says. -/
structure Top (a : StepAcceptance ℝ) : Prop where
  current : a.current = a.candidate
  reference : a.limit ≤ a.nonmonotonic → a.reference = a.candidate

/-- A step that rises from the highest cost leads to the highest cost, and is one of
those that the limit allows. -/
theorem Top.accept (h : a.Top) (ho : a.Ordered) (hlimit : 0 < a.limit) (hcost : cost < a.reference)
    (hrises : a.current < cost) : (a.accept cost change).Top ∧
      (a.accept cost change).nonmonotonic = a.nonmonotonic + 1 ∧ a.nonmonotonic < a.limit := by
  have hbelow : a.nonmonotonic < a.limit := by
    by_contra hpast
    rw [h.reference (not_lt.mp hpast), ← h.current] at hcost
    exact hrises.asymm hcost
  obtain ⟨hlower, -⟩ | ⟨-, hwaits⟩ := accept_cases cost change hlimit
  · exact absurd hlower (ho.minimum.trans hrises.le).not_gt
  · have hmax : max a.candidate cost = cost := max_eq_right (h.current ▸ hrises.le)
    refine ⟨⟨?_, fun hle => ?_⟩, hwaits.nonmonotonic, hbelow⟩
    · rw [current_accept, hwaits.candidate, hmax]
    · rw [limit_accept, hwaits.nonmonotonic] at hle
      rw [hwaits.reference, hwaits.candidate, if_pos (by omega)]

theorem Course.top (h : Course least a climb b) (ha : a.Top) (ho : a.Ordered)
    (hlimit : 0 < a.limit) (hleast : 0 ≤ least)
    (hrising : Rising (a.current :: climb.map Taken.cost)) :
    b.Top ∧ b.nonmonotonic = a.nonmonotonic + climb.length ∧
      (climb ≠ [] → b.nonmonotonic ≤ a.limit) := by
  induction h with
  | nil => exact ⟨ha, rfl, fun hne => absurd rfl hne⟩
  | @concat steps b s before promising good ih =>
      obtain ⟨hbefore, hrises⟩ := before.rising_concat.mp hrising
      obtain ⟨htop, hcount, -⟩ := ih hbefore
      have hordered := before.ordered ho hleast
      have hcost := lt_reference hordered promising (hleast.trans_lt good)
      obtain ⟨htop', hcount', hbelow⟩ :=
        htop.accept hordered (before.limit ▸ hlimit) hcost hrises
      rw [before.limit] at hbelow
      refine ⟨htop', ?_, fun _ => hcount' ▸ hbelow⟩
      rw [hcount', hcount, List.length_append, Nat.add_assoc]
      rfl

/-- What bounds the rows of rising costs in a course with a positive limit. The costs
recall the last minimum and all costs since: every cost that comes later than as many
steps as the limit says lies below one of those before it. A row of rising costs that
starts from the highest cost since the last minimum, as from the minimum itself, ends
when there were as many steps since then, at the latest. -/
theorem climbs_bounded {limit : Nat} (hlimit : 0 < limit) (hleast : 0 ≤ least)
    (h : Course least (new first limit) steps b) :
    (∃ since, b.Recalls (first :: steps.map Taken.cost) since) ∧
    (limit ≤ b.nonmonotonic → ∀ cost change, 0 < change →
      least < b.quality (some cost) change → cost < b.candidate) ∧
    ∀ climb c, Course least b climb c → b.current = b.candidate →
      Rising (b.current :: climb.map Taken.cost) → climb ≠ [] →
        b.nonmonotonic + climb.length ≤ limit := by
  obtain ⟨since, hrecalls⟩ := recalls_of_course hlimit hleast h
  have hordered := h.ordered (ordered_new first limit) hleast
  have hb : b.limit = limit := h.limit
  have hreference : b.limit ≤ b.nonmonotonic → b.reference = b.candidate :=
    hrecalls.nonmonotonic ▸ hrecalls.reference
  refine ⟨⟨since, hrecalls⟩, fun hpast cost change hchange hgood => ?_,
    fun climb c hclimb htop hrising hne => ?_⟩
  · rw [← hreference (hb ▸ hpast)]
    exact lt_reference hordered hchange (hleast.trans_lt hgood)
  · obtain ⟨-, hcount, hle⟩ :=
      hclimb.top ⟨htop, hreference⟩ hordered (hb ▸ hlimit) hleast hrising
    rw [← hcount, ← hb]
    exact hle hne

/-- A row of one step after a minimum, which has no second one. -/
theorem climbs_bounded_single :
    Course 1e-3 (new 10 1) [⟨5, 1⟩] ((new 10 1).accept 5 1) ∧
    ∀ climb c, Course 1e-3 ((new 10 1).accept 5 1) climb c →
      Rising (5 :: climb.map Taken.cost) → climb.length ≤ 1 := by
  have hafter : (new (10 : ℝ) 1).accept 5 1 = ⟨10, 5, 5, 5, 1, 0, 0, 1⟩ := by
    simp only [new, accept, take, real_lt, real_add, real_zero]
    norm_num
  have hcourse : Course 1e-3 (new 10 1) [⟨5, 1⟩] ((new 10 1).accept 5 1) := by
    refine Course.concat (s := ⟨5, 1⟩) .nil one_pos ?_
    rw [quality_some]
    norm_num [new]
  obtain ⟨-, -, hclimbs⟩ := climbs_bounded Nat.one_pos (by norm_num) hcourse
  rw [hafter] at hcourse hclimbs ⊢
  refine ⟨hcourse, fun climb c hclimb hrising => ?_⟩
  by_cases hne : climb = []
  · rw [hne]
    exact Nat.zero_le 1
  · have hle := hclimbs climb c hclimb rfl hrising hne
    rwa [Nat.zero_add] at hle

/-! ## Rows below the highest cost -/

/-- A step is good enough if it leads far enough below the reference. -/
theorem good_of_lt (hsum : 0 < a.referenceChange + change)
    (h : least * (a.referenceChange + change) < a.reference - cost) :
    least < a.quality (some cost) change := by
  rw [quality_some]
  exact lt_max_of_lt_right ((lt_div_iff₀ hsum).mpr h)

/-- The number of steps since the last minimum has passed the limit, and there is
room left below the reference. -/
structure Roomy (least : ℝ) (a : StepAcceptance ℝ) : Prop where
  ordered : a.Ordered
  limit : 0 < a.limit
  past : a.limit < a.nonmonotonic
  reference : a.reference = a.candidate
  changes : a.candidateChange ≤ a.referenceChange
  room : least * a.referenceChange < a.reference - a.current

/-- A step that rises and takes half of the room. -/
theorem Roomy.exists_step (h : Roomy least a) (hleast : 0 ≤ least) :
    ∃ s : Taken, 0 < s.change ∧ least < a.quality (some s.cost) s.change ∧ a.current < s.cost ∧
      Roomy least (a.accept s.cost s.change) := by
  obtain ⟨δ, hδ, hhalf⟩ : ∃ δ, 0 < δ ∧
      2 * ((least + 1) * δ) = a.reference - a.current - least * a.referenceChange := by
    refine ⟨(a.reference - a.current - least * a.referenceChange) / (2 * (least + 1)), ?_, ?_⟩
    · exact div_pos (by linarith [h.room]) (by linarith)
    · field_simp
  have hnonneg := h.ordered.referenceChange
  have hroom : least * (a.referenceChange + δ) < a.reference - (a.current + δ) := by
    linarith [h.room, mul_add least a.referenceChange δ, add_mul least 1 δ]
  have hcost : a.current + δ < a.reference := by
    linarith [mul_nonneg hleast (add_nonneg hnonneg hδ.le)]
  refine ⟨⟨a.current + δ, δ⟩, hδ, good_of_lt (by linarith) hroom, lt_add_of_pos_right _ hδ, ?_⟩
  obtain ⟨hlower, -⟩ | ⟨-, hwaits⟩ := accept_cases (a.current + δ) δ h.limit
  · linarith [h.ordered.minimum]
  · obtain ⟨hchanges, hle⟩ := changes_accept (a.current + δ) h.changes hnonneg hδ.le
    have hreference : (a.accept (a.current + δ) δ).reference = a.reference := by
      rw [hwaits.reference, if_neg (by have := h.past; omega)]
    refine ⟨(h.ordered.accept hcost hδ.le).1, ?_, ?_, ?_, hchanges, ?_⟩
    · rw [limit_accept]
      exact h.limit
    · rw [limit_accept, hwaits.nonmonotonic]
      exact h.past.trans (Nat.lt_succ_self _)
    · rw [hreference, hwaits.candidate, ← h.reference, max_eq_left hcost.le]
    · rw [hreference, current_accept]
      exact (mul_le_mul_of_nonneg_left hle hleast).trans_lt hroom

/-- The cost may rise in any number of steps in a row. -/
theorem Roomy.exists_climb (h : Roomy least a) (hleast : 0 ≤ least) (n : Nat) :
    ∃ climb b, Course least a climb b ∧ climb.length = n ∧
      Rising (a.current :: climb.map Taken.cost) ∧ Roomy least b := by
  induction n with
  | zero => exact ⟨[], a, .nil, rfl, .singleton _, h⟩
  | succ n ih =>
      obtain ⟨climb, b, hclimb, hlength, hrising, hroomy⟩ := ih
      obtain ⟨s, hpromising, hgood, hrises, hnext⟩ := hroomy.exists_step hleast
      refine ⟨climb ++ [s], _, .concat hclimb hpromising hgood, ?_,
        hclimb.rising_concat.mpr ⟨hrising, hrises⟩, hnext⟩
      rw [List.length_append, hlength]
      rfl

/-- The costs after a minimum of zero, reached from four, and a number of steps to
two. All of them together promise little. -/
structure Waiting (limit n : Nat) (little : ℝ) (a : StepAcceptance ℝ) : Prop where
  limited : a.limit = limit
  minimum : a.minimum = 0
  candidate : a.candidate ≤ 2
  nonmonotonic : a.nonmonotonic = n
  reference : a.reference = if n = limit then 2 else 4
  changes : a.candidateChange ≤ a.referenceChange
  little : a.referenceChange ≤ (n + 1) * little

section Waiting

variable {limit n : Nat} {little : ℝ}

/-- The reference leaves room for a step that promises as little again. -/
theorem Waiting.room (h : Waiting limit n little a) (hn : n ≤ limit) (hleast : 0 ≤ least)
    (hlittle : 0 < little) (hroom : least * ((limit + 2) * little) < 1) :
    least * (a.referenceChange + little) < 1 := by
  have hle : ((n : ℝ) + 2) * little ≤ (limit + 2) * little := by
    have hcast : (n : ℝ) ≤ limit := Nat.cast_le.mpr hn
    exact mul_le_mul_of_nonneg_right (by linarith) hlittle.le
  have hsum : a.referenceChange + little ≤ (limit + 2) * little := by linarith [h.little]
  exact (mul_le_mul_of_nonneg_left hsum hleast).trans_lt hroom

/-- A step to a cost of one less than the reference, or lower, is good enough. -/
theorem Waiting.good (h : Waiting limit n little a) (ho : a.Ordered) (hn : n ≤ limit)
    (hleast : 0 ≤ least) (hlittle : 0 < little) (hroom : least * ((limit + 2) * little) < 1)
    (hcost : cost + 1 ≤ a.reference) : least < a.quality (some cost) little := by
  have hlt := h.room hn hleast hlittle hroom
  exact good_of_lt (add_pos_of_nonneg_of_pos ho.referenceChange hlittle) (by linarith)

/-- A step to a cost above the minimum waits on. -/
theorem Waiting.waits (h : Waiting limit n little a) (hlimit : 0 < limit) (hcost : 0 ≤ cost) :
    a.Waits (a.accept cost change) cost := by
  obtain ⟨hlower, -⟩ | ⟨-, hwaits⟩ := accept_cases (a := a) cost change (h.limited ▸ hlimit)
  · exact absurd (h.minimum ▸ hlower) hcost.not_gt
  · exact hwaits

/-- A first step to the minimum of zero is good enough, and begins the wait. -/
theorem waiting_accept_new (hlimit : 0 < limit) (hleast : 0 ≤ least) (hlittle : 0 < little)
    (hroom : least * ((limit + 2) * little) < 1) :
    least < (new 4 limit).quality (some 0) little ∧
      Waiting limit 0 little ((new 4 limit).accept 0 little) := by
  have hzero : (new (4 : ℝ) limit).referenceChange = 0 := real_zero
  constructor
  · refine good_of_lt (by rwa [hzero, zero_add]) ?_
    have hle : little ≤ ((limit : ℝ) + 2) * little :=
      le_mul_of_one_le_left hlittle.le (by linarith [Nat.cast_nonneg (α := ℝ) limit])
    have hfour : (new (4 : ℝ) limit).reference = 4 := rfl
    rw [hzero, hfour, zero_add]
    linarith [mul_le_mul_of_nonneg_left hle hleast]
  · obtain ⟨-, hlowers⟩ | ⟨hlower, -⟩ := accept_cases (a := new 4 limit) 0 little hlimit
    · obtain ⟨hchanges, hle⟩ :=
        changes_accept (a := new 4 limit) 0 (le_refl _) hzero.ge hlittle.le
      refine ⟨limit_accept, hlowers.minimum, ?_, hlowers.nonmonotonic, ?_, hchanges, ?_⟩
      · rw [hlowers.candidate]
        exact zero_le_two
      · rw [hlowers.reference, if_neg hlimit.ne]
        rfl
      · rw [hzero] at hle
        push_cast
        linarith
    · have hfour : (new (4 : ℝ) limit).minimum = 4 := rfl
      rw [hfour] at hlower
      norm_num at hlower

/-- A step to two waits for one step more. -/
theorem Waiting.accept (h : Waiting limit n little a) (ho : a.Ordered) (hn : n < limit)
    (hlittle : 0 < little) : Waiting limit (n + 1) little (a.accept 2 little) := by
  have hwaits : a.Waits (a.accept 2 little) 2 := h.waits (n.zero_le.trans_lt hn) zero_le_two
  have hfour : a.reference = 4 := by rw [h.reference, if_neg hn.ne]
  have hmax : max a.candidate 2 = 2 := max_eq_right h.candidate
  obtain ⟨hchanges, hle⟩ := changes_accept 2 h.changes ho.referenceChange hlittle.le
  refine ⟨limit_accept.trans h.limited, hwaits.minimum.trans h.minimum, ?_, ?_, ?_, hchanges, ?_⟩
  · rw [hwaits.candidate, hmax]
  · rw [hwaits.nonmonotonic, h.nonmonotonic]
  · rw [hwaits.reference, hmax, hfour, h.nonmonotonic, h.limited]
  · push_cast
    linarith [h.little]

theorem exists_waiting (hlimit : 0 < limit) (hn : n ≤ limit) (hleast : 0 ≤ least)
    (hlittle : 0 < little) (hroom : least * ((limit + 2) * little) < 1) :
    ∃ steps b, Course least (new 4 limit) steps b ∧ Waiting limit n little b := by
  induction n with
  | zero =>
      obtain ⟨hgood, hwaiting⟩ := waiting_accept_new hlimit hleast hlittle hroom
      exact ⟨[⟨0, little⟩], _, .concat (s := ⟨0, little⟩) .nil hlittle hgood, hwaiting⟩
  | succ n ih =>
      obtain ⟨steps, b, hcourse, hb⟩ := ih (by omega)
      have hordered := hcourse.ordered (ordered_new 4 limit) hleast
      have hfour : b.reference = 4 := by rw [hb.reference, if_neg (by omega)]
      have hgood : least < b.quality (some 2) little :=
        hb.good hordered (by omega) hleast hlittle hroom (by rw [hfour]; norm_num)
      exact ⟨_, _, .concat (s := ⟨2, little⟩) hcourse hlittle hgood,
        hb.accept hordered (by omega) hlittle⟩

/-- After any limit there can be room for good. -/
theorem exists_roomy (hlimit : 0 < limit) (hleast : 0 ≤ least) :
    ∃ steps b, Course least (new 4 limit) steps b ∧ Roomy least b := by
  obtain ⟨little, hlittle, hroom⟩ : ∃ little, 0 < little ∧
      least * (((limit : ℝ) + 2) * little) < 1 := by
    refine ⟨1 / ((least + 1) * (limit + 2)), by positivity, ?_⟩
    have hcancel : ((limit : ℝ) + 2) * (1 / ((least + 1) * (limit + 2))) = 1 / (least + 1) := by
      field_simp
    rw [hcancel, mul_one_div, div_lt_one (by linarith)]
    exact lt_add_one least
  obtain ⟨steps, b, hcourse, hb⟩ := exists_waiting hlimit (le_refl limit) hleast hlittle hroom
  have hordered := hcourse.ordered (ordered_new 4 limit) hleast
  obtain ⟨since, hrecalls⟩ := recalls_of_course hlimit hleast hcourse
  have htwo : b.reference = 2 := by rw [hb.reference, if_pos rfl]
  have hcandidate : b.candidate = 2 := by
    rw [← hrecalls.reference, htwo]
    rw [← hrecalls.nonmonotonic, hb.nonmonotonic, hb.limited]
  have hgood : least < b.quality (some 1) little :=
    hb.good hordered (le_refl limit) hleast hlittle hroom (by rw [htwo]; norm_num)
  have hnext : Course least (new 4 limit) _ _ := .concat (s := ⟨1, little⟩) hcourse hlittle hgood
  have hwaits : b.Waits (b.accept 1 little) 1 := hb.waits hlimit zero_le_one
  obtain ⟨hchanges, hle⟩ := changes_accept 1 hb.changes hordered.referenceChange hlittle.le
  have hreference : (b.accept 1 little).reference = 2 := by
    rw [hwaits.reference, if_neg (by rw [hb.nonmonotonic, hb.limited]; omega), htwo]
  have hlt := hb.room (le_refl limit) hleast hlittle hroom
  refine ⟨_, _, hnext, hnext.ordered (ordered_new 4 limit) hleast, ?_, ?_, ?_, hchanges, ?_⟩
  · rwa [limit_accept, hb.limited]
  · rw [limit_accept, hwaits.nonmonotonic, hb.limited, hb.nonmonotonic]
    exact Nat.lt_succ_self _
  · rw [hreference, hwaits.candidate, hcandidate]
    norm_num
  · rw [hreference, current_accept]
    linarith [mul_le_mul_of_nonneg_left hle hleast]

end Waiting

/-- No limit bounds the number of steps in a row that raise the cost. -/
theorem exists_climb {limit : Nat} (hlimit : 0 < limit) (hleast : 0 ≤ least) (n : Nat) :
    ∃ first steps b climb c, Course least (new first limit) steps b ∧ Course least b climb c ∧
      climb.length = n ∧ Rising (b.current :: climb.map Taken.cost) := by
  obtain ⟨steps, b, hcourse, hroomy⟩ := exists_roomy hlimit hleast
  obtain ⟨climb, c, hclimb, hlength, hrising, -⟩ := hroomy.exists_climb hleast n
  exact ⟨4, steps, b, climb, c, hcourse, hclimb, hlength, hrising⟩

/-- With a limit of one, two steps in a row raise the cost. -/
theorem not_climbs_bounded : ∃ b c, Course 1e-3 (new 10 1) [⟨5, 1⟩, ⟨6, 1⟩, ⟨5.5, 1⟩] b ∧
    Course 1e-3 b [⟨5.6, 1⟩, ⟨5.7, 1⟩] c ∧ Rising [b.current, 5.6, 5.7] := by
  let a0 : StepAcceptance ℝ := new 10 1
  let a1 : StepAcceptance ℝ := ⟨10, 5, 5, 5, 1, 0, 0, 1⟩
  let a2 : StepAcceptance ℝ := ⟨6, 5, 6, 6, 0, 0, 1, 1⟩
  let a3 : StepAcceptance ℝ := ⟨6, 5, 5.5, 6, 1, 1, 2, 1⟩
  let a4 : StepAcceptance ℝ := ⟨6, 5, 5.6, 6, 2, 2, 3, 1⟩
  have h1 : a0.accept 5 1 = a1 := by
    simp only [a0, a1, new, accept, take, real_lt, real_add, real_zero]
    norm_num
  have h2 : a1.accept 6 1 = a2 := by
    simp only [a1, a2, accept, take, real_lt, real_add, real_zero]
    norm_num
  have h3 : a2.accept 5.5 1 = a3 := by
    simp only [a2, a3, accept, take, real_lt, real_add, real_zero]
    norm_num
  have h4 : a3.accept 5.6 1 = a4 := by
    simp only [a3, a4, accept, take, real_lt, real_add, real_zero]
    norm_num
  have hfirst : Course 1e-3 a0 [⟨5, 1⟩] a1 := by
    refine h1 ▸ .concat (s := ⟨5, 1⟩) .nil one_pos ?_
    rw [quality_some]
    norm_num [a0, new]
  have hrise : Course 1e-3 a0 [⟨5, 1⟩, ⟨6, 1⟩] a2 := by
    refine h2 ▸ .concat (s := ⟨6, 1⟩) hfirst one_pos ?_
    rw [quality_some]
    norm_num [a1]
  have hfall : Course 1e-3 a0 [⟨5, 1⟩, ⟨6, 1⟩, ⟨5.5, 1⟩] a3 := by
    refine h3 ▸ .concat (s := ⟨5.5, 1⟩) hrise one_pos ?_
    rw [quality_some]
    norm_num [a2]
  have hagain : Course 1e-3 a3 [⟨5.6, 1⟩] a4 := by
    refine h4 ▸ .concat (s := ⟨5.6, 1⟩) .nil one_pos ?_
    rw [quality_some]
    norm_num [a3]
  have hclimb : Course 1e-3 a3 [⟨5.6, 1⟩, ⟨5.7, 1⟩] (a4.accept 5.7 1) := by
    refine .concat (s := ⟨5.7, 1⟩) hagain one_pos ?_
    rw [quality_some]
    norm_num [a4]
  refine ⟨a3, _, hfall, hclimb, ?_⟩
  simp only [Rising, List.isChain_cons_cons, List.isChain_singleton, a3]
  norm_num

end StepAcceptance

/-! ## Runs -/

namespace TrustRegion

open StepAcceptance (Course Taken)

variable {σ : Type} {m : TrustRegion ℝ σ} {s s' : State ℝ} {bound : ℝ}

/-- The costs to which the accepted steps among some reports have led. -/
def acceptedCosts (states : List (State ℝ)) : List ℝ :=
  (states.filter fun s => s.record.successful).map fun s => s.record.cost

/-- The accepted steps among some reports are a course that leads to the costs of a
state. -/
def Traced (least : ℝ) (a : StepAcceptance ℝ) (reports : List (State ℝ)) (s : State ℝ) : Prop :=
  ∃ steps, Course least a steps s.acceptance ∧ steps.map Taken.cost = acceptedCosts reports

/-- What an iteration does to the costs. -/
theorem Turn.takes (h : m.Turn s (.next s')) (hs : m.Descending bound s) (he : m.evaluator.Pure)
    (u : σ) (ho : 0 ≤ m.options.minRelativeDecrease) :
    s'.record.successful = false ∧ s'.acceptance = s.acceptance ∨
      s'.record.successful = true ∧ ∃ change, 0 < change ∧
        m.options.minRelativeDecrease < s.acceptance.quality (some s'.record.cost) change ∧
        s'.acceptance = s.acceptance.accept s'.record.cost change := by
  have hlinked := h.linked hs.linked
  cases h with
  | keep standing =>
      exact .inl ⟨congrArg Standing.successful standing, congrArg Standing.acceptance standing⟩
  | @accept _ trial linear _ offered _ good found standing =>
      rw [real_lt] at good
      have htrial := exists_cost_of_good he u ho offered good found
      rw [htrial] at good
      have hlinear : s'.linear = linear := congrArg Standing.linear standing
      have hcost : s'.record.cost = linear.cost := hlinked.record.trans (congrArg _ hlinear)
      rw [hcost]
      exact .inr ⟨congrArg Standing.successful standing, _, offered.decrease_pos, good,
        congrArg Standing.acceptance standing⟩

section Runs

variable [ScalarText ℝ] {w w' : World ℝ σ} {states : List (State ℝ)}
  {result : Reason ℝ × State ℝ}

theorem Traced.next {a : StepAcceptance ℝ} {reports : List (State ℝ)} {s'' : State ℝ}
    (h : Traced m.options.minRelativeDecrease a reports s) (hturn : m.Turn s (.next s'))
    (hreviewed : m.Reviewed s' s'') (hs : m.Descending bound s) (he : m.evaluator.Pure) (u : σ)
    (ho : 0 ≤ m.options.minRelativeDecrease) :
    Traced m.options.minRelativeDecrease a (reports ++ [s'']) s'' := by
  obtain ⟨steps, hcourse, hcosts⟩ := h
  have hcost : s''.record.cost = s'.record.cost := hreviewed.shown.cost
  have hsuccessful : s''.record.successful = s'.record.successful := hreviewed.shown.successful
  obtain ⟨hno, hsame⟩ | ⟨hyes, change, hpos, hgood, haccept⟩ := hturn.takes hs he u ho
  · refine ⟨steps, ?_, ?_⟩
    · rwa [hreviewed.acceptance, hsame]
    · rw [hcosts]
      simp [acceptedCosts, hsuccessful, hno]
  · refine ⟨steps ++ [⟨s'.record.cost, change⟩], ?_, ?_⟩
    · rw [hreviewed.acceptance, haccept]
      exact .concat hcourse hpos hgood
    · rw [List.map_append, hcosts]
      simp [acceptedCosts, hsuccessful, hyes, hcost]

/-- The accepted steps of all iterations are a course. -/
theorem traced_of_passes (hinner : m.InnerExplores) (he : m.evaluator.Pure) (u : σ)
    (ho : 0 ≤ m.options.minRelativeDecrease) (h : m.loop.Passes s w states result w')
    (hs : m.Descending bound s) {first last : State ℝ} {rest : List (State ℝ)}
    (hfront : first :: rest <+: states) (hlast : (first :: rest).getLast? = some last) :
    Traced m.options.minRelativeDecrease s.acceptance rest last := by
  induction rest using List.reverseRecOn generalizing last with
  | nil =>
      cases hlast
      obtain ⟨s', more, d, w1, rfl, hshown⟩ := h.exists_cons
      obtain rfl : first = s' := by simpa using hfront
      refine ⟨[], ?_, rfl⟩
      have hsame : first.acceptance = s.acceptance := (returns_report _ _ hshown).1.acceptance
      exact hsame ▸ .nil
  | append_singleton rest b ih =>
      obtain rfl : b = last := by
        rwa [← List.cons_append, List.getLast?_concat, Option.some_inj] at hlast
      obtain ⟨more, hstates⟩ := hfront
      obtain ⟨a, ha⟩ : ∃ a, (first :: rest).getLast? = some a := ⟨_, List.getLast?_cons⟩
      obtain ⟨before, hbefore⟩ := List.getLast?_eq_some_iff.mp ha
      have hsplit : states = before ++ a :: b :: more := by
        rw [← hstates, ← List.cons_append, hbefore]
        simp
      have hleads := List.isChain_iff_forall_rel_of_append_cons_cons.mp h.isChain hsplit
      obtain ⟨s', hturn, hreviewed⟩ := exists_turn_of_leads hinner hleads
      have hall := (descending_of_passes hinner he u ho h hs).1
      refine (ih ⟨b :: more, ?_⟩ ha).next hturn hreviewed (hall a (by simp [hsplit])) he u ho
      rw [← hstates]
      simp

variable {strategy : Strategy ℝ} {counts : EvaluationCounts} {x : Vec ℝ}
  {summary : MinimizerSummary ℝ}

/-- The accepted steps of a run in which the cost may rise for a while are a course
from the initial cost, which is recalled at every report. -/
theorem climbs_run {o : MinimizerOptions ℝ} {e : Evaluator ℝ σ} {inner : Option CoordinateDescent}
    {callbacks : Pipeline ℝ σ} (he : e.Pure) (ho : 0 ≤ o.minRelativeDecrease)
    (hon : o.useNonmonotonicSteps = true) (hlimit : 0 < o.maxNonmonotonicSteps)
    (h : minimize ⟨o, e, inner.map fun c => c.sweep e, callbacks⟩ strategy counts x w =
      .ok summary w') :
    ∃ states : List (State ℝ),
      Visits ⟨o, e, inner.map fun c => c.sweep e, callbacks⟩ strategy counts x w states summary
        w' ∧
      summary.history.records = states.map State.record ∧
      ∀ first rest last, first :: rest <+: states → (first :: rest).getLast? = some last →
        Traced o.minRelativeDecrease (.new summary.initialCost o.maxNonmonotonicSteps) rest last ∧
        ∃ since, last.acceptance.Recalls (summary.initialCost :: acceptedCosts rest) since := by
  have hinner := CoordinateDescent.innerExplores o e inner callbacks
  obtain ⟨states, hvisits⟩ := returns_visits _ _ h
  refine ⟨states, hvisits, hvisits.records_eq hinner, fun first rest last hfront hlast => ?_⟩
  cases hvisits with
  | none _ => simp at hfront
  | @some linear _ _ _ _ _ _ found passes _ =>
      have htraced := traced_of_passes hinner he w.tally.user ho passes
        (descending_initial (linked_initial found _ _)) hfront hlast
      have hstart : Traced o.minRelativeDecrease (.new linear.cost
          (if o.useNonmonotonicSteps then o.maxNonmonotonicSteps else 0)) rest last := htraced
      rw [if_pos hon] at hstart
      obtain ⟨steps, hcourse, hcosts⟩ := hstart
      obtain ⟨since, hrecalls⟩ := StepAcceptance.recalls_of_course hlimit ho hcourse
      rw [hcosts] at hrecalls
      exact ⟨⟨steps, hcourse, hcosts⟩, since, hrecalls⟩

end Runs

end TrustRegion

end LeastSquares
