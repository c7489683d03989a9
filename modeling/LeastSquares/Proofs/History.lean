import LeastSquares.Proofs.Operation
import Mathlib.Data.List.Induction

/-!
# Histories of a problem

A history is a sequence of calls that change a problem, made one after the
other from the problem without blocks. Calls that fail are part of it.

Slots and generations are numbered by words of 32 bits, so what is said here
about handles holds as long as there are no more slots than words, and no
slot is emptied as often as there are words. A history of fewer calls than
that always stays within words.

How often a slot was emptied is its generation. A handle that was given out
belongs to the generation its slot had then, so it is either live or of a
generation that is over, and a generation that is over never returns. This
is the invariant behind everything said about handles below.

## Main definitions

* `History.run`, `History.answers` — the problem after a history, and what
  was answered on the way.
* `History.WithinWords` — numbers do not run out.

## Main results

* `History.coherent_run` — a problem is coherent after every history.
* `History.handles_run` — no handle is given out twice, and a removed one is
  refused for good.
-/

namespace LeastSquares

variable {α σ : Type} [Scalar α]

namespace History

variable {ops ops' : List (Operation α σ)} {op : Operation α σ} {p : Problem α σ} {n : Nat}
  {id : BlockId} {i : ResidualId}

/-- The problem after some calls. -/
def run (p : Problem α σ) (ops : List (Operation α σ)) : Problem α σ :=
  ops.foldl (fun p op => (op.perform p).2) p

/-- What some calls answer. -/
def answers (p : Problem α σ) : List (Operation α σ) → List (Except ModelError Answer)
  | [] => []
  | op :: ops => (op.perform p).1 :: answers (op.perform p).2 ops

/-- How often some calls empty a slot. -/
def removals (p : Problem α σ) (n : Nat) : List (Operation α σ) → Nat
  | [] => 0
  | op :: ops => (if op.emptied? p = some n then 1 else 0) + removals (op.perform p).2 n ops

/-- The handles of parameter blocks that a history gives out. -/
def blocksGiven (ops : List (Operation α σ)) : List BlockId :=
  (answers .empty ops).filterMap fun
    | .ok (.block id) => some id
    | _ => none

/-- The handles of residual blocks that a history gives out. -/
def residualsGiven (ops : List (Operation α σ)) : List ResidualId :=
  (answers .empty ops).filterMap fun
    | .ok (.residual i) => some i
    | _ => none

/-- The words of 32 bits suffice to number the slots, and the generations of
each slot. -/
structure WithinWords (ops : List (Operation α σ)) : Prop where
  slots : (run .empty ops).slots.size ≤ UInt32.size
  removals : ∀ n, removals .empty n ops < UInt32.size

theorem run_append (p : Problem α σ) (ops ops' : List (Operation α σ)) :
    run p (ops ++ ops') = run (run p ops) ops' := List.foldl_append

theorem run_concat (p : Problem α σ) (ops : List (Operation α σ)) (op : Operation α σ) :
    run p (ops ++ [op]) = (op.perform (run p ops)).2 := run_append p ops [op]

theorem answers_concat (p : Problem α σ) (ops : List (Operation α σ)) (op : Operation α σ) :
    answers p (ops ++ [op]) = answers p ops ++ [(op.perform (run p ops)).1] := by
  induction ops generalizing p with
  | nil => rfl
  | cons op' ops ih => exact congrArg _ (ih (op'.perform p).2)

theorem removals_append (p : Problem α σ) (n : Nat) (ops ops' : List (Operation α σ)) :
    removals p n (ops ++ ops') = removals p n ops + removals (run p ops) n ops' := by
  induction ops generalizing p with
  | nil => exact (Nat.zero_add _).symm
  | cons op ops ih =>
      have hrest := ih (op.perform p).2
      simp only [List.cons_append, removals, run, List.foldl_cons, Nat.add_assoc] at hrest ⊢
      rw [hrest]

theorem size_run (p : Problem α σ) (ops : List (Operation α σ)) :
    p.slots.size ≤ (run p ops).slots.size ∧
      (run p ops).slots.size ≤ p.slots.size + ops.length := by
  induction ops generalizing p with
  | nil => exact ⟨Nat.le_refl _, Nat.le_refl _⟩
  | cons op ops ih =>
      have hop := op.size_perform p
      have hops := ih (op.perform p).2
      rw [List.length_cons]
      exact ⟨Nat.le_trans hop.1 hops.1, Nat.le_trans hops.2 (by omega)⟩

theorem removals_le (p : Problem α σ) (n : Nat) (ops : List (Operation α σ)) :
    removals p n ops ≤ ops.length := by
  induction ops generalizing p with
  | nil => exact Nat.le_refl _
  | cons op ops ih =>
      have hops := ih (op.perform p).2
      rw [removals, List.length_cons]
      split <;> omega

/-- A history with fewer calls than there are words stays within words. -/
theorem withinWords_of_length (h : ops.length < UInt32.size) : WithinWords ops where
  slots := Nat.le_trans (size_run .empty ops).2 (by simp [Problem.empty]; omega)
  removals n := Nat.lt_of_le_of_lt (removals_le .empty n ops) h

theorem slots_of_append (h : (run .empty (ops ++ ops')).slots.size ≤ UInt32.size) :
    (run .empty ops).slots.size ≤ UInt32.size := by
  rw [run_append] at h
  exact Nat.le_trans (size_run _ ops').1 h

theorem WithinWords.of_append (h : WithinWords (ops ++ ops')) : WithinWords ops where
  slots := slots_of_append h.slots
  removals n := by
    have hn := h.removals n
    rw [removals_append] at hn
    omega

theorem reachable_run (h : (run .empty ops).slots.size ≤ UInt32.size) :
    (run .empty ops).Reachable := by
  induction ops using List.reverseRecOn with
  | nil => exact .empty
  | append_singleton ops op ih =>
      have hprev := ih (slots_of_append h)
      rw [run_concat] at h ⊢
      exact op.reachable_perform hprev h

theorem effect_run (h : (run .empty (ops ++ [op])).slots.size ≤ UInt32.size) :
    Effect (run .empty ops) (op.perform (run .empty ops)).1 (op.emptied? (run .empty ops))
      (run .empty (ops ++ [op])) := by
  have hprev := reachable_run (slots_of_append h)
  rw [run_concat] at h ⊢
  exact op.effect hprev.sound h

/-- The problem is coherent after every history, and then a live residual
block can be evaluated: it fails only where its cost function fails. -/
theorem coherent_run (ops : List (Operation α σ))
    (h : (run .empty ops).slots.size ≤ UInt32.size) :
    (run .empty ops).Coherent ∧
      ∀ i ∈ (run .empty ops).residualIds, ∀ applyLoss wantJacobians t,
        Succeeds ((run .empty ops).evaluateResidual i applyLoss wantJacobians).run t fun r _ =>
          ∀ e, r = .error e → e = .evaluationFailed i := by
  have hcoherent : (run .empty ops).Coherent := (reachable_run h).coherent
  exact ⟨hcoherent, fun i hi applyLoss wantJacobians t =>
    hcoherent.succeeds_evaluateResidual hi applyLoss wantJacobians t⟩

/-- A history in which a slot is used a second time, and a third block is
refused because its manifold does not fit. -/
def reused : List (Operation Float Unit) :=
  [.addBlock (.ofList [1.0]), .removeBlock ⟨0, 0⟩, .addBlock (.ofList [2.0]),
    .addBlockOn (.ofList [3.0]) .quaternion,
    .addResidual (Gallery.anchor (.ofList [5.0])) none [⟨0, 1⟩]]

theorem coherent_run_reused :
    (run .empty reused).slots.size ≤ UInt32.size ∧ (run .empty reused).Coherent :=
  have hsize := (withinWords_of_length (show reused.length < UInt32.size by decide)).slots
  ⟨hsize, (coherent_run reused hsize).1⟩

/-! ## Generations -/

/-- The generation of a slot counts how often the slot was emptied. -/
theorem generation_run (h : (run .empty ops).slots.size ≤ UInt32.size) (n : Nat) :
    (run .empty ops).generation n = UInt32.ofNat (removals .empty n ops) := by
  induction ops using List.reverseRecOn with
  | nil => rfl
  | append_singleton ops op ih =>
      have hprev := ih (slots_of_append h)
      rw [(effect_run h).generation, hprev, removals_append]
      simp only [removals, Nat.add_zero]
      split
      · exact (UInt32.ofNat_add _ 1).symm
      · exact UInt32.add_zero _

theorem toNat_generation_run (h : WithinWords ops) (n : Nat) :
    ((run .empty ops).generation n).toNat = removals .empty n ops := by
  rw [generation_run h.slots, UInt32.toNat_ofNat_of_lt' (h.removals n)]

/-- The generation of the handle is over: its slot has been emptied more often
than the handle knows. -/
def Over (ops : List (Operation α σ)) (id : BlockId) : Prop :=
  id.generation.toNat < removals .empty id.slot.toNat ops

theorem Over.append (h : Over ops id) (ops' : List (Operation α σ)) : Over (ops ++ ops') id := by
  unfold Over at h ⊢
  rw [removals_append]
  omega

theorem Over.not_contains (h : WithinWords ops) (hid : Over ops id) :
    (run .empty ops).contains id = false := by
  rw [Bool.eq_false_iff]
  intro hlive
  have hgeneration := toNat_generation_run h id.slot.toNat
  rw [Problem.generation_of_contains hlive] at hgeneration
  unfold Over at hid
  omega

/-- When a handle ceases to be live, its generation is over. -/
theorem over_of_not_contains (h : WithinWords (ops ++ [op]))
    (hlive : (run .empty ops).contains id = true)
    (hdead : (run .empty (ops ++ [op])).contains id = false) : Over (ops ++ [op]) id := by
  have hgeneration := toNat_generation_run h.of_append id.slot.toNat
  rw [Problem.generation_of_contains hlive] at hgeneration
  have hemptied : op.emptied? (run .empty ops) = some id.slot.toNat := by
    rcases (effect_run h.slots).contains hlive with hstill | hemptied
    · rw [hdead] at hstill
      cases hstill
    · exact hemptied
  unfold Over
  rw [removals_append, hgeneration]
  simp only [removals, hemptied, if_true]
  omega

/-! ## Handles given out -/

theorem mem_blocksGiven_concat : id ∈ blocksGiven (ops ++ [op]) ↔
    id ∈ blocksGiven ops ∨ (op.perform (run .empty ops)).1 = .ok (.block id) := by
  rw [blocksGiven, answers_concat, List.filterMap_append, List.mem_append, ← blocksGiven]
  refine or_congr_right ?_
  generalize (op.perform (run .empty ops)).1 = r
  match r with
  | .ok (.block id') => simp [eq_comm]
  | .ok (.residual i) => simp
  | .ok .done => simp
  | .error e => simp

/-- A handle that was given out is live or of a generation that is over. -/
theorem live_or_over (h : WithinWords ops) :
    ∀ id ∈ blocksGiven ops, (run .empty ops).contains id = true ∨ Over ops id := by
  induction ops using List.reverseRecOn with
  | nil => nofun
  | append_singleton ops op ih =>
      intro id hid
      rcases mem_blocksGiven_concat.mp hid with hid | hid
      · rcases ih h.of_append id hid with hlive | hover
        · by_cases hstill : (run .empty (ops ++ [op])).contains id = true
          · exact .inl hstill
          · exact .inr (over_of_not_contains h hlive (Bool.eq_false_iff.mpr hstill))
        · exact .inr (hover.append [op])
      · have heffect := effect_run h.slots
        rw [hid] at heffect
        exact .inl heffect.block.2.2

theorem nodup_blocksGiven (h : WithinWords ops) : (blocksGiven ops).Nodup := by
  induction ops using List.reverseRecOn with
  | nil => exact .nil
  | append_singleton ops op ih =>
      have hprev := ih h.of_append
      have heffect := effect_run h.slots
      have hgeneration := toNat_generation_run h.of_append
      have hold := live_or_over h.of_append
      rw [blocksGiven, answers_concat, List.filterMap_append, ← blocksGiven]
      generalize (op.perform (run .empty ops)).1 = r at heffect ⊢
      match r with
      | .ok (.block id) =>
          refine List.nodup_append.mpr ⟨hprev, List.nodup_singleton id, ?_⟩
          rintro a ha b hb rfl
          obtain rfl : a = id := List.mem_singleton.mp hb
          obtain ⟨hg, hnot, -⟩ := heffect.block
          rcases hold a ha with hlive | hover
          · rw [hnot] at hlive
            cases hlive
          · have := hgeneration a.slot.toNat
            rw [← hg] at this
            unfold Over at hover
            omega
      | .ok (.residual i) => simpa using hprev
      | .ok .done => simpa using hprev
      | .error e => simpa using hprev

theorem index_lt_of_mem_residualsGiven (h : (run .empty ops).slots.size ≤ UInt32.size) :
    ∀ i ∈ residualsGiven ops, i.index < (run .empty ops).residuals.size := by
  induction ops using List.reverseRecOn with
  | nil => nofun
  | append_singleton ops op ih =>
      intro i hi
      obtain ⟨hle, hnew⟩ := (effect_run h).size_residuals
      rw [residualsGiven, answers_concat, List.filterMap_append, List.mem_append,
        ← residualsGiven] at hi
      rcases hi with hi | hi
      · exact Nat.lt_of_lt_of_le (ih (slots_of_append h) i hi) hle
      · generalize (op.perform (run .empty ops)).1 = r at hi hnew
        match r with
        | .ok (.residual j) =>
            obtain rfl : i = j := by simpa using hi
            obtain ⟨hindex, hsize⟩ := hnew i rfl
            omega
        | .ok (.block id) => simp at hi
        | .ok .done => simp at hi
        | .error e => simp at hi

theorem nodup_residualsGiven (h : (run .empty ops).slots.size ≤ UInt32.size) :
    (residualsGiven ops).Nodup := by
  induction ops using List.reverseRecOn with
  | nil => exact .nil
  | append_singleton ops op ih =>
      have hprev := ih (slots_of_append h)
      have hold := index_lt_of_mem_residualsGiven (slots_of_append h)
      obtain ⟨-, hnew⟩ := (effect_run h).size_residuals
      rw [residualsGiven, answers_concat, List.filterMap_append, ← residualsGiven]
      generalize (op.perform (run .empty ops)).1 = r at hnew ⊢
      match r with
      | .ok (.residual i) =>
          refine List.nodup_append.mpr ⟨hprev, List.nodup_singleton i, ?_⟩
          rintro a ha b hb rfl
          obtain rfl : a = i := List.mem_singleton.mp hb
          have hlt := hold a ha
          have hindex := (hnew a rfl).1
          omega
      | .ok (.block id) => simpa using hprev
      | .ok .done => simpa using hprev
      | .error e => simpa using hprev

/-! ## Handles taken back -/

/-- A call takes a parameter block out of the problem: its handle was live
before the call and is not live after it. -/
def TakesOut (p : Problem α σ) (op : Operation α σ) (id : BlockId) : Prop :=
  p.contains id = true ∧ (op.perform p).2.contains id = false

/-- A call takes a residual block out of the problem. -/
def TakesOutResidual (p : Problem α σ) (op : Operation α σ) (i : ResidualId) : Prop :=
  (∃ r, p.residual? i = some r) ∧ (op.perform p).2.residual? i = none

/-- Removing a parameter block takes it out, and every residual block that
reads it. -/
theorem takesOut_of_removeBlock
    (h : ((Operation.removeBlock id).perform p).1 = .ok .done) :
    TakesOut p (.removeBlock id) id ∧
      ∀ i ∈ p.dependents id, TakesOutResidual p (.removeBlock id) i := by
  cases hremove : p.removeBlock id with
  | error e =>
      simp only [Operation.perform, hremove] at h
      cases h
  | ok q =>
      have hremoves := Problem.removes_of_removeBlock hremove
      have hq : ((Operation.removeBlock id).perform p).2 = q := by
        simp only [Operation.perform, hremove]
        rfl
      unfold TakesOut TakesOutResidual
      rw [hq]
      refine ⟨⟨hremoves.live, ?_⟩, fun i hi => ⟨?_, ?_⟩⟩
      · exact Problem.contains_eq_false.mpr (by rw [hremoves.block?, if_pos rfl])
      · obtain ⟨r, hr, -⟩ := Problem.mem_dependents.mp hi
        exact ⟨r, hr⟩
      · rw [hremoves.residual?, if_pos hi]

/-- Removing a residual block takes it out. -/
theorem takesOut_of_removeResidual
    (h : ((Operation.removeResidual i).perform p).1 = .ok .done) :
    TakesOutResidual p (.removeResidual i) i := by
  cases hr : p.residual? i with
  | none =>
      rw [(Problem.refusesResidual_of_not_live hr).perform] at h
      cases h
  | some r =>
      refine ⟨⟨r, hr⟩, ?_⟩
      have hq : ((Operation.removeResidual i).perform p).2 = p.dropResidual i := by
        simp only [Operation.perform, Problem.removeResidual, Problem.residual_eq_ok.mpr hr]
        rfl
      rw [hq, Problem.residual?_dropResidual, if_pos rfl]

theorem residual?_run (h : (run .empty (ops ++ ops')).slots.size ≤ UInt32.size)
    (hlt : i.index < (run .empty ops).residuals.size) (hi : (run .empty ops).residual? i = none) :
    (run .empty (ops ++ ops')).residual? i = none := by
  have key : i.index < (run .empty (ops ++ ops')).residuals.size ∧
      (run .empty (ops ++ ops')).residual? i = none := by
    induction ops' using List.reverseRecOn with
    | nil =>
        rw [List.append_nil]
        exact ⟨hlt, hi⟩
    | append_singleton ops' op ih =>
        rw [← List.append_assoc] at h ⊢
        have hprev := ih (slots_of_append h)
        have heffect := effect_run h
        exact ⟨Nat.lt_of_lt_of_le hprev.1 heffect.size_residuals.1,
          heffect.residual? hprev.1 hprev.2⟩
  exact key.2

/-- No two calls give out the same handle. A removal takes out what it
removes, and whatever has been taken out is refused for good. -/
theorem handles_run (ops : List (Operation α σ)) (h : WithinWords ops) :
    (blocksGiven ops).Nodup ∧ (residualsGiven ops).Nodup ∧
      ∀ before op after, ops = before ++ op :: after →
        (∀ id, TakesOut (run .empty before) op id → (run .empty ops).RefusesBlock id) ∧
        (∀ i, TakesOutResidual (run .empty before) op i →
          (run .empty ops).RefusesResidual i) ∧
        ((op.perform (run .empty before)).1 = .ok .done →
          (∀ id, op = .removeBlock id → TakesOut (run .empty before) op id ∧
            ∀ i ∈ (run .empty before).dependents id,
              TakesOutResidual (run .empty before) op i) ∧
          ∀ i, op = .removeResidual i → TakesOutResidual (run .empty before) op i) := by
  refine ⟨nodup_blocksGiven h, nodup_residualsGiven h.slots, ?_⟩
  intro before op after hops
  have hsplit : ops = (before ++ [op]) ++ after := by rw [hops, List.append_assoc]; rfl
  subst hsplit
  refine ⟨?_, ?_, ?_⟩
  · rintro id ⟨hlive, hdead⟩
    rw [← run_concat] at hdead
    have hover := over_of_not_contains h.of_append hlive hdead
    exact Problem.refusesBlock_of_not_live ((hover.append after).not_contains h)
  · rintro i ⟨⟨r, hr⟩, hdead⟩
    rw [← run_concat] at hdead
    have hlt : i.index < (run .empty before).residuals.size := by
      have hget : (run .empty before).residuals[i.index]? = some (some r) :=
        Option.join_eq_some_iff.mp hr
      exact (Array.getElem?_eq_some_iff.mp hget).1
    have hle := (effect_run (slots_of_append h.slots)).size_residuals.1
    exact Problem.refusesResidual_of_not_live
      (residual?_run h.slots (Nat.lt_of_lt_of_le hlt hle) hdead)
  · intro hdone
    refine ⟨?_, ?_⟩
    · rintro id rfl
      exact takesOut_of_removeBlock hdone
    · rintro i rfl
      exact takesOut_of_removeResidual hdone

theorem handles_run_reused :
    WithinWords reused ∧ blocksGiven reused = [⟨0, 0⟩, ⟨0, 1⟩] ∧
      (run .empty reused).RefusesBlock ⟨0, 0⟩ := by
  have hwords : WithinWords reused := withinWords_of_length (by decide)
  obtain ⟨-, -, hremoved⟩ := handles_run reused hwords
  refine ⟨hwords, rfl, ?_⟩
  exact (hremoved [.addBlock (.ofList [1.0])] (.removeBlock ⟨0, 0⟩) _ rfl).1 ⟨0, 0⟩ ⟨rfl, rfl⟩

end History

end LeastSquares
