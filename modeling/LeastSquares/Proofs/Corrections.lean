import LeastSquares.Minimizer.Lbfgs
import Mathlib.Data.List.DropRight

/-!
# What a quasi-Newton memory holds

A memory is handed pairs, and emptied at times. Among the pairs since it was
emptied last it keeps the ones with a clearly positive curvature, and of these
the newest, as many as its rank says. Both queues are shortened and lengthened
together, so they stay equally long, and what stands at one place of them came
in one pair.

A memory of rank zero is the exception. It makes room only if it holds nothing,
when there is nothing to give way, and then takes the pair, so that it has no
room to make from there on. It keeps all pairs of positive curvature.

## Main definitions

* `Lbfgs.Call`, `Lbfgs.after` — what can be done to a memory, and the memory
  after some of it.
* `Lbfgs.curved` — the pairs of positive curvature since the last reset.
* `Lbfgs.kept` — those among them that are still there.
* `Lbfgs.Holds` — the queues hold these pairs.

## Main results

* `Lbfgs.kept_concat` — the newest pairs, with one more.
* `Lbfgs.Holds.update` — one more pair.
* `Lbfgs.holds_after` — any number of calls.
-/

namespace LeastSquares.Lbfgs

section Queues

variable {α : Type} {m : Lbfgs α} {rank : Nat} {pairs : List (Correction α)}

/-- The newest of some pairs, as many as a memory of this rank keeps. -/
def kept (rank : Nat) (pairs : List (Correction α)) : List (Correction α) :=
  if rank = 0 then pairs else pairs.rtake rank

@[simp] theorem kept_nil (rank : Nat) : kept rank ([] : List (Correction α)) = [] := by
  rw [kept, List.rtake_nil, ite_self]

theorem kept_subset (rank : Nat) (pairs : List (Correction α)) : kept rank pairs ⊆ pairs := by
  unfold kept
  split
  · exact List.Subset.refl _
  · exact (List.drop_suffix _ _).subset

theorem length_kept_le (hrank : 0 < rank) : (kept rank pairs).length ≤ rank := by
  rw [kept, if_neg hrank.ne', List.rtake, List.length_drop]
  omega

/-- With one more pair the oldest one gives way if there are as many as the rank
says. -/
theorem kept_concat (rank : Nat) (pairs : List (Correction α)) (c : Correction α) :
    kept rank (pairs ++ [c]) =
      (if (kept rank pairs).length = rank then (kept rank pairs).tail else kept rank pairs) ++
        [c] := by
  cases rank with
  | zero =>
      rw [kept, if_pos rfl, kept, if_pos rfl]
      split
      · rename_i hnone
        rw [List.length_eq_zero_iff.mp hnone]
        rfl
      · rfl
  | succ k =>
      rw [kept, if_neg k.succ_ne_zero, kept, if_neg k.succ_ne_zero, List.rtake_concat_succ]
      congr 1
      simp only [List.rtake, List.length_drop]
      split
      · rw [List.tail_drop]
        congr 1
        omega
      · rw [show pairs.length - (k + 1) = 0 by omega, show pairs.length - k = 0 by omega]

/-- The queues hold these pairs, and nothing else. -/
structure Holds (m : Lbfgs α) (pairs : List (Correction α)) : Prop where
  s : m.s = pairs.map Correction.s
  y : m.y = pairs.map Correction.y

theorem Holds.length_s (h : m.Holds pairs) : m.s.length = pairs.length := by
  rw [h.s, List.length_map]

theorem Holds.length_y (h : m.Holds pairs) : m.y.length = pairs.length := by
  rw [h.y, List.length_map]

theorem Holds.pairs_eq (h : m.Holds pairs) : m.pairs = pairs := by
  rw [Lbfgs.pairs, h.s, h.y, List.zipWith_map, List.zipWith_self]
  exact List.map_id _

/-- The oldest pair gives way, or nothing does. -/
theorem Holds.makeRoom (h : m.Holds pairs) :
    m.makeRoom.Holds (if pairs.length = m.rank then pairs.tail else pairs) := by
  rw [Lbfgs.makeRoom, h.length_s]
  split
  · exact ⟨by rw [h.s, List.map_tail], by rw [h.y, List.map_tail]⟩
  · exact h

@[simp] theorem rank_makeRoom (m : Lbfgs α) : m.makeRoom.rank = m.rank := by
  unfold Lbfgs.makeRoom
  split <;> rfl

end Queues

/-! ## Calls -/

variable {α : Type} [Scalar α] {m : Lbfgs α} {rank : Nat} {pairs : List (Correction α)}
  {c : Correction α}

/-- What can be done to a memory. -/
inductive Call (α : Type) where
  | update (c : Correction α)
  | reset

/-- The memory after a call. -/
def Call.apply (m : Lbfgs α) : Call α → Lbfgs α
  | .update c => m.update c
  | .reset => m.reset

/-- The pair that a call hands over. -/
def Call.pair? : Call α → Option (Correction α)
  | .update c => some c
  | .reset => none

/-- The memory of a rank after some calls. -/
def after (rank : Nat) (calls : List (Call α)) : Lbfgs α := calls.foldl Call.apply (new rank)

/-- The pairs of clearly positive curvature that were handed over since the memory
was emptied last, the oldest in front. -/
def curved (calls : List (Call α)) : List (Correction α) :=
  ((calls.rtakeWhile fun call => call.pair?.isSome).filterMap Call.pair?).filter fun c => !isFlat c

theorem curved_reset (calls : List (Call α)) : curved (calls ++ [.reset]) = [] := by
  rw [curved, List.rtakeWhile_concat_neg _ _ _ Bool.false_ne_true]
  rfl

theorem curved_update (calls : List (Call α)) (c : Correction α) :
    curved (calls ++ [.update c]) = if isFlat c then curved calls else curved calls ++ [c] := by
  rw [curved, List.rtakeWhile_concat_pos _ _ _ rfl, List.filterMap_append, List.filter_append]
  cases hflat : isFlat c <;> simp [curved, Call.pair?, hflat]

theorem mem_curved {calls : List (Call α)} (h : c ∈ curved calls) :
    .update c ∈ calls ∧ isFlat c = false := by
  obtain ⟨hmem, hflat⟩ := List.mem_filter.mp h
  obtain ⟨call, hcall, hpair⟩ := List.mem_filterMap.mp hmem
  refine ⟨?_, by simpa using hflat⟩
  have hin := (List.rtakeWhile_suffix _ calls).subset hcall
  cases call with
  | update d =>
      cases hpair
      exact hin
  | reset => cases hpair

@[simp] theorem rank_update (m : Lbfgs α) (c : Correction α) : (m.update c).rank = m.rank := by
  unfold Lbfgs.update
  split
  · rfl
  · exact m.rank_makeRoom

/-- A pair that is worth remembering is the newest one then. -/
theorem newest_update (m : Lbfgs α) (h : isFlat c = false) :
    (m.update c).s.getLast? = some c.s ∧ (m.update c).y.getLast? = some c.y := by
  unfold Lbfgs.update
  rw [if_neg (by rw [h]; exact Bool.false_ne_true)]
  exact ⟨List.getLast?_concat, List.getLast?_concat⟩

/-- One more pair. -/
theorem Holds.update (h : m.Holds (kept rank pairs)) (hrank : m.rank = rank) (c : Correction α) :
    (m.update c).Holds (kept rank (if isFlat c then pairs else pairs ++ [c])) := by
  unfold Lbfgs.update
  split
  · exact h
  · have hroom := h.makeRoom
    rw [hrank] at hroom
    rw [kept_concat]
    refine ⟨?_, ?_⟩
    · rw [List.map_append, ← hroom.s]
      rfl
    · rw [List.map_append, ← hroom.y]
      rfl

@[simp] theorem rank_after (rank : Nat) (calls : List (Call α)) :
    (after rank calls).rank = rank := by
  induction calls using List.reverseRecOn with
  | nil => rfl
  | append_singleton calls call ih =>
      rw [after, List.foldl_append]
      cases call with
      | update c => exact (rank_update _ c).trans ih
      | reset => exact ih

/-- What the memory holds after any calls. -/
theorem holds_after (rank : Nat) (calls : List (Call α)) :
    (after rank calls).Holds (kept rank (curved calls)) := by
  induction calls using List.reverseRecOn with
  | nil =>
      have hnone : curved ([] : List (Call α)) = [] := rfl
      rw [hnone, kept_nil]
      exact ⟨rfl, rfl⟩
  | append_singleton calls call ih =>
      rw [after, List.foldl_append]
      cases call with
      | update c =>
          rw [curved_update]
          exact ih.update (rank_after rank calls) c
      | reset =>
          rw [curved_reset, kept_nil]
          exact ⟨rfl, rfl⟩

end LeastSquares.Lbfgs
