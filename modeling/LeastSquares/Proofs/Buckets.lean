import LeastSquares.Proofs.Traversal
import LeastSquares.Solve.Buckets
import LeastSquares.Total
import Mathlib.Data.List.Sort
import Mathlib.Logic.Function.Basic

/-!
# What sorting into buckets gives

Counting entries, adding the counts up and filling the places from the back
is a stable sort. One picture of the places carries the proof: after some of
the entries have been put into their places from the back, each bucket has
free places for those of its entries that are still to come, followed by
those of its entries that have come, in their order. One more entry turns the
last free place of its bucket into that entry. So no write misses, every end
comes down to the start of its bucket, and in the end no place is free.

## Main definitions

* `Buckets.members` — the entries of one key in their order.
* `Buckets.halfway` — the places after some of the entries have come.

## Main results

* `Buckets.put_halfway`, `Buckets.fill_halfway` — what one entry and all
  entries do to the places.
* `Buckets.sort_eq` — sorting does not stop, and gives the members of each
  bucket.
* `Buckets.flatMap_filter_eq_mergeSort` — the buckets, one after the other,
  are the stable sort.
-/

namespace LeastSquares

/-! ## Lists over buckets -/

section Table

variable {γ : Type} {n k : Nat}

theorem set_map_range (f : Nat → γ) (n k : Nat) (c : γ) :
    ((List.range n).map f).set k c = (List.range n).map (Function.update f k c) := by
  apply List.ext_getElem
  · simp
  · intro i hi hi'
    by_cases hik : k = i
    · simp [hik]
    · simp [hik, Function.update_of_ne (Ne.symm hik)]

/-- Where a list stands among lists that stand one after the other. -/
theorem length_flatMap_range_lt (f : Nat → List γ) {i : Nat} (hk : k < n)
    (hi : i < (f k).length) :
    ((List.range k).flatMap f).length + i < ((List.range n).flatMap f).length := by
  induction n with
  | zero => omega
  | succ n ih =>
      rw [List.range_succ, List.flatMap_append, List.flatMap_singleton, List.length_append]
      by_cases hkn : k = n
      · subst hkn
        omega
      · have := ih (by omega)
        omega

/-- Writing to one list among lists that stand one after the other. -/
theorem set_flatMap_range (f : Nat → List γ) {i : Nat} (c : γ) (hk : k < n)
    (hi : i < (f k).length) :
    ((List.range n).flatMap f).set (((List.range k).flatMap f).length + i) c =
      (List.range n).flatMap (Function.update f k ((f k).set i c)) := by
  induction n with
  | zero => omega
  | succ n ih =>
      rw [List.range_succ, List.flatMap_append, List.flatMap_append, List.flatMap_singleton,
        List.flatMap_singleton]
      by_cases hkn : k = n
      · -- the lists before the one that is written to stay
        subst hkn
        have hfront : (List.range k).flatMap (Function.update f k ((f k).set i c)) =
            (List.range k).flatMap f := by
          apply List.flatMap_congr
          intro j hj
          rw [Function.update_of_ne (by have := List.mem_range.mp hj; omega)]
        rw [hfront, Function.update_self, List.set_append_right _ _ (by omega),
          Nat.add_sub_cancel_left]
      · have hplace := length_flatMap_range_lt f (by omega : k < n) hi
        rw [List.set_append_left _ _ hplace, ih (by omega),
          Function.update_of_ne (by omega : n ≠ k)]

end Table

namespace Buckets

variable {β : Type} {n : Nat}

/-! ## The stable sort -/

section MergeSort

variable {γ : Type} {key : γ → Nat} {l : List γ}

/-- A sorted list is cut at a key. -/
theorem filter_lt_succ (hl : l.Pairwise fun a b => key a ≤ key b) (n : Nat) :
    l.filter (fun a => key a < n + 1) =
      l.filter (fun a => key a < n) ++ l.filter (fun a => key a == n) := by
  induction l with
  | nil => rfl
  | cons a l ih =>
      have hl' := List.pairwise_cons.mp hl
      have ih := ih hl'.2
      by_cases hlt : key a < n
      · have hsucc : key a < n + 1 := by omega
        have hne : ¬ key a = n := by omega
        simp only [List.filter_cons, decide_eq_true_eq, beq_iff_eq, hlt, hsucc, hne, if_true,
          if_false, ih, List.cons_append]
      · -- the keys that follow are not below `n` either
        have hnil : l.filter (fun a => key a < n) = [] := by
          rw [List.filter_eq_nil_iff]
          intro b hb
          have := hl'.1 b hb
          simp
          omega
        rw [hnil, List.nil_append] at ih
        by_cases heq : key a = n
        · have hsucc : key a < n + 1 := by omega
          simp only [List.filter_cons, decide_eq_true_eq, beq_iff_eq, if_neg hlt, if_pos hsucc,
            if_pos heq, hnil, ih, List.nil_append]
        · have hsucc : ¬ key a < n + 1 := by omega
          simp only [List.filter_cons, decide_eq_true_eq, beq_iff_eq, if_neg hlt, if_neg hsucc,
            if_neg heq, hnil, ih, List.nil_append]

theorem flatMap_filter_of_pairwise (hl : l.Pairwise fun a b => key a ≤ key b) (n : Nat) :
    ((List.range n).flatMap fun k => l.filter fun a => key a == k) =
      l.filter fun a => key a < n := by
  induction n with
  | zero => simp
  | succ n ih =>
      rw [List.range_succ, List.flatMap_append, List.flatMap_singleton, ih, filter_lt_succ hl]

/-- The stable sort keeps the order of the entries of one key. -/
theorem filter_mergeSort (key : γ → Nat) (l : List γ) (k : Nat) :
    ((l.mergeSort fun a b => key a ≤ key b).filter fun a => key a == k) =
      l.filter fun a => key a == k := by
  have hsub : (l.filter fun a => key a == k).Sublist (l.mergeSort fun a b => key a ≤ key b) := by
    apply List.sublist_mergeSort
    · intro a b c hab hbc
      simp only [decide_eq_true_eq] at hab hbc ⊢
      omega
    · intro a b
      simp only [Bool.or_eq_true, decide_eq_true_eq]
      omega
    · rw [List.pairwise_iff_forall_sublist]
      intro a b hab
      have ha := List.mem_filter.mp (hab.subset (by simp : a ∈ [a, b]))
      have hb := List.mem_filter.mp (hab.subset (by simp : b ∈ [a, b]))
      simp only [beq_iff_eq] at ha hb
      simp only [decide_eq_true_eq]
      omega
    · exact List.filter_sublist
  have hsub' := hsub.filter fun a => key a == k
  rw [List.filter_filter] at hsub'
  simp only [Bool.and_self] at hsub'
  have hlen := ((List.mergeSort_perm l fun a b => key a ≤ key b).filter fun a => key a == k).length_eq
  exact (hsub'.eq_of_length hlen.symm).symm

/-- The buckets, one after the other, are the stable sort by the key. -/
theorem flatMap_filter_eq_mergeSort (h : ∀ a ∈ l, key a < n) :
    ((List.range n).flatMap fun k => l.filter fun a => key a == k) =
      l.mergeSort fun a b => key a ≤ key b := by
  have hsorted : (l.mergeSort fun a b => key a ≤ key b).Pairwise fun a b => key a ≤ key b :=
    List.pairwise_mergeSort' (fun a b => key a ≤ key b) l
  have hall : (l.mergeSort fun a b => key a ≤ key b).filter (fun a => key a < n) =
      l.mergeSort fun a b => key a ≤ key b := by
    rw [List.filter_eq_self]
    intro a ha
    exact decide_eq_true (h a (List.mem_mergeSort.mp ha))
  have hparts := flatMap_filter_of_pairwise hsorted n
  rw [hall] at hparts
  simp only [filter_mergeSort] at hparts
  exact hparts

end MergeSort

/-! ## Counting -/

theorem count_map_range (f : Nat → Nat) {k : Nat} (hk : k < n) :
    count ((List.range n).map f) k =
      .ok ((List.range n).map (Function.update f k (f k + 1))) := by
  have hget : ((List.range n).map f)[k]? = some (f k) := by simp [hk]
  simp only [count, hget, set_map_range]

/-- Keys in range are counted. -/
theorem foldlM_count (f : Nat → Nat) {keys : List Nat} (h : ∀ k ∈ keys, k < n) :
    keys.foldlM count ((List.range n).map f) =
      .ok ((List.range n).map fun k => f k + keys.count k) := by
  induction keys generalizing f with
  | nil => simp [pure, Except.pure]
  | cons k keys ih =>
      have hk : k < n := h k (by simp)
      have hrest : ∀ j ∈ keys, j < n := fun j hj => h j (List.mem_cons_of_mem k hj)
      rw [List.foldlM_cons, count_map_range f hk]
      show keys.foldlM count _ = _
      rw [ih _ hrest]
      congr 1
      apply List.map_congr_left
      intro j _
      by_cases hjk : j = k
      · subst hjk
        simp only [Function.update_self, List.count_cons_self]
        omega
      · simp only [Function.update_of_ne hjk, List.count_cons_of_ne (Ne.symm hjk)]

/-- The entries of one key, in their order. -/
def members (keyed : List (Nat × β)) (k : Nat) : List β :=
  (keyed.filter fun r => r.1 == k).map Prod.snd

@[simp] theorem members_nil (k : Nat) : members ([] : List (Nat × β)) k = [] := rfl

theorem members_cons_self (k : Nat) (b : β) (keyed : List (Nat × β)) :
    members ((k, b) :: keyed) k = b :: members keyed k := by simp [members]

theorem members_cons_of_ne {j k : Nat} (h : k ≠ j) (b : β) (keyed : List (Nat × β)) :
    members ((k, b) :: keyed) j = members keyed j := by simp [members, h]

theorem members_append (front back : List (Nat × β)) (k : Nat) :
    members (front ++ back) k = members front k ++ members back k := by simp [members]

/-- The buckets, one after the other, are the stable sort by the key. -/
theorem flatMap_members {keyed : List (Nat × β)} (h : ∀ r ∈ keyed, r.1 < n) :
    (List.range n).flatMap (members keyed) =
      (keyed.mergeSort fun r s => r.1 ≤ s.1).map Prod.snd := by
  rw [← flatMap_filter_eq_mergeSort h, List.map_flatMap]
  rfl

theorem count_map_fst (keyed : List (Nat × β)) (k : Nat) :
    (keyed.map Prod.fst).count k = (members keyed k).length := by
  induction keyed with
  | nil => rfl
  | cons r keyed ih =>
      obtain ⟨j, b⟩ := r
      by_cases hjk : j = k
      · subst hjk
        rw [List.map_cons, List.count_cons_self, ih, members_cons_self, List.length_cons]
      · rw [List.map_cons, List.count_cons_of_ne hjk, ih, members_cons_of_ne hjk]

/-- The number of entries of each key. -/
def sizes (n : Nat) (keyed : List (Nat × β)) : List Nat :=
  (List.range n).map fun k => (members keyed k).length

theorem histogram_eq {keyed : List (Nat × β)} (h : ∀ r ∈ keyed, r.1 < n) :
    histogram n (keyed.map Prod.fst) = .ok (sizes n keyed) := by
  have hzero : List.replicate n 0 = (List.range n).map fun _ => 0 := by simp
  have hkeys : ∀ k ∈ keyed.map Prod.fst, k < n := by
    intro k hk
    obtain ⟨r, hr, rfl⟩ := List.mem_map.mp hk
    exact h r hr
  rw [histogram, hzero, foldlM_count _ hkeys, sizes]
  simp only [Nat.zero_add, count_map_fst]

/-! ## Starts and ends -/

theorem starts_eq (start : Nat) (l : List Nat) :
    starts start l = (List.range l.length).map fun k => start + total (l.take k) := by
  induction l generalizing start with
  | nil => rfl
  | cons size l ih =>
      rw [starts, ih, List.length_cons, List.range_succ_eq_map, List.map_cons, List.map_map]
      simp [Function.comp_def, Nat.add_assoc]

theorem ends_eq (start : Nat) (l : List Nat) :
    ends start l = (List.range l.length).map fun k => start + total (l.take (k + 1)) := by
  induction l generalizing start with
  | nil => rfl
  | cons size l ih =>
      rw [ends, ih, List.length_cons, List.range_succ_eq_map, List.map_cons, List.map_map]
      simp [Function.comp_def, Nat.add_assoc]

/-- Where the bucket of a key starts. -/
def startOf (keyed : List (Nat × β)) (k : Nat) : Nat :=
  ((List.range k).flatMap (members keyed)).length

theorem startOf_succ (keyed : List (Nat × β)) (k : Nat) :
    startOf keyed (k + 1) = startOf keyed k + (members keyed k).length := by
  rw [startOf, List.range_succ, List.flatMap_append, List.flatMap_singleton, List.length_append,
    startOf]

theorem total_take_sizes (keyed : List (Nat × β)) {k : Nat} (hk : k ≤ n) :
    total ((sizes n keyed).take k) = startOf keyed k := by
  rw [sizes, ← List.map_take, List.take_range, Nat.min_eq_left hk]
  induction k with
  | zero => rfl
  | succ k ih =>
      rw [List.range_succ, List.map_append, total_append, ih (by omega), startOf_succ]
      simp

theorem starts_sizes (n : Nat) (keyed : List (Nat × β)) :
    starts 0 (sizes n keyed) = (List.range n).map (startOf keyed) := by
  have hlen : (sizes n keyed).length = n := by simp [sizes]
  rw [starts_eq, hlen]
  apply List.map_congr_left
  intro k hk
  rw [total_take_sizes keyed (by have := List.mem_range.mp hk; omega), Nat.zero_add]

theorem ends_sizes (n : Nat) (keyed : List (Nat × β)) :
    ends 0 (sizes n keyed) =
      (List.range n).map fun k => startOf keyed k + (members keyed k).length := by
  have hlen : (sizes n keyed).length = n := by simp [sizes]
  rw [ends_eq, hlen]
  apply List.map_congr_left
  intro k hk
  rw [total_take_sizes keyed (by have := List.mem_range.mp hk; omega), Nat.zero_add, startOf_succ]

/-! ## Filling -/

/-- The places of a bucket: free ones for the entries that are still to come,
then the entries that have come. -/
def slots (todo done : List (Nat × β)) (k : Nat) : List (Option β) :=
  List.replicate (members todo k).length none ++ (members done k).map some

/-- The buckets after the entries `done` have come and the entries `todo` have
not. -/
def halfway (n : Nat) (todo done : List (Nat × β)) : Filling β where
  ends := (List.range n).map fun k => startOf (todo ++ done) k + (members todo k).length
  places := (List.range n).flatMap (slots todo done)

theorem length_slots (todo done : List (Nat × β)) (k : Nat) :
    (slots todo done k).length = (members (todo ++ done) k).length := by
  simp [slots, members_append]

theorem length_flatMap_slots (todo done : List (Nat × β)) (k : Nat) :
    ((List.range k).flatMap (slots todo done)).length = startOf (todo ++ done) k := by
  rw [startOf, List.length_flatMap, List.length_flatMap]
  simp only [length_slots]

variable {todo done : List (Nat × β)} {k : Nat} {b : β}

/-- An entry takes the last free place of its bucket. -/
theorem set_slots :
    (slots (todo ++ [(k, b)]) done k).set (members todo k).length (some b) =
      slots todo ((k, b) :: done) k := by
  have hfree : members (todo ++ [(k, b)]) k = members todo k ++ [b] := by
    rw [members_append, members_cons_self, members_nil]
  rw [slots, hfree, slots, members_cons_self, List.length_append, List.length_singleton,
    List.replicate_succ', List.append_assoc, List.set_append_right _ _ (by simp)]
  simp

theorem slots_of_ne {j : Nat} (h : k ≠ j) :
    slots (todo ++ [(k, b)]) done j = slots todo ((k, b) :: done) j := by
  rw [slots, slots, members_append, members_cons_of_ne h, members_cons_of_ne h, members_nil,
    List.append_nil]

/-- What one entry does to the places. -/
theorem put_halfway (hk : k < n) :
    (halfway n (todo ++ [(k, b)]) done).put (k, b) = .ok (halfway n todo ((k, b) :: done)) := by
  have hsplit : todo ++ [(k, b)] ++ done = todo ++ (k, b) :: done := by simp
  have hroom : members (todo ++ [(k, b)]) k = members todo k ++ [b] := by
    rw [members_append, members_cons_self, members_nil]
  have hend : (halfway n (todo ++ [(k, b)]) done).ends[k]? =
      some (startOf (todo ++ (k, b) :: done) k + (members todo k).length + 1) := by
    simp [halfway, hk, hsplit, hroom, Nat.add_assoc]
  have hplace : startOf (todo ++ (k, b) :: done) k =
      ((List.range k).flatMap (slots (todo ++ [(k, b)]) done)).length := by
    rw [length_flatMap_slots, hsplit]
  have hin : (members todo k).length < (slots (todo ++ [(k, b)]) done k).length := by
    simp only [slots, hroom, List.length_append, List.length_replicate, List.length_singleton,
      List.length_map]
    omega
  have hplaces : (halfway n (todo ++ [(k, b)]) done).places.set
      (startOf (todo ++ (k, b) :: done) k + (members todo k).length) (some b) =
        (halfway n todo ((k, b) :: done)).places := by
    rw [halfway, hplace, set_flatMap_range _ _ hk hin, set_slots]
    apply List.flatMap_congr
    intro j _
    by_cases hjk : j = k
    · rw [hjk, Function.update_self]
    · rw [Function.update_of_ne hjk, slots_of_ne (Ne.symm hjk)]
  have hends : (halfway n (todo ++ [(k, b)]) done).ends.set k
      (startOf (todo ++ (k, b) :: done) k + (members todo k).length) =
        (halfway n todo ((k, b) :: done)).ends := by
    rw [halfway, set_map_range, hsplit]
    apply List.map_congr_left
    intro j _
    by_cases hjk : j = k
    · rw [hjk, Function.update_self]
    · rw [Function.update_of_ne hjk, members_append, members_cons_of_ne (Ne.symm hjk), members_nil,
        List.append_nil]
  have hbound : startOf (todo ++ (k, b) :: done) k + (members todo k).length <
      (halfway n (todo ++ [(k, b)]) done).places.length := by
    rw [hplace]
    exact length_flatMap_range_lt _ hk hin
  simp only [Filling.put, hend, if_pos hbound, hplaces, hends]

/-- Before the first entry comes, every place is free. -/
theorem halfway_nil {keyed : List (Nat × β)} (h : ∀ r ∈ keyed, r.1 < n) :
    halfway n keyed [] =
      ⟨ends 0 (sizes n keyed), List.replicate keyed.length none⟩ := by
  have hends : (halfway n keyed []).ends = ends 0 (sizes n keyed) := by
    rw [ends_sizes, halfway, List.append_nil]
  have hplaces : (halfway n keyed []).places = List.replicate keyed.length none := by
    rw [List.eq_replicate_iff]
    constructor
    · rw [halfway, length_flatMap_slots, List.append_nil, startOf, flatMap_members h,
        List.length_map, List.length_mergeSort]
    · intro slot hslot
      obtain ⟨k, _, hk⟩ := List.mem_flatMap.mp hslot
      rw [slots, members_nil, List.map_nil, List.append_nil] at hk
      exact (List.mem_replicate.mp hk).2
  rw [← hends, ← hplaces]

/-- What all entries do to the places. -/
theorem fill_halfway (todo : List (Nat × β)) {keyed : List (Nat × β)}
    (h : ∀ r ∈ keyed, r.1 < n) :
    keyed.reverse.foldlM Filling.put (halfway n (todo ++ keyed) []) =
      .ok (halfway n todo keyed) := by
  induction keyed generalizing todo with
  | nil => simp [pure, Except.pure]
  | cons r keyed ih =>
      obtain ⟨k, b⟩ := r
      have hk : k < n := h (k, b) (by simp)
      have hrest := ih (todo ++ [(k, b)]) fun r hr => h r (List.mem_cons_of_mem _ hr)
      rw [List.append_assoc, List.singleton_append] at hrest
      rw [List.reverse_cons, List.foldlM_append, hrest]
      show [(k, b)].foldlM Filling.put _ = _
      rw [List.foldlM_cons, put_halfway hk]
      rfl

/-- After the last entry has come, every place holds an entry. -/
theorem places_halfway (n : Nat) (keyed : List (Nat × β)) :
    (halfway n [] keyed).places.mapM id = some ((List.range n).flatMap (members keyed)) := by
  have hslots : slots [] keyed = fun k => (members keyed k).map some := by
    funext k
    simp [slots]
  rw [mapM_id_eq_some_iff, halfway, hslots, List.map_flatMap]

/-- Sorting gives the number of entries of each key, and the entries of each
key in their order. -/
theorem sort_eq {keyed : List (Nat × β)} (h : ∀ r ∈ keyed, r.1 < n) :
    sort n keyed = .ok (sizes n keyed, (List.range n).flatMap (members keyed)) := by
  have hfill := fill_halfway [] h
  rw [List.nil_append, halfway_nil h] at hfill
  have hends : (halfway n [] keyed).ends = starts 0 (sizes n keyed) := by
    simp [halfway, starts_sizes]
  rw [sort, histogram_eq h]
  show (keyed.reverse.foldlM Filling.put _ >>= _) = _
  rw [hfill]
  show (if (halfway n [] keyed).ends ≠ _ then _ else _) = _
  rw [if_neg (not_not_intro hends), places_halfway]

end Buckets

end LeastSquares
