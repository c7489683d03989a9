import LeastSquares.Ascending
import Mathlib.Order.RelClasses
import Mathlib.Tactic.Tauto

/-!
# Members of ascending lists

Sets and tables kept as ascending lists are described by what they contain:
membership after an insertion or a removal is membership before it and one
change, and the order is kept. Looking a key up in an ascending table is
finding its entry.

## Main results

* `Ascending.mem_insert`, `Ascending.mem_erase` — sets as their members.
* `Table.find?_eq_some_iff` — looking up is membership.
* `Table.mem_put`, `Table.mem_erase` — tables as their entries.
* `Table.mem_foldl_put` — tables that are made of a list of entries.
-/

namespace LeastSquares

namespace Ascending

variable {K : Type} [LT K]

/-- The members stand in strictly ascending order. -/
def Sorted (l : List K) : Prop := l.Pairwise (· < ·)

section Order

variable [IsStrictTotalOrder K (· < ·)]

theorem eq_of_not_lt {a b : K} (h : ¬ a < b) (h' : ¬ b < a) : a = b := by
  rcases trichotomous_of (· < ·) a b with h1 | h1 | h1
  · exact absurd h1 h
  · exact h1
  · exact absurd h1 h'

theorem Sorted.nodup {l : List K} (h : Sorted l) : l.Nodup := by
  refine List.Pairwise.imp ?_ h
  intro a b hab hEq
  exact irrefl_of (· < ·) b (hEq ▸ hab)

end Order

variable [DecidableLT K]

theorem erase_sublist (k : K) (l : List K) : (erase k l).Sublist l := by
  induction l with
  | nil => exact .slnil
  | cons a l ih =>
      unfold erase
      split
      · exact .refl _
      · split
        · exact ih.cons_cons a
        · exact List.sublist_cons_self a l

theorem Sorted.erase {l : List K} (h : Sorted l) (k : K) : Sorted (Ascending.erase k l) :=
  h.sublist (erase_sublist k l)

variable [IsStrictTotalOrder K (· < ·)]

theorem mem_insert {k x : K} {l : List K} : x ∈ Ascending.insert k l ↔ x = k ∨ x ∈ l := by
  induction l with
  | nil => simp [Ascending.insert]
  | cons a l ih =>
      unfold Ascending.insert
      split
      · simp
      · rename_i hka
        split
        · simp only [List.mem_cons, ih]
          tauto
        · rename_i hak
          have hEq : k = a := eq_of_not_lt hka hak
          subst hEq
          simp

theorem Sorted.insert {l : List K} (h : Sorted l) (k : K) : Sorted (Ascending.insert k l) := by
  induction l with
  | nil => exact List.pairwise_singleton _ _
  | cons a l ih =>
      obtain ⟨ha, hl⟩ := List.pairwise_cons.mp h
      unfold Ascending.insert
      split
      · rename_i hka
        refine List.pairwise_cons.mpr ⟨?_, h⟩
        intro x hx
        rcases List.mem_cons.mp hx with rfl | hx
        · exact hka
        · exact trans_of (· < ·) hka (ha x hx)
      · split
        · rename_i hak
          refine List.pairwise_cons.mpr ⟨?_, ih hl⟩
          intro x hx
          rcases mem_insert.mp hx with rfl | hx
          · exact hak
          · exact ha x hx
        · exact h

theorem mem_erase {k x : K} {l : List K} (h : Sorted l) :
    x ∈ Ascending.erase k l ↔ x ≠ k ∧ x ∈ l := by
  induction l with
  | nil => simp [Ascending.erase]
  | cons a l ih =>
      obtain ⟨ha, hl⟩ := List.pairwise_cons.mp h
      unfold Ascending.erase
      split
      · -- the key lies in front of everything, so it is no member
        rename_i hka
        refine ⟨fun hx => ⟨?_, hx⟩, And.right⟩
        rintro rfl
        rcases List.mem_cons.mp hx with rfl | hx
        · exact irrefl_of (· < ·) _ hka
        · exact asymm_of (· < ·) hka (ha x hx)
      · rename_i hka
        split
        · rename_i hak
          simp only [List.mem_cons, ih hl]
          constructor
          · rintro (rfl | ⟨hxk, hx⟩)
            · exact ⟨fun hEq => irrefl_of (· < ·) k (hEq ▸ hak), .inl rfl⟩
            · exact ⟨hxk, .inr hx⟩
          · rintro ⟨hxk, rfl | hx⟩
            · exact .inl rfl
            · exact .inr ⟨hxk, hx⟩
        · rename_i hak
          have hEq : k = a := eq_of_not_lt hka hak
          subst hEq
          constructor
          · intro hx
            exact ⟨fun hEq => irrefl_of (· < ·) k (hEq ▸ ha x hx), List.mem_cons_of_mem _ hx⟩
          · rintro ⟨hxk, hx⟩
            exact (List.mem_cons.mp hx).resolve_left hxk

theorem mem_foldl_insert {x : K} (l set : List K) :
    x ∈ l.foldl (fun set k => Ascending.insert k set) set ↔ x ∈ l ∨ x ∈ set := by
  induction l generalizing set with
  | nil => simp
  | cons a l ih =>
      rw [List.foldl_cons, ih, mem_insert, List.mem_cons]
      tauto

/-- A set has the members of the list it was made of. -/
theorem mem_ofList {x : K} {l : List K} : x ∈ ofList l ↔ x ∈ l := by
  rw [ofList, mem_foldl_insert]
  simp

theorem sorted_ofList (l : List K) : Sorted (ofList l) := by
  suffices h : ∀ set : List K, Sorted set →
      Sorted (l.foldl (fun set k => Ascending.insert k set) set) from h [] .nil
  induction l with
  | nil => exact fun set h => h
  | cons a l ih => exact fun set h => ih _ (h.insert a)

end Ascending

namespace Table

variable {K V : Type} [LT K]

/-- The keys stand in strictly ascending order. -/
def Sorted (t : Table K V) : Prop := Ascending.Sorted t.keys

theorem Sorted.head_lt {k : K} {v : V} {t : Table K V} (h : Sorted ((k, v) :: t)) :
    ∀ x w, (x, w) ∈ t → k < x := by
  intro x w hx
  exact (List.pairwise_cons.mp h).1 x (List.mem_map.mpr ⟨(x, w), hx, rfl⟩)

theorem Sorted.tail {e : K × V} {t : Table K V} (h : Sorted (e :: t)) : Sorted t :=
  (List.pairwise_cons.mp h).2

theorem sorted_cons {k : K} {v : V} {t : Table K V} (hk : ∀ x w, (x, w) ∈ t → k < x)
    (h : t.Sorted) : Sorted ((k, v) :: t) := by
  refine List.pairwise_cons.mpr ⟨?_, h⟩
  intro x hx
  obtain ⟨⟨y, w⟩, hy, rfl⟩ := List.mem_map.mp hx
  exact hk y w hy

section Order

variable [IsStrictTotalOrder K (· < ·)]

theorem Sorted.ne_head {a x : K} {u w : V} {t : Table K V} (h : Sorted ((a, u) :: t))
    (hm : (x, w) ∈ t) : x ≠ a := by
  rintro rfl
  exact irrefl_of (· < ·) x (h.head_lt x w hm)

/-- A key that lies in front of everything is the key of no entry. -/
theorem Sorted.ne_of_lt_head {a k x : K} {u w : V} {t : Table K V} (h : Sorted ((a, u) :: t))
    (hka : k < a) (hm : (x, w) ∈ (a, u) :: t) : x ≠ k := by
  rintro rfl
  rcases List.mem_cons.mp hm with hm | hm
  · cases hm
    exact irrefl_of (· < ·) _ hka
  · exact asymm_of (· < ·) hka (h.head_lt x w hm)

end Order

variable [DecidableLT K]

theorem erase_sublist (k : K) (t : Table K V) : (t.erase k).Sublist t := by
  induction t with
  | nil => exact .slnil
  | cons a t ih =>
      unfold Table.erase
      split
      · exact .refl _
      · split
        · exact ih.cons_cons a
        · exact List.sublist_cons_self a t

theorem Sorted.erase {t : Table K V} (h : t.Sorted) (k : K) : (Table.erase k t).Sorted :=
  List.Pairwise.sublist ((erase_sublist k t).map Prod.fst) h

/-- A key that is lower than all others comes first. -/
theorem put_eq_cons {t : Table K V} {k : K} {v : V} (h : ∀ x w, (x, w) ∈ t → k < x) :
    t.put k v = (k, v) :: t := by
  cases t with
  | nil => rfl
  | cons e t =>
      obtain ⟨a, w⟩ := e
      rw [Table.put, if_pos (h a w List.mem_cons_self)]

/-- Entries that are put with descending keys stand backwards. -/
theorem foldl_put_eq_reverse {l : List (K × V)} (h : l.Pairwise fun a b => b.1 < a.1) :
    l.foldl (fun t e => Table.put e.1 e.2 t) [] = l.reverse := by
  suffices hs : ∀ t : Table K V, (∀ a ∈ l, ∀ x w, (x, w) ∈ t → a.1 < x) →
      l.foldl (fun t e => Table.put e.1 e.2 t) t = l.reverse ++ t by
    rw [hs [] nofun, List.append_nil]
  induction l with
  | nil => exact fun t _ => rfl
  | cons e l ih =>
      obtain ⟨hhead, htail⟩ := List.pairwise_cons.mp h
      intro t ht
      rw [List.foldl_cons, put_eq_cons (ht e List.mem_cons_self), ih htail, List.reverse_cons,
        List.append_assoc, List.singleton_append]
      intro a ha x w hx
      rcases List.mem_cons.mp hx with hx | hx
      · cases hx
        exact hhead a ha
      · exact ht a (List.mem_cons_of_mem e ha) x w hx

variable [IsStrictTotalOrder K (· < ·)]

/-- Looking a key up finds its entry. -/
theorem find?_eq_some_iff {t : Table K V} (h : t.Sorted) {k : K} {v : V} :
    t.find? k = some v ↔ (k, v) ∈ t := by
  induction t with
  | nil => simp [Table.find?]
  | cons e t ih =>
      obtain ⟨a, w⟩ := e
      unfold Table.find?
      split
      · rename_i hka
        simp only [reduceCtorEq, false_iff]
        exact fun hm => h.ne_of_lt_head hka hm rfl
      · rename_i hka
        split
        · rename_i hak
          rw [ih h.tail, List.mem_cons, Prod.mk.injEq]
          refine ⟨.inr, fun hm => hm.resolve_left ?_⟩
          rintro ⟨rfl, -⟩
          exact irrefl_of (· < ·) _ hak
        · rename_i hak
          have hEq : k = a := Ascending.eq_of_not_lt hka hak
          subst hEq
          simp only [Option.some.injEq, List.mem_cons, Prod.mk.injEq, true_and]
          refine ⟨fun hw => .inl hw.symm, ?_⟩
          rintro (rfl | hm)
          · rfl
          · exact absurd (h.head_lt k v hm) (irrefl_of (· < ·) _)

/-- The entries of a table with a value put under a key. -/
theorem mem_put {t : Table K V} (h : t.Sorted) {k x : K} {v w : V} :
    (x, w) ∈ t.put k v ↔ x = k ∧ w = v ∨ x ≠ k ∧ (x, w) ∈ t := by
  induction t with
  | nil => simp [Table.put]
  | cons e t ih =>
      obtain ⟨a, u⟩ := e
      unfold Table.put
      split
      · rename_i hka
        rw [List.mem_cons, Prod.mk.injEq]
        exact or_congr_right ⟨fun hm => ⟨h.ne_of_lt_head hka hm, hm⟩, And.right⟩
      · rename_i hka
        split
        · rename_i hak
          have hak' : a ≠ k := fun hEq => irrefl_of (· < ·) k (hEq ▸ hak)
          simp only [List.mem_cons, Prod.mk.injEq, ih h.tail]
          constructor
          · rintro (⟨rfl, rfl⟩ | ⟨rfl, rfl⟩ | ⟨hxk, hm⟩)
            · exact .inr ⟨hak', .inl ⟨rfl, rfl⟩⟩
            · exact .inl ⟨rfl, rfl⟩
            · exact .inr ⟨hxk, .inr hm⟩
          · rintro (⟨rfl, rfl⟩ | ⟨hxk, ⟨rfl, rfl⟩ | hm⟩)
            · exact .inr (.inl ⟨rfl, rfl⟩)
            · exact .inl ⟨rfl, rfl⟩
            · exact .inr (.inr ⟨hxk, hm⟩)
        · rename_i hak
          have hEq : k = a := Ascending.eq_of_not_lt hka hak
          subst hEq
          simp only [List.mem_cons, Prod.mk.injEq]
          constructor
          · rintro (⟨rfl, rfl⟩ | hm)
            · exact .inl ⟨rfl, rfl⟩
            · exact .inr ⟨h.ne_head hm, .inr hm⟩
          · rintro (⟨rfl, rfl⟩ | ⟨hxk, ⟨rfl, -⟩ | hm⟩)
            · exact .inl ⟨rfl, rfl⟩
            · exact absurd rfl hxk
            · exact .inr hm

theorem Sorted.put {t : Table K V} (h : t.Sorted) (k : K) (v : V) :
    (Table.put k v t).Sorted := by
  induction t with
  | nil => exact List.pairwise_singleton _ _
  | cons e t ih =>
      obtain ⟨a, u⟩ := e
      unfold Table.put
      split
      · rename_i hka
        refine sorted_cons (fun x w hm => ?_) h
        rcases List.mem_cons.mp hm with hm | hm
        · cases hm
          exact hka
        · exact trans_of (· < ·) hka (h.head_lt x w hm)
      · split
        · rename_i hak
          refine sorted_cons (fun x w hm => ?_) (ih h.tail)
          rcases (mem_put h.tail).mp hm with ⟨rfl, -⟩ | ⟨-, hm⟩
          · exact hak
          · exact h.head_lt x w hm
        · exact sorted_cons h.head_lt h.tail

/-- The entries of a table without a key. -/
theorem mem_erase {t : Table K V} (h : t.Sorted) {k x : K} {w : V} :
    (x, w) ∈ t.erase k ↔ x ≠ k ∧ (x, w) ∈ t := by
  induction t with
  | nil => simp [Table.erase]
  | cons e t ih =>
      obtain ⟨a, u⟩ := e
      unfold Table.erase
      split
      · rename_i hka
        exact ⟨fun hm => ⟨h.ne_of_lt_head hka hm, hm⟩, And.right⟩
      · rename_i hka
        split
        · rename_i hak
          have hak' : a ≠ k := fun hEq => irrefl_of (· < ·) k (hEq ▸ hak)
          simp only [List.mem_cons, Prod.mk.injEq, ih h.tail]
          constructor
          · rintro (⟨rfl, rfl⟩ | ⟨hxk, hm⟩)
            · exact ⟨hak', .inl ⟨rfl, rfl⟩⟩
            · exact ⟨hxk, .inr hm⟩
          · rintro ⟨hxk, ⟨rfl, rfl⟩ | hm⟩
            · exact .inl ⟨rfl, rfl⟩
            · exact .inr ⟨hxk, hm⟩
        · rename_i hak
          have hEq : k = a := Ascending.eq_of_not_lt hka hak
          subst hEq
          constructor
          · exact fun hm => ⟨h.ne_head hm, List.mem_cons_of_mem _ hm⟩
          · rintro ⟨hxk, hm⟩
            rcases List.mem_cons.mp hm with hm | hm
            · cases hm
              exact absurd rfl hxk
            · exact hm

/-- Looking a key up finds the first entry with this key. -/
theorem find?_eq [DecidableEq K] {t : Table K V} (h : t.Sorted) (k : K) :
    Table.find? k t = (List.find? (fun e => e.1 == k) t).map Prod.snd := by
  refine Option.ext fun v => ?_
  rw [find?_eq_some_iff h]
  cases hfind : List.find? (fun e => e.1 == k) t with
  | none =>
      have hnone := List.find?_eq_none.mp hfind
      exact ⟨fun hm => absurd (beq_self_eq_true k) (hnone _ hm), nofun⟩
  | some e =>
      obtain ⟨x, w⟩ := e
      have hx : x = k := eq_of_beq (List.find?_some (p := fun e : K × V => e.1 == k) hfind)
      subst hx
      have hw := (find?_eq_some_iff h).mpr (List.mem_of_find?_eq_some hfind)
      rw [← find?_eq_some_iff h, hw]
      rfl

theorem find?_eq_none_iff {t : Table K V} (h : t.Sorted) {k : K} :
    t.find? k = none ↔ ∀ v, (k, v) ∉ t := by
  simp only [Option.eq_none_iff_forall_ne_some, ne_eq, find?_eq_some_iff h]

theorem find?_put_self {t : Table K V} (h : t.Sorted) {k : K} {v : V} :
    (t.put k v).find? k = some v := by
  rw [find?_eq_some_iff (h.put k v), mem_put h]
  exact .inl ⟨rfl, rfl⟩

theorem find?_put_of_ne {t : Table K V} (h : t.Sorted) {k x : K} {v : V} (hx : x ≠ k) :
    (t.put k v).find? x = t.find? x := by
  ext w
  rw [find?_eq_some_iff (h.put k v), mem_put h, find?_eq_some_iff h]
  simp [hx]

theorem find?_erase_self {t : Table K V} (h : t.Sorted) {k : K} :
    (t.erase k).find? k = none := by
  rw [find?_eq_none_iff (h.erase k)]
  intro v hv
  exact ((mem_erase h).mp hv).1 rfl

theorem find?_erase_of_ne {t : Table K V} (h : t.Sorted) {k x : K} (hx : x ≠ k) :
    (t.erase k).find? x = t.find? x := by
  ext w
  rw [find?_eq_some_iff (h.erase k), mem_erase h, find?_eq_some_iff h]
  simp [hx]

theorem sorted_foldl_put (l : List (K × V)) {t : Table K V} (h : t.Sorted) :
    Sorted (l.foldl (fun t e => Table.put e.1 e.2 t) t) := by
  induction l generalizing t with
  | nil => exact h
  | cons e l ih => exact ih (h.put e.1 e.2)

/-- A table into which a list of entries is put has these, and what it had
under other keys. -/
theorem mem_foldl_put {l : List (K × V)} (hl : (l.map Prod.fst).Nodup) {t : Table K V}
    (h : t.Sorted) {x : K} {w : V} :
    (x, w) ∈ l.foldl (fun t e => Table.put e.1 e.2 t) t ↔
      (x, w) ∈ l ∨ x ∉ l.map Prod.fst ∧ (x, w) ∈ t := by
  induction l generalizing t with
  | nil => simp
  | cons e l ih =>
      obtain ⟨k, v⟩ := e
      rw [List.map_cons, List.nodup_cons] at hl
      rw [List.foldl_cons, ih hl.2 (h.put k v), mem_put h]
      have hk : ∀ u, (k, u) ∉ l := fun u hu => hl.1 (List.mem_map.mpr ⟨_, hu, rfl⟩)
      by_cases hx : x = k
      · subst hx
        simp [hk, hl.1]
      · simp [hx]

/-- An ascending table has one entry for a key. -/
theorem Sorted.unique {t : Table K V} (h : t.Sorted) {k : K} {v w : V} (hv : (k, v) ∈ t)
    (hw : (k, w) ∈ t) : v = w := by
  have h1 := (find?_eq_some_iff h).mpr hv
  rw [(find?_eq_some_iff h).mpr hw] at h1
  cases h1
  rfl

end Table

end LeastSquares
