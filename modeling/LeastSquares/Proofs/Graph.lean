import LeastSquares.Problem.Graph
import LeastSquares.Proofs.Ascending
import LeastSquares.Proofs.EliminationOrder
import LeastSquares.Proofs.Problem
import Mathlib.Data.List.Pairwise

/-!
# Independent sets

Vertices are chosen one by one, and the neighbours of a chosen vertex are
excluded from then on. The colours of the vertices say just that: a vertex
that has not been visited is white or grey, and grey if it is excluded.
Edges are listed at both ends, so no two vertices that are chosen are
adjacent, whichever was chosen first. The set has a vertex if the graph has
one.

## Main definitions

* `Graph.Adjacent` — a vertex is listed among the neighbours of another.
* `Graph.choose` — the choice with a list of what is excluded.

## Main results

* `Graph.independentOrder_eq` — colours and exclusion choose the same.
* `Graph.pairwise_choose` — what is chosen is independent.
* `Graph.Ordered.independentOrder_perm` — the chosen vertices and the rest are all.
* `Program.graph_eq_ok` — vertices and edges of the graph of a program.
-/

namespace LeastSquares

namespace Graph

variable {g : Graph} {a b v w x y : BlockId}

/-- The second block is listed among the neighbours of the first. -/
def Adjacent (g : Graph) (a b : BlockId) : Prop := b ∈ g.neighboursOf a

/-- Vertices, lists of neighbours and the neighbours in each list stand in
handle order. -/
structure Ordered (g : Graph) : Prop where
  vertices : Ascending.Sorted g.vertices
  neighbours : g.neighbours.Sorted
  sets : ∀ v, Ascending.Sorted (g.neighboursOf v)

theorem ordered_empty : empty.Ordered := ⟨.nil, .nil, fun _ => .nil⟩

/-! ## Building graphs -/

theorem hasVertex_iff : g.hasVertex v = true ↔ v ∈ g.vertices := by
  simp [hasVertex]

theorem mem_vertices_addVertex : w ∈ (g.addVertex v).vertices ↔ w = v ∨ w ∈ g.vertices := by
  unfold addVertex
  split
  · rename_i hv
    rw [hasVertex_iff] at hv
    constructor
    · exact .inr
    · rintro (rfl | hw)
      · exact hv
      · exact hw
  · exact Ascending.mem_insert

/-- A new vertex has no neighbours, and an old one keeps them. -/
theorem Ordered.neighboursOf_addVertex (h : g.Ordered) : (g.addVertex v).neighboursOf w =
    if w = v ∧ v ∉ g.vertices then [] else g.neighboursOf w := by
  unfold Graph.addVertex
  by_cases hv : v ∈ g.vertices
  · simp [hv, hasVertex_iff]
  · by_cases hw : w = v
    · subst hw
      simp [hv, hasVertex_iff, neighboursOf, Table.find?_put_self h.neighbours]
    · simp [hv, hw, hasVertex_iff, neighboursOf, Table.find?_put_of_ne h.neighbours hw]

theorem Ordered.addVertex (h : g.Ordered) (v : BlockId) : (g.addVertex v).Ordered := by
  constructor
  · unfold Graph.addVertex
    split
    · exact h.vertices
    · exact h.vertices.insert v
  · unfold Graph.addVertex
    split
    · exact h.neighbours
    · exact h.neighbours.put v []
  · intro w
    rw [h.neighboursOf_addVertex]
    split
    · exact .nil
    · exact h.sets w

theorem mem_link {t : Table BlockId (List BlockId)} (h : t.Sorted) :
    y ∈ ((link a b t).find? x).getD [] ↔ x = a ∧ y = b ∨ y ∈ (t.find? x).getD [] := by
  unfold link
  by_cases hx : x = a
  · subst hx
    rw [Table.find?_put_self h, Option.getD_some, Ascending.mem_insert]
    simp
  · rw [Table.find?_put_of_ne h hx]
    simp [hx]

theorem sorted_link {t : Table BlockId (List BlockId)} (h : t.Sorted)
    (hs : ∀ x, Ascending.Sorted ((t.find? x).getD [])) :
    Ascending.Sorted (((link a b t).find? x).getD []) := by
  unfold link
  by_cases hx : x = a
  · subst hx
    rw [Table.find?_put_self h]
    exact (hs x).insert b
  · rw [Table.find?_put_of_ne h hx]
    exact hs x

theorem Ordered.addEdge (h : g.Ordered) (a b : BlockId) : (g.addEdge a b).Ordered := by
  unfold Graph.addEdge
  split
  · exact h
  · have hlink : (link a b g.neighbours).Sorted := h.neighbours.put _ _
    exact ⟨h.vertices, hlink.put _ _, fun v => sorted_link hlink fun w =>
      sorted_link h.neighbours h.sets⟩

theorem vertices_addEdge : (g.addEdge a b).vertices = g.vertices := by
  unfold addEdge
  split <;> rfl

/-- An edge is listed at both ends. -/
theorem adjacent_addEdge (h : g.Ordered) : (g.addEdge a b).Adjacent x y ↔
    g.Adjacent x y ∨ a ≠ b ∧ a ∈ g.vertices ∧ b ∈ g.vertices ∧
      (x = a ∧ y = b ∨ x = b ∧ y = a) := by
  unfold addEdge
  split
  · rename_i hno
    simp only [Bool.or_eq_true, decide_eq_true_eq, Bool.not_eq_true', ← Bool.not_eq_true,
      hasVertex_iff] at hno
    tauto
  · rename_i hyes
    simp only [Bool.or_eq_true, decide_eq_true_eq, Bool.not_eq_true', ← Bool.not_eq_true,
      hasVertex_iff, not_or, not_not] at hyes
    obtain ⟨⟨hab, ha⟩, hb⟩ := hyes
    have hlink : (link a b g.neighbours).Sorted := h.neighbours.put _ _
    simp only [Adjacent, neighboursOf]
    rw [mem_link hlink, mem_link h.neighbours]
    tauto

private theorem ordered_addEdges (h : g.Ordered) (es : List (BlockId × BlockId)) :
    (es.foldl (fun g (a, b) => g.addEdge a b) g).Ordered := by
  induction es generalizing g with
  | nil => exact h
  | cons e es ih => exact ih (h.addEdge e.1 e.2)

private theorem vertices_addEdges (es : List (BlockId × BlockId)) :
    (es.foldl (fun g (a, b) => g.addEdge a b) g).vertices = g.vertices := by
  induction es generalizing g with
  | nil => rfl
  | cons e es ih => exact ih.trans vertices_addEdge

theorem adjacent_addEdges (h : g.Ordered) {es : List (BlockId × BlockId)} :
    (es.foldl (fun g (a, b) => g.addEdge a b) g).Adjacent x y ↔
      g.Adjacent x y ∨ x ≠ y ∧ x ∈ g.vertices ∧ y ∈ g.vertices ∧
        ((x, y) ∈ es ∨ (y, x) ∈ es) := by
  induction es generalizing g with
  | nil => simp
  | cons e es ih =>
      obtain ⟨a, b⟩ := e
      rw [List.foldl_cons, ih (h.addEdge a b), adjacent_addEdge h, vertices_addEdge]
      simp only [List.mem_cons, Prod.mk.injEq]
      constructor
      · rintro ((hadj | ⟨hab, ha, hb, ⟨rfl, rfl⟩ | ⟨rfl, rfl⟩⟩) | ⟨hxy, hx, hy, hes⟩)
        · exact .inl hadj
        · exact .inr ⟨hab, ha, hb, .inl (.inl ⟨rfl, rfl⟩)⟩
        · exact .inr ⟨hab.symm, hb, ha, .inr (.inl ⟨rfl, rfl⟩)⟩
        · exact .inr ⟨hxy, hx, hy, hes.imp .inr .inr⟩
      · rintro (hadj | ⟨hxy, hx, hy, (⟨rfl, rfl⟩ | hes) | ⟨rfl, rfl⟩ | hes⟩)
        · exact .inl (.inl hadj)
        · exact .inl (.inr ⟨hxy, hx, hy, .inl ⟨rfl, rfl⟩⟩)
        · exact .inr ⟨hxy, hx, hy, .inl hes⟩
        · exact .inl (.inr ⟨hxy.symm, hy, hx, .inr ⟨rfl, rfl⟩⟩)
        · exact .inr ⟨hxy, hx, hy, .inr hes⟩

/-! ## Removing vertices -/

section Unlink

variable {t : Table BlockId (List BlockId)} {n : BlockId}

theorem sorted_unlink (h : t.Sorted) (v n : BlockId) : (unlink v t n).Sorted := by
  unfold unlink
  split
  · exact h
  · exact h.put n _

theorem getD_unlink (h : t.Sorted) : ((unlink v t n).find? x).getD [] =
    if x = n then Ascending.erase v ((t.find? n).getD []) else (t.find? x).getD [] := by
  unfold unlink
  by_cases hx : x = n
  · subst hx
    cases hf : t.find? x with
    | none => simp [hf, Ascending.erase]
    | some ns => simp [Table.find?_put_self h]
  · cases hf : t.find? n with
    | none => simp [hx]
    | some ns => simp [hx, Table.find?_put_of_ne h hx]

/-- A block is taken off the lists of some others, and of no more. -/
theorem foldl_unlink (h : t.Sorted) (hs : ∀ x, Ascending.Sorted ((t.find? x).getD []))
    (ns : List BlockId) : Table.Sorted (ns.foldl (unlink v) t) ∧
      ∀ x, Ascending.Sorted ((Table.find? x (ns.foldl (unlink v) t)).getD []) ∧
        ∀ y, y ∈ (Table.find? x (ns.foldl (unlink v) t)).getD [] ↔
          y ∈ (t.find? x).getD [] ∧ ¬ (y = v ∧ x ∈ ns) := by
  induction ns generalizing t with
  | nil => exact ⟨h, fun x => ⟨hs x, by simp⟩⟩
  | cons n ns ih =>
      have hone : ∀ x, Ascending.Sorted (((unlink v t n).find? x).getD []) := by
        intro x
        rw [getD_unlink h]
        split
        · exact (hs n).erase v
        · exact hs x
      obtain ⟨hsorted, hmem⟩ := ih (sorted_unlink h v n) hone
      refine ⟨hsorted, fun x => ⟨(hmem x).1, fun y => ?_⟩⟩
      rw [List.foldl_cons, (hmem x).2, getD_unlink h]
      by_cases hx : x = n
      · subst hx
        rw [if_pos rfl, Ascending.mem_erase (hs x)]
        simp
        tauto
      · simp [hx]

end Unlink

theorem Ordered.mem_vertices_removeVertex (h : g.Ordered) :
    w ∈ (g.removeVertex v).vertices ↔ w ≠ v ∧ w ∈ g.vertices := by
  unfold Graph.removeVertex
  split
  · exact Ascending.mem_erase h.vertices
  · rename_i hv
    rw [hasVertex_iff] at hv
    constructor
    · intro hw
      refine ⟨?_, hw⟩
      rintro rfl
      exact hv hw
    · exact And.right

private theorem Ordered.getD_erase (h : g.Ordered) (v x : BlockId) :
    ((g.neighbours.erase v).find? x).getD [] = if x = v then [] else g.neighboursOf x := by
  by_cases hx : x = v
  · subst hx
    simp [Table.find?_erase_self h.neighbours]
  · simp [hx, Table.find?_erase_of_ne h.neighbours hx, neighboursOf]

private theorem Ordered.sorted_getD_erase (h : g.Ordered) (v x : BlockId) :
    Ascending.Sorted (((g.neighbours.erase v).find? x).getD []) := by
  rw [h.getD_erase]
  split
  · exact .nil
  · exact h.sets x

theorem Ordered.removeVertex (h : g.Ordered) (v : BlockId) : (g.removeVertex v).Ordered := by
  unfold Graph.removeVertex
  split
  · obtain ⟨hsorted, hsets⟩ := foldl_unlink (v := v) (h.neighbours.erase v)
      (h.sorted_getD_erase v) (g.neighboursOf v)
    exact ⟨h.vertices.erase v, hsorted, fun x => (hsets x).1⟩
  · exact h

/-- A vertex that is removed has no neighbours, and is gone from the lists of
those that it had. -/
theorem Ordered.adjacent_removeVertex (h : g.Ordered) (hv : v ∈ g.vertices) :
    (g.removeVertex v).Adjacent x y ↔
      x ≠ v ∧ g.Adjacent x y ∧ ¬ (y = v ∧ g.Adjacent v x) := by
  obtain ⟨-, hsets⟩ := foldl_unlink (v := v) (h.neighbours.erase v) (h.sorted_getD_erase v)
    (g.neighboursOf v)
  unfold Graph.removeVertex
  rw [if_pos (hasVertex_iff.mpr hv)]
  show y ∈ (Table.find? x _).getD [] ↔ _
  rw [(hsets x).2, h.getD_erase]
  by_cases hx : x = v
  · simp [hx]
  · simp [hx, Adjacent]

/-- Vertices that are left are still adjacent. -/
theorem Ordered.adjacent_removeVertex_of_ne (h : g.Ordered) (hx : x ≠ v) (hy : y ≠ v)
    (hadj : g.Adjacent x y) : (g.removeVertex v).Adjacent x y := by
  by_cases hv : v ∈ g.vertices
  · rw [h.adjacent_removeVertex hv]
    simp [hx, hy, hadj]
  · rw [Graph.removeVertex, if_neg (mt hasVertex_iff.mp hv)]
    exact hadj

/-! ## Choosing vertices -/

/-- The vertices of a list that have no neighbour among the ones chosen
before them; `excluded` holds the neighbours of earlier choices. -/
def choose (g : Graph) (excluded : List BlockId) : List BlockId → List BlockId
  | [] => []
  | v :: rest =>
      if excluded.contains v then g.choose excluded rest
      else v :: g.choose (g.neighboursOf v ++ excluded) rest

theorem choose_sublist (g : Graph) (excluded l : List BlockId) :
    (g.choose excluded l).Sublist l := by
  induction l generalizing excluded with
  | nil => exact .slnil
  | cons v l ih =>
      rw [choose]
      split
      · exact (ih _).cons v
      · exact (ih _).cons_cons v

theorem not_mem_excluded {excluded l : List BlockId} (h : v ∈ g.choose excluded l) :
    v ∉ excluded := by
  induction l generalizing excluded with
  | nil => cases h
  | cons w l ih =>
      rw [choose] at h
      split at h
      · exact ih h
      · rename_i hw
        rcases List.mem_cons.mp h with rfl | h
        · simpa using hw
        · exact fun hv => ih h (List.mem_append.mpr (.inr hv))

/-- No vertex is adjacent to one that was chosen before it. -/
theorem pairwise_choose (g : Graph) (excluded l : List BlockId) :
    (g.choose excluded l).Pairwise fun v w => ¬ g.Adjacent v w := by
  induction l generalizing excluded with
  | nil => exact .nil
  | cons v l ih =>
      rw [choose]
      split
      · exact ih _
      · refine List.pairwise_cons.mpr ⟨fun w hw hadj => ?_, ih _⟩
        exact not_mem_excluded hw (List.mem_append.mpr (.inl hadj))

/-! ## Colours -/

section Colours

variable {t : Table BlockId Colour} {u : BlockId}

theorem sorted_ruleOut (h : t.Sorted) (v : BlockId) : (ruleOut t v).Sorted := by
  unfold ruleOut
  split
  · exact h.put v .grey
  · exact h

theorem find?_ruleOut (h : t.Sorted) : (ruleOut t v).find? u =
    if u = v ∧ t.find? u = some .white then some .grey else t.find? u := by
  unfold ruleOut
  by_cases hu : u = v
  · subst hu
    by_cases hw : t.find? u = some .white
    · simp [hw, Table.find?_put_self h]
    · simp [hw]
  · by_cases hw : t.find? v = some .white
    · simp [hw, hu, Table.find?_put_of_ne h hu]
    · simp [hw, hu]

/-- Neighbours that were not settled are ruled out, and nothing else
changes. -/
theorem find?_foldl_ruleOut (h : t.Sorted) (ns : List BlockId) :
    Table.Sorted (ns.foldl ruleOut t) ∧ ∀ u, Table.find? u (ns.foldl ruleOut t) =
      if u ∈ ns ∧ t.find? u = some .white then some .grey else t.find? u := by
  induction ns generalizing t with
  | nil => exact ⟨h, by simp⟩
  | cons n ns ih =>
      obtain ⟨hsorted, hfind⟩ := ih (sorted_ruleOut h n)
      refine ⟨hsorted, fun u => ?_⟩
      rw [List.foldl_cons, hfind, find?_ruleOut h]
      by_cases hw : t.find? u = some .white
      · by_cases hn : u = n
        · subst hn
          simp [hw]
        · simp [hn, hw]
      · simp [hw]

/-- Vertices that are still to be visited are grey if they are excluded and
white if not. Then the colours lead to the choice that exclusion leads to, and
what was chosen is black. -/
theorem colour_eq (excluded : List BlockId) {l : List BlockId} (hl : l.Nodup) (h : t.Sorted)
    (hcolours : ∀ v ∈ l, t.find? v = some (if v ∈ excluded then .grey else .white)) :
    (g.colour t l).1 = g.choose excluded l ∧
      ∀ u, (g.colour t l).2.find? u = some .black ↔
        u ∈ g.choose excluded l ∨ t.find? u = some .black := by
  induction l generalizing t excluded with
  | nil => exact ⟨rfl, by simp [colour, choose]⟩
  | cons v l ih =>
      obtain ⟨hv, hl⟩ := List.nodup_cons.mp hl
      have hcolour := hcolours v List.mem_cons_self
      rw [colour, choose]
      by_cases hex : v ∈ excluded
      · have hskip := ih excluded hl h fun w hw => hcolours w (List.mem_cons_of_mem v hw)
        simpa [hcolour, hex] using hskip
      · obtain ⟨hsorted, hfind⟩ := find?_foldl_ruleOut (h.put v .black) (g.neighboursOf v)
        have hnext : ∀ w ∈ l, Table.find? w ((g.neighboursOf v).foldl ruleOut (t.put v .black)) =
            some (if w ∈ g.neighboursOf v ++ excluded then .grey else .white) := by
          intro w hw
          have hwv : w ≠ v := by
            rintro rfl
            exact hv hw
          rw [hfind, Table.find?_put_of_ne h hwv, hcolours w (List.mem_cons_of_mem v hw)]
          by_cases hn : w ∈ g.neighboursOf v <;> by_cases he : w ∈ excluded <;> simp [hn, he]
        obtain ⟨hchosen, hblack⟩ := ih (g.neighboursOf v ++ excluded) hl hsorted hnext
        simp only [hcolour, hex, if_false, if_true, List.contains_iff_mem]
        refine ⟨congrArg (v :: ·) hchosen, fun u => ?_⟩
        have hput : Table.find? u ((g.neighboursOf v).foldl ruleOut (t.put v .black)) =
            some .black ↔ u = v ∨ t.find? u = some .black := by
          rw [hfind]
          by_cases hu : u = v
          · subst hu
            simp [Table.find?_put_self h]
          · rw [Table.find?_put_of_ne h hu]
            by_cases hw : t.find? u = some .white
            · by_cases hn : u ∈ g.neighboursOf v <;> simp [hu, hw, hn]
            · simp [hu, hw]
        rw [hblack, hput, List.mem_cons]
        tauto

end Colours

theorem byDegree_perm (g : Graph) : g.byDegree.Perm g.vertices := List.mergeSort_perm _ _

/-- The chosen vertices and then the others, and the number of the chosen
ones. -/
theorem independentOrder_eq (h : g.vertices.Nodup) : g.independentOrder =
    (g.choose [] g.byDegree ++ g.byDegree.filter fun v => !(g.choose [] g.byDegree).contains v,
      (g.choose [] g.byDegree).length) := by
  have hn : g.byDegree.Nodup := g.byDegree_perm.nodup_iff.mpr h
  have hempty : Table.Sorted ([] : Table BlockId Colour) := .nil
  -- at first every vertex is white
  have hmap : g.byDegree.foldl (fun t v => Table.put v Colour.white t) [] =
      (g.byDegree.map fun v => (v, Colour.white)).foldl (fun t e => Table.put e.1 e.2 t) [] := by
    rw [List.foldl_map]
  have hkeys : ((g.byDegree.map fun v => (v, Colour.white)).map Prod.fst).Nodup := by
    simpa [List.map_map, Function.comp_def] using hn
  have hsorted := Table.sorted_foldl_put (g.byDegree.map fun v => (v, Colour.white)) hempty
  have hwhite : ∀ v c, Table.find? v (g.byDegree.foldl (fun t v => Table.put v Colour.white t) []) =
      some c ↔ v ∈ g.byDegree ∧ c = .white := by
    intro v c
    rw [hmap, Table.find?_eq_some_iff hsorted, Table.mem_foldl_put hkeys hempty]
    simp [eq_comm]
  rw [← hmap] at hsorted
  obtain ⟨hchosen, hblack⟩ := colour_eq (g := g) [] hn hsorted fun v hv => by
    simpa using (hwhite v .white).mpr ⟨hv, rfl⟩
  simp only [independentOrder, hchosen, Prod.mk.injEq, List.append_cancel_left_eq, and_true]
  refine List.filter_congr fun v _ => ?_
  have hiff := hblack v
  rw [hwhite] at hiff
  simp only [reduceCtorEq, and_false, or_false] at hiff
  simp [hiff]

theorem independentSet_eq (h : g.vertices.Nodup) :
    g.independentSet = g.choose [] g.byDegree := by
  rw [independentSet, independentOrder_eq h]
  exact List.take_left

theorem Ordered.mem_vertices_of_mem_independentSet (h : g.Ordered)
    (hv : v ∈ g.independentSet) : v ∈ g.vertices := by
  rw [independentSet_eq h.vertices.nodup] at hv
  exact g.byDegree_perm.mem_iff.mp ((g.choose_sublist [] g.byDegree).subset hv)

theorem Ordered.independentSet_ne_nil (h : g.Ordered) (hne : g.vertices ≠ []) :
    g.independentSet ≠ [] := by
  rw [independentSet_eq h.vertices.nodup]
  cases hd : g.byDegree with
  | nil =>
      have hperm := g.byDegree_perm
      rw [hd] at hperm
      exact absurd hperm.symm.eq_nil hne
  | cons v rest =>
      rw [choose]
      exact List.cons_ne_nil _ _

/-- No two vertices of the independent set are adjacent both ways. -/
theorem Ordered.not_adjacent_of_mem_independentSet (h : g.Ordered) (ha : a ∈ g.independentSet)
    (hb : b ∈ g.independentSet) (hab : a ≠ b) : ¬ (g.Adjacent a b ∧ g.Adjacent b a) := by
  have hpair : g.independentSet.Pairwise fun v w => ¬ (g.Adjacent v w ∧ g.Adjacent w v) := by
    rw [independentSet_eq h.vertices.nodup]
    exact (g.pairwise_choose [] g.byDegree).imp fun hn hadj => hn hadj.1
  have : Std.Symm fun v w => ¬ (g.Adjacent v w ∧ g.Adjacent w v) :=
    ⟨fun _ _ hn hadj => hn hadj.symm⟩
  exact hpair.forall ha hb hab

/-- The independent set and the other vertices are all vertices. -/
theorem Ordered.independentOrder_perm (h : g.Ordered) :
    g.independentOrder.1.Perm g.vertices := by
  rw [independentOrder_eq h.vertices.nodup]
  have hdegree : g.byDegree.Nodup := g.byDegree_perm.nodup_iff.mpr h.vertices.nodup
  have hsub := g.choose_sublist [] g.byDegree
  have hnodup : (g.choose [] g.byDegree ++
      g.byDegree.filter fun v => !(g.choose [] g.byDegree).contains v).Nodup := by
    refine List.nodup_append.mpr ⟨hsub.nodup hdegree, hdegree.filter _, ?_⟩
    rintro v hv _ hw rfl
    simp [hv] at hw
  refine (List.perm_ext_iff_of_nodup hnodup h.vertices.nodup).mpr fun v => ?_
  rw [← g.byDegree_perm.mem_iff]
  by_cases hc : v ∈ g.choose [] g.byDegree
  · simp [hc, hsub.subset hc]
  · simp [hc]

end Graph

namespace Program

variable {α σ : Type} [Scalar α] {g : Program} {p : Problem α σ} {graph : Graph}

theorem mem_pairs {β : Type} {a b : β} {l : List β} (ha : a ∈ l) (hb : b ∈ l) (hab : a ≠ b) :
    (a, b) ∈ pairs l ∨ (b, a) ∈ pairs l := by
  induction l with
  | nil => cases ha
  | cons c l ih =>
      simp only [pairs, List.mem_append, List.mem_map, Prod.mk.injEq]
      rcases List.mem_cons.mp ha with rfl | ha' <;> rcases List.mem_cons.mp hb with rfl | hb'
      · exact absurd rfl hab
      · exact .inl (.inl ⟨b, hb', rfl, rfl⟩)
      · exact .inr (.inl ⟨a, ha', rfl, rfl⟩)
      · exact (ih ha' hb').imp .inr .inr

theorem mem_of_mem_pairs {β : Type} {a b : β} {l : List β} (h : (a, b) ∈ pairs l) :
    a ∈ l ∧ b ∈ l := by
  induction l with
  | nil => cases h
  | cons c l ih =>
      rw [pairs, List.mem_append, List.mem_map] at h
      rcases h with ⟨d, hd, heq⟩ | h
      · cases heq
        exact ⟨List.mem_cons_self, List.mem_cons_of_mem _ hd⟩
      · exact ⟨List.mem_cons_of_mem c (ih h).1, List.mem_cons_of_mem c (ih h).2⟩

private theorem addVertices (l : List (BlockId × Bool)) {g : Graph} (h : g.Ordered) :
    (l.foldl (fun g b => g.addVertex b.1) g).Ordered ∧
      ∀ v, v ∈ (l.foldl (fun g b => g.addVertex b.1) g).vertices ↔
        v ∈ l.map Prod.fst ∨ v ∈ g.vertices := by
  induction l generalizing g with
  | nil => exact ⟨h, by simp⟩
  | cons b l ih =>
      obtain ⟨hordered, hmem⟩ := ih (h.addVertex b.1)
      refine ⟨hordered, fun v => ?_⟩
      rw [List.foldl_cons, hmem, Graph.mem_vertices_addVertex, List.map_cons, List.mem_cons]
      tauto

/-- Blocks that some residual block reads together are adjacent, if they are
vertices. -/
def Joins (g : Program) (p : Problem α σ) (graph : Graph) : Prop :=
  ∀ i ∈ g.residuals, ∀ r, p.residual? i = some r → ∀ a ∈ r.blocks, ∀ b ∈ r.blocks, a ≠ b →
    a ∈ graph.vertices → b ∈ graph.vertices → graph.Adjacent a b

/-- The graph of a program has the blocks that are not held constant as its
vertices, and joins them. -/
theorem graph_eq_ok (h : g.graph p = .ok graph) : graph.Ordered ∧
    (∀ v, v ∈ graph.vertices ↔ v ∈ g.blocks ∧ ∃ b, p.block? v = some b ∧ b.constant = false) ∧
    g.Joins p graph := by
  simp only [Program.graph, except_bind_eq_ok, except_pure_eq_ok] at h
  obtain ⟨blocks, hblocks, residuals, hresiduals, rfl⟩ := h
  rw [mapM_eq_ok_iff] at hresiduals
  obtain ⟨-, hfree⟩ := Problem.constancies_eq_ok hblocks
  obtain ⟨hordered, hvertices⟩ :=
    addVertices (blocks.filter fun b => !b.2) Graph.ordered_empty
  refine ⟨Graph.ordered_addEdges hordered _, fun v => ?_, ?_⟩
  · rw [Graph.vertices_addEdges, hvertices, hfree]
    simp only [Graph.empty, List.not_mem_nil, or_false]
  · intro i hi r hr a ha b hb hab hav hbv
    rw [Graph.vertices_addEdges] at hav hbv
    obtain ⟨r', hr', hir⟩ := exists_right_of_forall₂ hresiduals i hi
    rw [Problem.residual_eq_ok, hr] at hir
    cases hir
    refine (Graph.adjacent_addEdges hordered).mpr (.inr ⟨hab, hav, hbv, ?_⟩)
    exact (mem_pairs ha hb hab).imp (fun hp => List.mem_flatMap.mpr ⟨r, hr', hp⟩)
      fun hp => List.mem_flatMap.mpr ⟨r, hr', hp⟩

theorem exists_graph (hblocks : ∀ id ∈ g.blocks, p.contains id = true)
    (hresiduals : ∀ i ∈ g.residuals, ∃ r, p.residual? i = some r) :
    ∃ graph, g.graph p = .ok graph := by
  obtain ⟨blocks, hblocks⟩ := Problem.exists_constancies hblocks
  obtain ⟨residuals, hresiduals⟩ := exists_mapM_eq_ok (f := p.residual) (l := g.residuals)
    fun i hi => by
      obtain ⟨r, hr⟩ := hresiduals i hi
      exact ⟨r, Problem.residual_eq_ok.mpr hr⟩
  simp only [Program.graph, except_bind_eq_ok, except_pure_eq_ok]
  exact ⟨_, blocks, hblocks, residuals, hresiduals, rfl⟩

end Program

end LeastSquares
