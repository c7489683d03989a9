import LeastSquares.Proofs.Buckets
import LeastSquares.Proofs.Graph
import Mathlib.Data.List.Permutation

/-!
# Maximal independent sets

However a graph was built, an edge is listed at both of its ends, no vertex
is its own neighbour, and only vertices have neighbours or are neighbours.
So a vertex that was ruled out has a neighbour among the chosen ones, and
what is chosen is an independent set that no vertex can be added to. The
colours only record which vertices are neighbours of chosen ones, never
which of them was met first, so the order in which neighbours are listed has
no influence.

## Main definitions

* `Graph.Reachable` — the graphs that can be built.
* `Graph.Undirected` — what they have in common.
* `Graph.Precedes` — lower degree and, of one degree, lower handle.
* `Graph.Rearranges` — the same graph with neighbours listed otherwise.

## Main results

* `Graph.Reachable.undirected` — building keeps graphs undirected.
* `Graph.Undirected.exists_adjacent_independentSet` — no vertex can be added.
* `Graph.Reachable.independentOrder_outcome` — the set and the others.
-/

namespace LeastSquares

namespace Graph

variable {g g' : Graph} {a b v w x y : BlockId}

/-! ## Undirected graphs -/

/-- The graphs that can be built: from the empty one, by adding and removing
vertices and by adding edges. -/
inductive Reachable : Graph → Prop where
  | empty : Reachable empty
  | addVertex {g : Graph} (h : Reachable g) (v : BlockId) : Reachable (g.addVertex v)
  | addEdge {g : Graph} (h : Reachable g) (a b : BlockId) : Reachable (g.addEdge a b)
  | removeVertex {g : Graph} (h : Reachable g) (v : BlockId) : Reachable (g.removeVertex v)

/-- Edges join two different vertices and are listed at both. -/
structure Undirected (g : Graph) : Prop where
  ordered : g.Ordered
  symm : ∀ {a b}, g.Adjacent a b → g.Adjacent b a
  irrefl : ∀ a, ¬ g.Adjacent a a
  vertex : ∀ {a b}, g.Adjacent a b → a ∈ g.vertices

theorem not_adjacent_empty (a b : BlockId) : ¬ empty.Adjacent a b := List.not_mem_nil

theorem undirected_empty : empty.Undirected where
  ordered := ordered_empty
  symm hadj := absurd hadj (not_adjacent_empty _ _)
  irrefl a := not_adjacent_empty a a
  vertex hadj := absurd hadj (not_adjacent_empty _ _)

theorem Undirected.vertex' (h : g.Undirected) (hadj : g.Adjacent a b) : b ∈ g.vertices :=
  h.vertex (h.symm hadj)

/-- A new vertex is not adjacent to any other one. -/
theorem Undirected.adjacent_addVertex (h : g.Undirected) :
    (g.addVertex v).Adjacent x y ↔ g.Adjacent x y := by
  unfold Adjacent
  rw [h.ordered.neighboursOf_addVertex]
  split
  · rename_i hx
    obtain ⟨rfl, hout⟩ := hx
    refine ⟨nofun, fun hadj => ?_⟩
    exact absurd (h.vertex hadj) hout
  · rfl

theorem Undirected.addVertex (h : g.Undirected) (v : BlockId) : (g.addVertex v).Undirected := by
  refine ⟨h.ordered.addVertex v, fun {a b} hadj => ?_, fun a hadj => ?_, fun {a b} hadj => ?_⟩
  · rw [h.adjacent_addVertex] at hadj ⊢
    exact h.symm hadj
  · rw [h.adjacent_addVertex] at hadj
    exact h.irrefl a hadj
  · rw [h.adjacent_addVertex] at hadj
    exact mem_vertices_addVertex.mpr (.inr (h.vertex hadj))

theorem Undirected.addEdge (h : g.Undirected) (a b : BlockId) : (g.addEdge a b).Undirected := by
  refine ⟨h.ordered.addEdge a b, fun {x y} hadj => ?_, fun x hadj => ?_, fun {x y} hadj => ?_⟩
  · rw [adjacent_addEdge h.ordered] at hadj ⊢
    rcases hadj with hadj | ⟨hab, ha, hb, hends⟩
    · exact .inl (h.symm hadj)
    · exact .inr ⟨hab, ha, hb, by tauto⟩
  · rw [adjacent_addEdge h.ordered] at hadj
    rcases hadj with hadj | ⟨hab, -, -, ⟨rfl, rfl⟩ | ⟨rfl, rfl⟩⟩
    · exact h.irrefl x hadj
    · exact hab rfl
    · exact hab rfl
  · rw [adjacent_addEdge h.ordered] at hadj
    rw [vertices_addEdge]
    rcases hadj with hadj | ⟨-, ha, hb, ⟨rfl, rfl⟩ | ⟨rfl, rfl⟩⟩
    · exact h.vertex hadj
    · exact ha
    · exact hb

/-- What is left of the edges when a vertex is removed. -/
theorem Undirected.adjacent_removeVertex (h : g.Undirected) :
    (g.removeVertex v).Adjacent x y ↔ x ≠ v ∧ y ≠ v ∧ g.Adjacent x y := by
  by_cases hv : v ∈ g.vertices
  · rw [h.ordered.adjacent_removeVertex hv]
    constructor
    · intro ⟨hx, hadj, hout⟩
      refine ⟨hx, ?_, hadj⟩
      rintro rfl
      exact hout ⟨rfl, h.symm hadj⟩
    · intro ⟨hx, hy, hadj⟩
      exact ⟨hx, hadj, fun hout => hy hout.1⟩
  · rw [Graph.removeVertex, if_neg (mt hasVertex_iff.mp hv)]
    refine ⟨fun hadj => ⟨?_, ?_, hadj⟩, fun hadj => hadj.2.2⟩
    · rintro rfl
      exact hv (h.vertex hadj)
    · rintro rfl
      exact hv (h.vertex' hadj)

theorem Undirected.removeVertex (h : g.Undirected) (v : BlockId) :
    (g.removeVertex v).Undirected := by
  refine ⟨h.ordered.removeVertex v, fun {x y} hadj => ?_, fun x hadj => ?_, fun {x y} hadj => ?_⟩
  · rw [h.adjacent_removeVertex] at hadj ⊢
    exact ⟨hadj.2.1, hadj.1, h.symm hadj.2.2⟩
  · rw [h.adjacent_removeVertex] at hadj
    exact h.irrefl x hadj.2.2
  · rw [h.adjacent_removeVertex] at hadj
    exact h.ordered.mem_vertices_removeVertex.mpr ⟨hadj.1, h.vertex hadj.2.2⟩

/-- Graphs that can be built are undirected. -/
theorem Reachable.undirected (h : g.Reachable) : g.Undirected := by
  induction h with
  | empty => exact undirected_empty
  | addVertex _ v ih => exact ih.addVertex v
  | addEdge _ a b ih => exact ih.addEdge a b
  | removeVertex _ v ih => exact ih.removeVertex v

/-! ## Maximality -/

/-- A vertex that was not chosen was excluded from the start, or is adjacent to
one that was chosen. -/
theorem exists_of_not_mem_choose {excluded l : List BlockId} (hv : v ∈ l)
    (hout : v ∉ g.choose excluded l) :
    v ∈ excluded ∨ ∃ w ∈ g.choose excluded l, g.Adjacent w v := by
  induction l generalizing excluded with
  | nil => cases hv
  | cons w l ih =>
      rw [choose] at hout ⊢
      by_cases hw : excluded.contains w
      · rw [if_pos hw] at hout ⊢
        rcases List.mem_cons.mp hv with rfl | hv
        · exact .inl (by simpa using hw)
        · exact ih hv hout
      · rw [if_neg hw] at hout ⊢
        rw [List.mem_cons, not_or] at hout
        rcases ih ((List.mem_cons.mp hv).resolve_left hout.1) hout.2 with hex | ⟨u, hu, hadj⟩
        · -- a neighbour of the vertex that was chosen just now
          rcases List.mem_append.mp hex with hadj | hex
          · exact .inr ⟨w, List.mem_cons_self, hadj⟩
          · exact .inl hex
        · exact .inr ⟨u, List.mem_cons_of_mem w hu, hadj⟩

theorem Undirected.not_adjacent_independentSet (h : g.Undirected) (ha : a ∈ g.independentSet)
    (hb : b ∈ g.independentSet) : ¬ g.Adjacent a b := by
  intro hadj
  have hab : a ≠ b := by
    rintro rfl
    exact h.irrefl a hadj
  exact h.ordered.not_adjacent_of_mem_independentSet ha hb hab ⟨hadj, h.symm hadj⟩

/-- Every other vertex is adjacent to one of the independent set. -/
theorem Undirected.exists_adjacent_independentSet (h : g.Undirected) (hv : v ∈ g.vertices)
    (hout : v ∉ g.independentSet) : ∃ w ∈ g.independentSet, g.Adjacent v w := by
  rw [independentSet_eq h.ordered.vertices.nodup] at hout ⊢
  have hdegree : v ∈ g.byDegree := g.byDegree_perm.mem_iff.mpr hv
  rcases exists_of_not_mem_choose hdegree hout with hex | ⟨w, hw, hadj⟩
  · cases hex
  · exact ⟨w, hw, h.symm hadj⟩

/-! ## The order of the vertices -/

/-- One vertex has a lower degree than the other, or the same degree and a
lower handle. -/
def Precedes (g : Graph) (a b : BlockId) : Prop :=
  g.degree a < g.degree b ∨ g.degree a = g.degree b ∧ a < b

/-- Sorting by degree leaves the vertices of one degree in handle order. -/
theorem Ordered.pairwise_byDegree (h : g.Ordered) : g.byDegree.Pairwise g.Precedes := by
  have hle : g.byDegree.Pairwise fun a b => g.degree a ≤ g.degree b :=
    List.pairwise_mergeSort' (fun a b => g.degree a ≤ g.degree b) g.vertices
  rw [List.pairwise_iff_forall_sublist] at hle ⊢
  intro a b hab
  by_cases heq : g.degree a = g.degree b
  · refine .inr ⟨heq, ?_⟩
    have hsame := hab.filter fun v => g.degree v == g.degree a
    rw [byDegree, Buckets.filter_mergeSort g.degree g.vertices (g.degree a)] at hsame
    have hpair : [a, b].Sublist g.vertices := by
      simpa [heq] using hsame.trans List.filter_sublist
    exact List.pairwise_iff_forall_sublist.mp h.vertices hpair
  · exact .inl (Nat.lt_of_le_of_ne (hle hab) heq)

/-! ## Listing neighbours in another order -/

/-- The first graph is the second one with the neighbours of each vertex listed
in some other order. -/
structure Rearranges (g' g : Graph) : Prop where
  vertices : g'.vertices = g.vertices
  neighbours : ∀ v, (g'.neighboursOf v).Perm (g.neighboursOf v)

theorem Rearranges.degree (h : g'.Rearranges g) (v : BlockId) : g'.degree v = g.degree v :=
  (h.neighbours v).length_eq

theorem Rearranges.byDegree (h : g'.Rearranges g) : g'.byDegree = g.byDegree := by
  simp only [Graph.byDegree, h.vertices, h.degree]

theorem Rearranges.choose (h : g'.Rearranges g) {excluded excluded' : List BlockId}
    (hex : ∀ v, v ∈ excluded' ↔ v ∈ excluded) (l : List BlockId) :
    g'.choose excluded' l = g.choose excluded l := by
  induction l generalizing excluded excluded' with
  | nil => rfl
  | cons v l ih =>
      have hnext : ∀ w, w ∈ g'.neighboursOf v ++ excluded' ↔ w ∈ g.neighboursOf v ++ excluded := by
        intro w
        rw [List.mem_append, List.mem_append, (h.neighbours v).mem_iff, hex]
      simp only [Graph.choose, List.contains_iff_mem, hex, ih hex, ih hnext]

theorem Rearranges.independentOrder (h : g'.Rearranges g) (hn : g.vertices.Nodup) :
    g'.independentOrder = g.independentOrder := by
  have hn' : g'.vertices.Nodup := h.vertices ▸ hn
  rw [independentOrder_eq hn, independentOrder_eq hn', h.byDegree,
    h.choose fun v => Iff.rfl]

/-! ## The outcome -/

/-- What the choice of an independent set leads to, in every graph that can be
built. Edges join two different vertices and are listed once at both. Every
vertex stands once in the order. In front is an independent set to which no
other vertex can be added; the set and the others are sorted by degree and
handle. The order in which neighbours are listed does not matter. -/
theorem Reachable.independentOrder_outcome (h : g.Reachable) :
    ((∀ a b, g.Adjacent a b → g.Adjacent b a) ∧ (∀ a, ¬ g.Adjacent a a) ∧
      (∀ a b, g.Adjacent a b → a ∈ g.vertices ∧ b ∈ g.vertices) ∧
      (∀ v, (g.neighboursOf v).Nodup)) ∧
    (g.vertices.Nodup ∧ g.independentOrder.1.Perm g.vertices) ∧
    (∃ chosen others, g.independentOrder = (chosen ++ others, chosen.length) ∧
      (∀ a ∈ chosen, ∀ b ∈ chosen, ¬ g.Adjacent a b) ∧
      (∀ v ∈ g.vertices, v ∉ chosen → ∃ w ∈ chosen, g.Adjacent v w) ∧
      chosen.Pairwise g.Precedes ∧ others.Pairwise g.Precedes) ∧
    ∀ g' : Graph, g'.Rearranges g → g'.independentOrder = g.independentOrder := by
  have hg := h.undirected
  have hn := hg.ordered.vertices.nodup
  refine ⟨⟨fun a b => hg.symm, hg.irrefl, fun a b hadj => ⟨hg.vertex hadj, hg.vertex' hadj⟩,
    fun v => (hg.ordered.sets v).nodup⟩, ⟨hn, hg.ordered.independentOrder_perm⟩, ?_,
    fun g' hg' => hg'.independentOrder hn⟩
  refine ⟨g.independentSet, g.byDegree.filter fun v => !g.independentSet.contains v, ?_,
    fun a ha b hb => hg.not_adjacent_independentSet ha hb,
    fun v hv hout => hg.exists_adjacent_independentSet hv hout, ?_, ?_⟩
  · rw [independentSet_eq hn, independentOrder_eq hn]
  · rw [independentSet_eq hn]
    exact hg.ordered.pairwise_byDegree.sublist (g.choose_sublist [] g.byDegree)
  · exact hg.ordered.pairwise_byDegree.sublist List.filter_sublist

/-- A path of four vertices whose second one was removed, came back without its
edges and was joined to the last one. -/
def rejoined : Graph :=
  (((((((((empty.addVertex ⟨0, 0⟩).addVertex ⟨1, 0⟩).addVertex ⟨2, 0⟩).addVertex ⟨3, 0⟩).addEdge
    ⟨0, 0⟩ ⟨1, 0⟩).addEdge ⟨1, 0⟩ ⟨2, 0⟩).addEdge ⟨2, 0⟩ ⟨3, 0⟩).removeVertex ⟨1, 0⟩).addVertex
    ⟨1, 0⟩).addEdge ⟨1, 0⟩ ⟨3, 0⟩

/-- The same graph with the neighbours of the last vertex listed backwards. -/
def rejoinedBackwards : Graph where
  vertices := [⟨0, 0⟩, ⟨1, 0⟩, ⟨2, 0⟩, ⟨3, 0⟩]
  neighbours := [(⟨0, 0⟩, []), (⟨1, 0⟩, [⟨3, 0⟩]), (⟨2, 0⟩, [⟨3, 0⟩]), (⟨3, 0⟩, [⟨2, 0⟩, ⟨1, 0⟩])]

theorem reachable_rejoined : rejoined.Reachable :=
  (((((((((Reachable.empty.addVertex _).addVertex _).addVertex _).addVertex _).addEdge
    _ _).addEdge _ _).addEdge _ _).removeVertex _).addVertex _).addEdge _ _

theorem rearranges_rejoined : rejoinedBackwards.Rearranges rejoined where
  vertices := by rfl
  neighbours v := by
    have hlists : rejoined.neighbours =
        [(⟨0, 0⟩, []), (⟨1, 0⟩, [⟨3, 0⟩]), (⟨2, 0⟩, [⟨3, 0⟩]),
          (⟨3, 0⟩, [⟨1, 0⟩, ⟨2, 0⟩])] := by rfl
    rw [neighboursOf, neighboursOf, hlists]
    simp only [rejoinedBackwards, Table.find?]
    -- only the last list is another one
    repeat' split
    all_goals first | exact .refl _ | exact .swap _ _ _

/-- The set and its size, whichever way the neighbours are listed. -/
theorem independentOrder_outcome_rejoined :
    rejoined.Reachable ∧ (∀ a, ¬ rejoined.Adjacent a a) ∧
    rejoined.independentOrder = ([⟨0, 0⟩, ⟨1, 0⟩, ⟨2, 0⟩, ⟨3, 0⟩], 3) ∧
    rejoinedBackwards.independentOrder = ([⟨0, 0⟩, ⟨1, 0⟩, ⟨2, 0⟩, ⟨3, 0⟩], 3) := by
  obtain ⟨⟨-, hirrefl, -⟩, -, -, hrearranges⟩ := reachable_rejoined.independentOrder_outcome
  have horder : rejoined.independentOrder = ([⟨0, 0⟩, ⟨1, 0⟩, ⟨2, 0⟩, ⟨3, 0⟩], 3) := by cbv
  exact ⟨reachable_rejoined, hirrefl, horder,
    (hrearranges rejoinedBackwards rearranges_rejoined).trans horder⟩

end Graph

end LeastSquares
