import LeastSquares.Proofs.Arrangement
import LeastSquares.Proofs.Restriction

/-!
# Groups for inner iterations

Inner iterations go through the groups of an order, the caller's or one that
is made by peeling independent sets off the graph of the program. A caller's
group is used only if no residual block reads two of its members. A set that
was peeled off is independent in the graph that was left by then, and that
graph joins whatever is read together. Either way no term of the evaluator
reads two blocks of a group.

## Main results

* `Program.Joins.removeVertex` — what is left of a graph.
* `Program.independent_of_peeledOrder` — groups that are peeled off.
* `SolveOptions.independent_of_innerIterations` — the groups that are used.
-/

namespace LeastSquares

/-! ## Removing vertices -/

namespace Program

variable {α σ : Type} [Scalar α] {g : Program} {p : Problem α σ} {graph : Graph}

theorem Joins.removeVertex (h : g.Joins p graph) (hordered : graph.Ordered) (v : BlockId) :
    g.Joins p (graph.removeVertex v) := by
  intro i hi r hr a ha b hb hab hav hbv
  rw [hordered.mem_vertices_removeVertex] at hav hbv
  exact hordered.adjacent_removeVertex_of_ne hav.1 hbv.1 (h i hi r hr a ha b hb hab hav.2 hbv.2)

theorem Joins.removeVertices (h : g.Joins p graph) (hordered : graph.Ordered)
    (vs : List BlockId) : (vs.foldl Graph.removeVertex graph).Ordered ∧
      g.Joins p (vs.foldl Graph.removeVertex graph) := by
  induction vs generalizing graph with
  | nil => exact ⟨hordered, h⟩
  | cons v vs ih => exact ih (h.removeVertex hordered v) (hordered.removeVertex v)

end Program

/-! ## Peeling -/

namespace EliminationOrder

variable {o : EliminationOrder} {x : BlockId} {group k : Nat}

/-- An order with some blocks moved into one group. -/
theorem WellFormed.addAll (h : o.WellFormed) (ids : List BlockId) (group : Nat) :
    (ids.foldl (fun o id => o.add id group) o).WellFormed ∧
      ∀ x k, InGroup (ids.foldl (fun o id => o.add id group) o).groups x k ↔
        x ∈ ids ∧ k = group ∨ x ∉ ids ∧ InGroup o.groups x k := by
  induction ids generalizing o with
  | nil => exact ⟨h, fun x k => by simp⟩
  | cons id ids ih =>
      obtain ⟨hwf, hgroups⟩ := ih (h.add id group)
      refine ⟨hwf, fun x k => ?_⟩
      rw [List.foldl_cons, hgroups, h.inGroup_add, List.mem_cons]
      tauto

theorem Grouped.exists_of_mem_reverse (h : Grouped o.groups) {ms : List BlockId}
    (hms : (k, ms) ∈ o.reverse.groups) : ∃ k', (k', ms) ∈ o.groups := by
  rw [h.reverse_groups, List.mem_reverse, List.mem_map] at hms
  obtain ⟨⟨k', ms'⟩, hk, heq⟩ := hms
  cases heq
  exact ⟨k', hk⟩

end EliminationOrder

namespace Program

variable {α σ : Type} [Scalar α] {g : Program} {p : Problem α σ} {graph : Graph}
  {o : EliminationOrder}

/-- No residual block reads two members of any group. -/
def Separates (g : Program) (p : Problem α σ) (o : EliminationOrder) : Prop :=
  ∀ k ms, (k, ms) ∈ o.groups → g.Independent p ms

/-- One more independent set, as a group after all others. -/
theorem Separates.addAll (h : g.Separates p o) (ho : o.WellFormed) {group : Nat}
    (hlast : ∀ k ms, (k, ms) ∈ o.groups → k < group) {ids : List BlockId}
    (hids : g.Independent p ids) :
    g.Separates p (ids.foldl (fun o id => o.add id group) o) ∧
      ∀ k ms, (k, ms) ∈ (ids.foldl (fun o id => o.add id group) o).groups → k < group + 1 := by
  obtain ⟨hwf, hgroups⟩ := ho.addAll ids group
  refine ⟨fun k ms hms => ?_, fun k ms hms => ?_⟩
  · by_cases hk : k = group
    · refine hids.mono (fun _ hi => hi) fun x hx => ?_
      rcases (hgroups x k).mp ⟨ms, hms, hx⟩ with ⟨hmem, -⟩ | ⟨-, ms', hms', -⟩
      · exact hmem
      · exact absurd (hlast k ms' hms') (by omega)
    · -- what is left of an earlier group
      obtain ⟨y, hy⟩ := List.exists_mem_of_ne_nil ms (hwf.grouped.members k ms hms).2
      have hold : ∀ x ∈ ms, EliminationOrder.InGroup o.groups x k := fun x hx =>
        (((hgroups x k).mp ⟨ms, hms, hx⟩).resolve_left fun hnew => hk hnew.2).2
      obtain ⟨ms', hms', -⟩ := hold y hy
      exact (h k ms' hms').mono (fun _ hi => hi) fun x hx =>
        (ho.grouped.inGroup_iff hms').mp (hold x hx)
  · obtain ⟨y, hy⟩ := List.exists_mem_of_ne_nil ms (hwf.grouped.members k ms hms).2
    rcases (hgroups y k).mp ⟨ms, hms, hy⟩ with ⟨-, rfl⟩ | ⟨-, ms', hms', -⟩
    · exact Nat.lt_succ_self k
    · exact Nat.lt_succ_of_lt (hlast k ms' hms')

/-- Sets that are peeled off are independent. -/
theorem separates_peel (hres : ∀ i ∈ g.residuals, ∀ r, p.residual? i = some r → r.blocks.Nodup)
    (rounds : Nat) {group : Nat} (hgraph : graph.Ordered) (hjoins : g.Joins p graph)
    (ho : o.WellFormed) (hlast : ∀ k ms, (k, ms) ∈ o.groups → k < group)
    (h : g.Separates p o) : (Graph.peel rounds group graph o).WellFormed ∧
      g.Separates p (Graph.peel rounds group graph o) := by
  induction rounds generalizing group graph o with
  | zero => exact ⟨ho, h⟩
  | succ rounds ih =>
      rw [Graph.peel]
      split
      · exact ⟨ho, h⟩
      · have hids : g.Independent p graph.independentSet :=
          independent_of_independentSet hgraph hjoins hres fun _ hid => hid
        obtain ⟨hsep, hlast'⟩ := h.addAll ho hlast hids
        obtain ⟨hgraph', hjoins'⟩ := hjoins.removeVertices hgraph graph.independentSet
        exact ih hgraph' hjoins' (ho.addAll _ group).1 hlast' hsep

/-- The groups that are peeled off the graph of a program. -/
theorem independent_of_peeledOrder
    (hres : ∀ i ∈ g.residuals, ∀ r, p.residual? i = some r → r.blocks.Nodup)
    (h : g.peeledOrder p = .ok o) : o.WellFormed ∧ g.Separates p o := by
  obtain ⟨graph, hgraph, rfl⟩ := except_map_eq_ok.mp h
  obtain ⟨hordered, -, hjoins⟩ := graph_eq_ok hgraph
  exact separates_peel hres _ hordered hjoins EliminationOrder.wellFormed_empty nofun nofun

end Program

/-! ## The groups that are used -/

namespace SolveOptions

variable {α σ : Type} [Scalar α] {p : Problem α σ} {r : ReducedProgram α} {o : SolveOptions α}
  {order : EliminationOrder}

/-- A caller's groups are used only if each of them is independent. -/
theorem independent_of_innerOrderFlaw? {g : Program} {groups : List (Nat × List BlockId)}
    (h : innerOrderFlaw? p g groups = (none : Option (SolveError α))) :
    ∀ k ms, (k, ms) ∈ groups → g.Independent p ms := by
  induction groups with
  | nil => exact nofun
  | cons group groups ih =>
      obtain ⟨k, ms⟩ := group
      rw [innerOrderFlaw?] at h
      split at h
      · cases h
      · split at h
        · cases h
        · cases h
        · rename_i hind
          intro l ns hns
          rcases List.mem_cons.mp hns with heq | hns
          · cases heq
            exact Program.independent_of_isIndependent hind
          · exact ih h l ns hns

/-- The order of inner iterations is made of independent sets. -/
theorem separates_of_innerOrderFor (hp : p.Sound)
    (ho : ∀ order, o.innerOrder = some order → order.Reachable)
    (h : o.innerOrderFor p r = .ok order) : order.WellFormed ∧ r.program.Separates p order := by
  unfold innerOrderFor at h
  split at h
  · rename_i given hgiven
    split at h
    · cases h
    · rename_i hflaw
      cases h
      exact ⟨(ho _ hgiven).wellFormed, independent_of_innerOrderFlaw? hflaw⟩
  · split at h
    · rename_i peeled hpeeled
      cases h
      obtain ⟨hwf, hsep⟩ := Program.independent_of_peeledOrder
        (fun i _ r hr => (hp.reads i r hr).1) hpeeled
      refine ⟨hwf.reverse, fun k ms hms => ?_⟩
      obtain ⟨k', hms'⟩ := hwf.grouped.exists_of_mem_reverse hms
      exact hsep k' ms hms'
    · cases h

end SolveOptions

/-- No term reads two blocks of a group that is independent in the program. -/
theorem Evaluator.MadeOf.pairwise_apart {α σ : Type} [Scalar α] {e : Evaluator α σ}
    {p : Problem α σ} {g : Program} (h : e.MadeOf p g) {ms : List BlockId} (hms : ms.Nodup)
    (hind : g.Independent p ms) :
    (ms.filterMap fun id => id.lastPlace? e.blockIds).Pairwise e.Apart := by
  have hids : e.blockIds = g.blocks := map_id_freeBlocks h.blocks
  rw [hids, List.pairwise_filterMap]
  refine hms.imp_of_mem fun {a b} ha hb hab k hk l hl t ht hread => ?_
  obtain ⟨i, hi, hterm⟩ := exists_left_of_forall₂ h.forall₂_terms t ht
  obtain ⟨r, hr, hcolumns⟩ := columns_of_term hterm
  -- a column of the term is the place of a block that is read
  have hblock : ∀ {m : Nat} {id : BlockId}, id.lastPlace? g.blocks = some m → m ∈ t.columns →
      id ∈ r.blocks := by
    intro m id hid hm
    rw [hcolumns, List.mem_filterMap] at hm
    obtain ⟨id', hmem, hid'⟩ := hm
    have hget := BlockId.getElem?_of_lastPlace? hid
    rw [BlockId.getElem?_of_lastPlace? hid'] at hget
    exact Option.some.inj hget ▸ hmem
  have hmema : a ∈ r.blocks.filter ms.contains :=
    List.mem_filter.mpr ⟨hblock hk hread.1, List.contains_iff_mem.mpr ha⟩
  have hmemb : b ∈ r.blocks.filter ms.contains :=
    List.mem_filter.mpr ⟨hblock hl hread.2, List.contains_iff_mem.mpr hb⟩
  obtain ⟨c, hc⟩ := List.length_eq_one_iff.mp
    (Nat.le_antisymm (hind i hi r hr) (List.length_pos_of_mem hmema))
  rw [hc, List.mem_singleton] at hmema hmemb
  exact hab (hmema.trans hmemb.symm)

/-- No two blocks of a group of inner iterations share a term. -/
theorem SolveOptions.independent_of_innerIterations {α σ : Type} [Scalar α] {p : Problem α σ}
    {r : ReducedProgram α} {o : SolveOptions α} {e : Evaluator α σ} {c : CoordinateDescent}
    {order : EliminationOrder} (he : e.MadeOf p r.program) (hp : p.Sound)
    (ho : ∀ order, o.innerOrder = some order → order.Reachable)
    (h : o.innerIterations p r e = .ok (some (c, order))) : c.Independent e := by
  unfold innerIterations at h
  split at h
  · cases h
  · split at h
    · cases h
    · rename_i order' horder
      split at h
      · cases h
      · rename_i c' hcreate
        cases h
        obtain ⟨hwf, hsep⟩ := separates_of_innerOrderFor hp ho horder
        unfold CoordinateDescent.create at hcreate
        dsimp only at hcreate
        split at hcreate
        · cases hcreate
        · cases hcreate
          intro group hgroup
          obtain ⟨hgroup, -⟩ := List.mem_filter.mp hgroup
          obtain ⟨ms, hms, rfl⟩ := List.mem_map.mp hgroup
          obtain ⟨⟨k, ms⟩, hmem, rfl⟩ := List.mem_map.mp hms
          exact he.pairwise_apart (hwf.grouped.members k ms hmem).1.nodup (hsep k ms hmem)

end LeastSquares
