import LeastSquares.Proofs.Graph
import LeastSquares.Proofs.Reachable
import LeastSquares.Proofs.Reduction
import LeastSquares.Solve.Assembly

/-!
# Arranging what is left for a linear solver

An order that has all blocks of a program still has all that are left when
the dropped blocks are taken out of it. Its first group is what is left of
the first group it had, unless nothing is, and then no Schur solver is used.
If a Schur solver is used, no residual block reads two members of the first
group: either a check has found so for the order that was given, or the
group is an independent set of the graph.

## Main definitions

* `Program.Independent` — no residual block reads two members of a set.
* `Program.Fits` — an order that a reduction can start from.
* `ReducedProgram.Grouped` — an arrangement that a Schur solver can use.

## Main results

* `Program.fits_single`, `Program.fits_of_checkOrder` — orders to start from.
* `Program.exists_schurOrder` — the order made of an independent set.
* `ReducedProgram.exists_arrange` — arranging cannot fail.
-/

namespace LeastSquares

/-! ## First groups -/

theorem Table.head?_eq {V : Type} {t : Table Nat V} (h : t.Sorted) {k : Nat} {v : V}
    (hm : (k, v) ∈ t) (hmin : ∀ x w, (x, w) ∈ t → k ≤ x) : t.head? = some (k, v) := by
  cases t with
  | nil => cases hm
  | cons e t =>
      obtain ⟨a, w⟩ := e
      have hle := hmin a w (by simp)
      rcases List.mem_cons.mp hm with hm | hm
      · rw [← hm, List.head?_cons]
      · have := h.head_lt k v hm
        omega

namespace EliminationOrder

variable {o : EliminationOrder} {ids ms : List BlockId} {id x : BlockId} {group g : Nat}

theorem Grouped.head_le (h : Grouped o.groups) (hhead : o.groups.head? = some (group, ms))
    {ns : List BlockId} (hns : (g, ns) ∈ o.groups) : group ≤ g := by
  have hsorted := h.sorted
  cases hgroups : o.groups with
  | nil =>
      rw [hgroups] at hns
      cases hns
  | cons e rest =>
      rw [hgroups, List.head?_cons, Option.some.injEq] at hhead
      subst hhead
      rw [hgroups] at hns hsorted
      rcases List.mem_cons.mp hns with hns | hns
      · cases hns
        exact Nat.le_refl _
      · exact Nat.le_of_lt (hsorted.head_lt g ns hns)

/-- A group without some blocks. -/
theorem WellFormed.mem_members_removeAll (h : o.WellFormed) (hms : (group, ms) ∈ o.groups) :
    x ∈ (o.removeAll ids).members group ↔ x ∉ ids ∧ x ∈ ms := by
  rw [members, (h.removeAll ids).grouped.mem_getD, h.inGroup_removeAll, h.grouped.inGroup_iff hms]

theorem WellFormed.groupSize_removeAll (h : o.WellFormed) (hms : (group, ms) ∈ o.groups) :
    (o.removeAll ids).groupSize group = 0 ↔ ∀ id ∈ ms, id ∈ ids := by
  rw [groupSize, List.length_eq_zero_iff, List.eq_nil_iff_forall_not_mem]
  simp only [h.mem_members_removeAll hms, not_and, not_imp_not]

/-- What is left of the first group comes first. -/
theorem WellFormed.head_removeAll (h : o.WellFormed)
    (hhead : o.groups.head? = some (group, ms)) (hleft : ∃ id ∈ ms, id ∉ ids) :
    ∃ ms', (o.removeAll ids).groups.head? = some (group, ms') ∧ ∀ x ∈ ms', x ∈ ms := by
  have hms : (group, ms) ∈ o.groups := List.mem_of_head? hhead
  obtain ⟨id, hid, hout⟩ := hleft
  obtain ⟨ms', hms', -⟩ := h.inGroup_removeAll.mpr ⟨hout, ms, hms, hid⟩
  refine ⟨ms', Table.head?_eq (h.removeAll ids).grouped.sorted hms' ?_, fun x hx => ?_⟩
  · intro g ns hns
    obtain ⟨y, hy⟩ := List.exists_mem_of_ne_nil ns ((h.removeAll ids).grouped.members g ns hns).2
    obtain ⟨-, ns', hns', -⟩ := h.inGroup_removeAll.mp ⟨ns, hns, hy⟩
    exact h.grouped.head_le hhead hns'
  · exact (h.grouped.inGroup_iff hms).mp (h.inGroup_removeAll.mp ⟨ms', hms', hx⟩).2

theorem WellFormed.numGroups_removeAll_le (h : o.WellFormed) :
    (o.removeAll ids).numGroups ≤ o.numGroups := by
  have hkeys : (o.removeAll ids).groups.keys ⊆ o.groups.keys := by
    intro g hg
    obtain ⟨⟨g, ns⟩, hns, rfl⟩ := List.mem_map.mp hg
    obtain ⟨y, hy⟩ := List.exists_mem_of_ne_nil ns ((h.removeAll ids).grouped.members g ns hns).2
    obtain ⟨-, ns', hns', -⟩ := h.inGroup_removeAll.mp ⟨ns, hns, hy⟩
    exact List.mem_map.mpr ⟨_, hns', rfl⟩
  have hle := ((h.removeAll ids).grouped.sorted.nodup.subperm hkeys).length_le
  rwa [Table.keys, Table.keys, List.length_map, List.length_map] at hle

theorem ne_nil_of_mem_toList (h : x ∈ o.toList) : o.groups ≠ [] := by
  obtain ⟨g, ms, hms, -⟩ := mem_toList.mp h
  exact List.ne_nil_of_mem hms

/-- The blocks in front are those of the first group. -/
theorem toList_eq_append (hhead : o.groups.head? = some (group, ms)) :
    ∃ rest, o.toList = ms ++ rest := by
  obtain ⟨tail, hgroups⟩ := List.head?_eq_some_iff.mp hhead
  refine ⟨(Table.values tail).flatten, ?_⟩
  rw [toList, hgroups, Table.values, List.map_cons, List.flatten_cons]
  rfl

theorem firstGroupSize_eq (hhead : o.groups.head? = some (group, ms)) :
    o.firstGroupSize = ms.length := by
  rw [firstGroupSize, hhead]
  rfl

end EliminationOrder

namespace Program

variable {α σ : Type} [Scalar α] {p q : Problem α σ} {g g' : Program} {o : EliminationOrder}
  {kind : LinearSolverKind} {set set' : List BlockId}

/-! ## Independent sets of a program -/

/-- No residual block of the program reads two members of the set. -/
def Independent (g : Program) (p : Problem α σ) (set : List BlockId) : Prop :=
  ∀ i ∈ g.residuals, ∀ r, p.residual? i = some r → (r.blocks.filter set.contains).length ≤ 1

theorem Independent.mono (h : g.Independent p set) (hres : ∀ i ∈ g'.residuals, i ∈ g.residuals)
    (hset : ∀ id ∈ set', id ∈ set) : g'.Independent p set' := by
  intro i hi r hr
  refine Nat.le_trans ?_ (h i (hres i hi) r hr)
  rw [← List.countP_eq_length_filter, ← List.countP_eq_length_filter]
  refine List.countP_mono_left fun id _ hid => ?_
  rw [List.contains_iff_mem] at hid ⊢
  exact hset id hid

private theorem isIndependentIn_iff {ids : List ResidualId} :
    isIndependentIn p set ids = .ok true ↔ ∀ i ∈ ids, ∃ r, p.residual? i = some r ∧
      (r.blocks.filter set.contains).length ≤ 1 := by
  induction ids with
  | nil => exact ⟨fun _ => nofun, fun _ => rfl⟩
  | cons i ids ih =>
      rw [isIndependentIn, List.forall_mem_cons]
      cases hr : p.residual i with
      | error e =>
          have hnone : ¬ ∃ r, p.residual? i = some r := by
            intro ⟨r, hr'⟩
            rw [Problem.residual_eq_ok.mpr hr'] at hr
            cases hr
          refine ⟨nofun, fun h => absurd ?_ hnone⟩
          exact ⟨h.1.choose, h.1.choose_spec.1⟩
      | ok r =>
          rw [Problem.residual_eq_ok] at hr
          simp only [hr, Option.some.injEq, exists_eq_left']
          by_cases hlen : 1 < (r.blocks.filter set.contains).length
          · rw [if_pos hlen]
            exact ⟨nofun, fun h => absurd h.1 (by omega)⟩
          · rw [if_neg hlen, ih]
            exact ⟨fun h => ⟨by omega, h⟩, And.right⟩

/-- The test is passed if all residual blocks are live and the set is
independent. -/
theorem isIndependent_iff : g.isIndependent p set = .ok true ↔
    (∀ i ∈ g.residuals, ∃ r, p.residual? i = some r) ∧ g.Independent p set := by
  rw [isIndependent, isIndependentIn_iff]
  constructor
  · intro h
    constructor
    · intro i hi
      obtain ⟨r, hr, -⟩ := h i hi
      exact ⟨r, hr⟩
    · intro i hi r hr
      obtain ⟨r', hr', hlen⟩ := h i hi
      rw [hr] at hr'
      cases hr'
      exact hlen
  · intro ⟨hlive, hind⟩ i hi
    obtain ⟨r, hr⟩ := hlive i hi
    exact ⟨r, hr, hind i hi r hr⟩

theorem independent_of_isIndependent (h : g.isIndependent p set = .ok true) :
    g.Independent p set := (isIndependent_iff.mp h).2

/-! ## Orders to start from -/

/-- An order that has the blocks of a program. If a Schur solver is told of
several groups, it can eliminate the first one. -/
structure Fits (g : Program) (p : Problem α σ) (o : EliminationOrder) (kind : LinearSolverKind) :
    Prop where
  wellFormed : o.WellFormed
  covers : ∀ id, id ∈ o.toList ↔ id ∈ g.blocks
  independent : kind.isSchur = true → 1 < o.numGroups →
    ∀ group ms, o.groups.head? = some (group, ms) → g.Independent p ms

theorem Fits.exists_head (h : g.Fits p o kind) (hne : g.blocks ≠ []) :
    ∃ group ms, o.groups.head? = some (group, ms) := by
  obtain ⟨id, hid⟩ := List.exists_mem_of_ne_nil _ hne
  have hgroups : o.groups ≠ [] := EliminationOrder.ne_nil_of_mem_toList ((h.covers id).mpr hid)
  exact ⟨_, _, List.head?_eq_some_head hgroups⟩

theorem fits_single (hn : g.blocks.Nodup) : g.Fits p (.single g.blocks) kind where
  wellFormed := (EliminationOrder.reachable_ofList _).wellFormed
  covers id := by
    simp only [EliminationOrder.mem_toList, EliminationOrder.inGroup_single hn, exists_and_left,
      exists_eq, and_true]
  independent _ hgroups := by
    -- every member is in group zero, so there is no second group
    have hwf := (EliminationOrder.reachable_ofList (g.blocks.map fun id => (id, 0))).wellFormed
    exfalso
    have hzero : ∀ e ∈ (EliminationOrder.single g.blocks).groups, e.1 = 0 := by
      rintro ⟨k, ns⟩ hns
      obtain ⟨y, hy⟩ := List.exists_mem_of_ne_nil ns (hwf.grouped.members k ns hns).2
      exact ((EliminationOrder.inGroup_single hn).mp ⟨ns, hns, hy⟩).2
    have hsorted : (EliminationOrder.single g.blocks).groups.Sorted := hwf.grouped.sorted
    unfold EliminationOrder.numGroups at hgroups
    match h : (EliminationOrder.single g.blocks).groups with
    | [] | [_] =>
        rw [h] at hgroups
        simp at hgroups
    | (a, ms) :: (b, ns) :: _ =>
        rw [h] at hzero hsorted
        have hlt := hsorted.head_lt b ns (by simp)
        have ha := hzero (a, ms) (by simp)
        have hb := hzero (b, ns) (by simp)
        simp only at ha hb
        omega

theorem fits_of_checkOrder (hp : p.Sound) (ho : o.WellFormed)
    (h : (ofProblem p).checkOrder p o kind = .ok ()) : (ofProblem p).Fits p o kind := by
  unfold checkOrder at h
  split at h
  · cases h
  · rename_i hmembers
    split at h
    · cases h
    · rename_i hcount
      refine ⟨ho, fun id => ?_, fun hs hgroups group ms hhead => ?_⟩
      · have hsub : o.toList ⊆ p.blockIds := fun id hid =>
          (Problem.mem_blockIds hp.room).mpr (firstMember?_eq_none_iff.mp hmembers id hid)
        have hperm : o.toList.Perm p.blockIds := by
          refine (List.Nodup.subperm ho.nodup_toList hsub).perm_of_length_le ?_
          rw [ho.length_toList, hp.length_blockIds]
          omega
        exact hperm.mem_iff
      · obtain ⟨tail, hcons⟩ := List.head?_eq_some_iff.mp hhead
        cases tail with
        | nil =>
            rw [EliminationOrder.numGroups, hcons] at hgroups
            simp at hgroups
        | cons e rest =>
            rw [hs, hcons] at h
            dsimp only at h
            split at h
            · cases h
            · rename_i hind
              exact independent_of_isIndependent hind
            · cases h

/-- An order that fits passes the check. -/
theorem checkOrder_of_fits (hp : p.Sound) (h : (ofProblem p).Fits p o kind) :
    (ofProblem p).checkOrder p o kind = .ok () := by
  have hmembers : firstMember? p.contains o = none :=
    firstMember?_eq_none_iff.mpr fun id hid =>
      (Problem.mem_blockIds hp.room).mp ((h.covers id).mp hid)
  have hperm : o.toList.Perm p.blockIds :=
    (List.perm_ext_iff_of_nodup h.wellFormed.nodup_toList
      (Problem.nodup_blockIds hp.room)).mpr h.covers
  have hcount : o.numElements = p.numBlocks := by
    rw [← h.wellFormed.length_toList, hperm.length_eq, hp.length_blockIds]
  simp only [checkOrder, hmembers, hcount, ne_eq, not_true_eq_false, if_false]
  split
  · rename_i group ms e rest hs hgroups
    have hlive : ∀ i ∈ (ofProblem p).residuals, ∃ r, p.residual? i = some r :=
      fun i hi => Problem.mem_residualIds.mp hi
    have hind := h.independent hs (by simp [EliminationOrder.numGroups, hgroups]) group ms
      (by rw [hgroups]; rfl)
    rw [isIndependent_iff.mpr ⟨hlive, hind⟩]
  · rfl

/-! ## Orders for the program -/

/-- An order that has exactly the blocks of the program can be followed. -/
theorem reorderBlocks_of_covers (ho : o.WellFormed) (hn : g.blocks.Nodup)
    (h : ∀ id, id ∈ o.toList ↔ id ∈ g.blocks) :
    g.reorderBlocks o = (.ok (), { g with blocks := o.toList }) := by
  have hperm : o.toList.Perm g.blocks := (List.perm_ext_iff_of_nodup ho.nodup_toList hn).mpr h
  have hsize : o.numElements = g.blocks.length := by
    rw [← ho.length_toList]
    exact hperm.length_eq
  have hmembers : firstMember? g.blocks.contains o = none :=
    firstMember?_eq_none_iff.mpr fun id hid => by simpa using (h id).mp hid
  simp only [reorderBlocks, hsize, ne_eq, not_true_eq_false, if_false, hmembers]

theorem applyOrder_of_covers (ho : o.WellFormed) (hn : g.blocks.Nodup)
    (h : ∀ id, id ∈ o.toList ↔ id ∈ g.blocks) :
    g.applyOrder o = .ok { g with blocks := o.toList } := by
  rw [applyOrder, reorderBlocks_of_covers ho hn h]
  rfl

theorem length_le_one_iff {β : Type} {l : List β} (hn : l.Nodup) :
    l.length ≤ 1 ↔ ∀ a ∈ l, ∀ b ∈ l, a = b := by
  match l with
  | [] => simp
  | [_] => simp
  | a :: b :: l =>
      have hab : a ≠ b := by
        rintro rfl
        simp at hn
      constructor
      · intro h
        simp at h
      · intro h
        exact absurd (h a (by simp) b (by simp)) hab

/-- The order made of a graph has the vertices, and the independent set in
front. -/
private theorem inGroup_independentOrder {graph : Graph} (h : graph.Ordered) {x : BlockId}
    {k : Nat} :
    EliminationOrder.InGroup (EliminationOrder.ofList (graph.independentOrder.1.map fun id =>
      (id, if graph.independentSet.contains id then 0 else 1))).groups x k ↔
      x ∈ graph.vertices ∧ k = if graph.independentSet.contains x then 0 else 1 := by
  have hperm := h.independentOrder_perm
  have hfst : ((graph.independentOrder.1.map fun id =>
      (id, if graph.independentSet.contains id then 0 else 1)).map Prod.fst).Nodup := by
    rw [List.map_map]
    exact (List.map_id graph.independentOrder.1).symm ▸ hperm.nodup_iff.mpr h.vertices.nodup
  rw [EliminationOrder.inGroup_ofList hfst, List.mem_map, ← hperm.mem_iff]
  constructor
  · rintro ⟨id, hid, heq⟩
    cases heq
    exact ⟨hid, rfl⟩
  · rintro ⟨hx, rfl⟩
    exact ⟨x, hx, rfl⟩

/-- No residual block reads two members of an independent set of a graph that
joins what is read together. -/
theorem independent_of_independentSet {graph : Graph} (hordered : graph.Ordered)
    (hjoins : g.Joins p graph)
    (hres : ∀ i ∈ g.residuals, ∀ r, p.residual? i = some r → r.blocks.Nodup)
    (hset : ∀ id ∈ set, id ∈ graph.independentSet) : g.Independent p set := by
  intro i hi r hr
  refine (length_le_one_iff ((hres i hi r hr).filter _)).mpr fun a ha b hb => ?_
  simp only [List.mem_filter, List.contains_iff_mem] at ha hb
  by_contra hab
  have hav := hordered.mem_vertices_of_mem_independentSet (hset a ha.2)
  have hbv := hordered.mem_vertices_of_mem_independentSet (hset b hb.2)
  exact hordered.not_adjacent_of_mem_independentSet (hset a ha.2) (hset b hb.2) hab
    ⟨hjoins i hi r hr a ha.1 b hb.1 hab hav hbv,
      hjoins i hi r hr b hb.1 a ha.1 (Ne.symm hab) hbv hav⟩

/-- The order of a program of free blocks that eliminates an independent
set. -/
theorem exists_schurOrder (hne : g.blocks ≠ [])
    (hfree : ∀ id ∈ g.blocks, ∃ b, p.block? id = some b ∧ b.constant = false)
    (hres : ∀ i ∈ g.residuals, ∃ r, p.residual? i = some r ∧ r.blocks.Nodup) :
    ∃ o, g.schurOrder p = .ok o ∧ o.WellFormed ∧ (∀ id, id ∈ o.toList ↔ id ∈ g.blocks) ∧
      ∃ ms, o.groups.head? = some (0, ms) ∧ g.Independent p ms := by
  obtain ⟨graph, hgraph⟩ := exists_graph
    (fun id hid => by
      obtain ⟨b, hb, -⟩ := hfree id hid
      exact Problem.contains_iff.mpr ⟨b, hb⟩)
    (fun i hi => (hres i hi).imp fun r hr => hr.1)
  obtain ⟨hordered, hvertices, hjoins⟩ := graph_eq_ok hgraph
  have hvertex : ∀ id, id ∈ graph.vertices ↔ id ∈ g.blocks := fun id =>
    (hvertices id).trans ⟨And.left, fun hid => ⟨hid, hfree id hid⟩⟩
  have hwf := (EliminationOrder.reachable_ofList (graph.independentOrder.1.map fun id =>
    (id, if graph.independentSet.contains id then 0 else 1))).wellFormed
  refine ⟨_, except_map_eq_ok.mpr ⟨graph, hgraph, rfl⟩, hwf, fun id => ?_, ?_⟩
  · simp only [EliminationOrder.mem_toList, inGroup_independentOrder hordered, exists_and_left,
      exists_eq, and_true, hvertex]
  · -- the set has a member, so there is a group zero
    have hvne : graph.vertices ≠ [] := by
      obtain ⟨id, hid⟩ := List.exists_mem_of_ne_nil _ hne
      exact List.ne_nil_of_mem ((hvertex id).mpr hid)
    obtain ⟨v, hv⟩ := List.exists_mem_of_ne_nil _ (hordered.independentSet_ne_nil hvne)
    obtain ⟨ms, hms, -⟩ := (inGroup_independentOrder hordered (x := v) (k := 0)).mpr
      ⟨hordered.mem_vertices_of_mem_independentSet hv, by simp [hv]⟩
    refine ⟨ms, Table.head?_eq hwf.grouped.sorted hms fun _ _ _ => Nat.zero_le _, ?_⟩
    refine independent_of_independentSet hordered hjoins (fun i hi r hr => ?_) fun id hid => ?_
    · obtain ⟨r', hr', hnodup⟩ := hres i hi
      rw [hr] at hr'
      cases hr'
      exact hnodup
    · have hzero := ((inGroup_independentOrder hordered).mp ⟨ms, hms, hid⟩).2
      by_contra hnot
      simp [hnot] at hzero

end Program

namespace Program

variable {α σ : Type} [Scalar α] {p : Problem α σ} {g g' : Program} {bucket n : Nat}

theorem lowestBucket_congr (h : g'.blocks = g.blocks) (ids : List BlockId) :
    g'.lowestBucket p bucket ids = g.lowestBucket p bucket ids := by
  induction ids generalizing bucket with
  | nil => rfl
  | cons id ids ih => simp only [lowestBucket, h, ih]

theorem bucketOf_congr (h : g'.blocks = g.blocks) (i : ResidualId) :
    g'.bucketOf p n i = g.bucketOf p n i := by
  simp only [bucketOf, lowestBucket_congr h]

end Program

/-! ## The whole arrangement -/

theorem withoutSchur_fst {kind : LinearSolverKind} (preconditioner : PreconditionerKind)
    (h : kind.isSchur = true) : (withoutSchur kind preconditioner).1 ≠ kind ∧
      (withoutSchur kind preconditioner).1.isSchur = false := by
  revert h
  cases kind <;> cases preconditioner <;> decide

namespace ReducedProgram

variable {α σ : Type} [Scalar α] {p : Problem α σ} {g : Program} {removal : Removal α}
  {o : EliminationOrder} {kind : LinearSolverKind} {preconditioner : PreconditionerKind}
  {group : Nat} {ms : List BlockId}

/-- An arrangement that a Schur solver can use. -/
structure SchurReady (r : ReducedProgram α) (p : Problem α σ) : Prop where
  blocks : r.program.blocks = r.order.toList
  free : ∀ id ∈ r.program.blocks, ∃ b, p.block? id = some b ∧ b.constant = false
  first : ∃ group ms, r.order.groups.head? = some (group, ms) ∧ ms ≠ [] ∧
    r.program.Independent p ms
  rows : ∃ rows : Nat → List ResidualId,
    r.program.residuals = (List.range (r.order.firstGroupSize + 1)).flatMap rows ∧
    ∀ k, ∀ i ∈ rows k, r.program.bucketOf p r.order.firstGroupSize i = .ok k

/-- Another solver takes over if nothing is left of the first group. -/
theorem chooseSolver_cases (ho : o.WellFormed) (hhead : o.groups.head? = some (group, ms))
    {ids : List BlockId} {solver : LinearSolverKind} {preconditioner' : PreconditionerKind}
    (h : chooseSolver kind preconditioner (some group) (o.removeAll ids) =
      (solver, preconditioner')) :
    (kind.isSchur = true ∧ (∀ id ∈ ms, id ∈ ids) ∧ solver ≠ kind ∧ solver.isSchur = false) ∨
      ¬ (kind.isSchur = true ∧ ∀ id ∈ ms, id ∈ ids) ∧ solver = kind := by
  have hsize : (o.removeAll ids).groupSize group = 0 ↔ ∀ id ∈ ms, id ∈ ids :=
    ho.groupSize_removeAll (List.mem_of_head? hhead)
  unfold chooseSolver at h
  split at h
  · rename_i hcond
    simp only [Option.any_some, Bool.and_eq_true, beq_iff_eq, hsize] at hcond
    obtain ⟨hne, hschur⟩ := withoutSchur_fst preconditioner hcond.1
    rw [h] at hne hschur
    exact .inl ⟨hcond.1, hcond.2, hne, hschur⟩
  · rename_i hcond
    simp only [Option.any_some, Bool.and_eq_true, beq_iff_eq, hsize] at hcond
    cases h
    exact .inr ⟨hcond, rfl⟩

/-- What is left of an order has the blocks that are left. -/
theorem covers_removeAll (ho : g.Fits p o kind) (hremoval : removal.Of p g) (id : BlockId) :
    id ∈ (o.removeAll removal.dropped).toList ↔ id ∈ removal.program.blocks := by
  rw [ho.wellFormed.mem_toList_removeAll, ho.covers, hremoval.mem_dropped]
  constructor
  · rintro ⟨hout, hid⟩
    by_contra hnot
    exact hout ⟨hid, hnot⟩
  · exact fun hid => ⟨fun hout => hout.2 hid, hremoval.sublist.subset hid⟩

/-- There is an order of what is left, and a Schur solver can eliminate its
first group. -/
theorem exists_chooseOrder (hp : p.Sound) (ho : g.Fits p o kind) (hremoval : removal.Of p g)
    (hne : removal.program.blocks ≠ []) (hhead : o.groups.head? = some (group, ms))
    {solver : LinearSolverKind}
    (hsolver : solver.isSchur = true → solver = kind ∧ ∃ id ∈ ms, id ∉ removal.dropped) :
    ∃ order, chooseOrder p removal.program solver (o.removeAll removal.dropped) = .ok order ∧
      order.WellFormed ∧ (∀ id, id ∈ order.toList ↔ id ∈ removal.program.blocks) ∧
      (solver.isSchur = true → ∃ group ms, order.groups.head? = some (group, ms) ∧
        removal.program.Independent p ms) := by
  unfold chooseOrder
  split
  · obtain ⟨order, horder, hwf, hcovers, ms', hhead', hind⟩ := Program.exists_schurOrder hne
      (fun id hid => by
        obtain ⟨-, i, -, r, -, -, hb⟩ := (hremoval.mem_blocks id).mp hid
        exact hb)
      (fun i hi => by
        obtain ⟨⟨r, hr, -⟩, -⟩ := hremoval.kept i hi
        exact ⟨r, hr, (hp.reads i r hr).1⟩)
    exact ⟨order, horder, hwf, hcovers, fun _ => ⟨0, ms', hhead', hind⟩⟩
  · rename_i hgroups
    refine ⟨_, rfl, ho.wellFormed.removeAll _, covers_removeAll ho hremoval, fun hs => ?_⟩
    obtain ⟨rfl, hleft⟩ := hsolver hs
    obtain ⟨ms', hhead', hsub⟩ := ho.wellFormed.head_removeAll hhead hleft
    have hle : (o.removeAll removal.dropped).numGroups ≤ o.numGroups :=
      ho.wellFormed.numGroups_removeAll_le
    have hmany : 1 < o.numGroups := by
      simp only [hs, Bool.true_and, decide_eq_true_eq] at hgroups
      omega
    refine ⟨group, ms', hhead', (ho.independent hs hmany group ms hhead).mono ?_ hsub⟩
    obtain ⟨fixed, hperm, -⟩ := hremoval.residuals
    exact fun i hi => hperm.mem_iff.mpr (List.mem_append.mpr (.inr hi))

private theorem arrange_of_steps {firstGroup : Option Nat} {solver : LinearSolverKind}
    {preconditioner' : PreconditionerKind} {order : EliminationOrder} {arranged program : Program}
    (hsolver : chooseSolver kind preconditioner firstGroup o = (solver, preconditioner'))
    (horder : chooseOrder p removal.program solver o = .ok order)
    (harranged : removal.program.applyOrder order = .ok arranged)
    (hrows : chooseRows p arranged solver order = .ok program) :
    arrange p removal kind preconditioner firstGroup o =
      .ok ⟨program, removal.fixedCost, solver, preconditioner', order⟩ := by
  unfold arrange
  rw [hsolver]
  dsimp only
  rw [horder]
  show (Outcome.ofExcept (removal.program.applyOrder order) >>= _) = _
  rw [harranged]
  show (chooseRows p arranged solver order >>= _) = _
  rw [hrows]
  rfl

/-- A group is dropped if nothing of it is left. -/
theorem forall_mem_dropped (ho : g.Fits p o kind) (hremoval : removal.Of p g)
    (hms : (group, ms) ∈ o.groups) :
    (∀ id ∈ ms, id ∈ removal.dropped) ↔ ∀ id ∈ ms, id ∉ removal.program.blocks := by
  refine forall_congr' fun id => forall_congr' fun hid => ?_
  have hmem : id ∈ o.toList := EliminationOrder.mem_toList.mpr ⟨group, ms, hms, hid⟩
  rw [hremoval.mem_dropped, ← ho.covers]
  simp [hmem]

/-- The rows can be put in order for every solver, and then suit a Schur
solver if one is used. -/
theorem exists_chooseRows {solver : LinearSolverKind} {order : EliminationOrder}
    (hremoval : removal.Of p g) (hwf : order.WellFormed)
    (hcovers : ∀ id, id ∈ order.toList ↔ id ∈ removal.program.blocks)
    (hfirst : solver.isSchur = true → ∃ group ms, order.groups.head? = some (group, ms) ∧
      removal.program.Independent p ms) :
    ∃ program, chooseRows p { removal.program with blocks := order.toList } solver order =
        .ok program ∧ program.blocks = order.toList ∧
      (solver.isSchur = true → ∀ fixedCost preconditioner,
        SchurReady ⟨program, fixedCost, solver, preconditioner, order⟩ p) := by
  by_cases hs : solver.isSchur = true
  · obtain ⟨group, ms, hhead, hind⟩ := hfirst hs
    have hms : ms ≠ [] := (hwf.grouped.members group ms (List.mem_of_head? hhead)).2
    have hsize : order.firstGroupSize ≠ 0 := by
      rw [EliminationOrder.firstGroupSize_eq hhead]
      simpa using hms
    obtain ⟨⟨sizes, program⟩, hrows⟩ := Program.exists_orderResiduals
      (g := { removal.program with blocks := order.toList }) hsize
      fun i hi => (hremoval.kept i hi).1
    obtain ⟨hblocks, hperm, rows, hres, hbucket⟩ := Program.orderResiduals_spec hrows
    refine ⟨program, ?_, hblocks, fun _ fixedCost preconditioner => ?_⟩
    · rw [chooseRows, if_pos hs, hrows]
      rfl
    · refine ⟨hblocks, ?_, ⟨group, ms, hhead, hms, ?_⟩, rows, hres, fun k i hi => ?_⟩
      · intro id hid
        rw [hblocks] at hid
        obtain ⟨-, i, -, r, -, -, hb⟩ := (hremoval.mem_blocks id).mp ((hcovers id).mp hid)
        exact hb
      · exact hind.mono (fun i hi => hperm.mem_iff.mp hi) fun _ h => h
      · rw [← hbucket k i hi]
        exact Program.bucketOf_congr hblocks i
  · exact ⟨_, by rw [chooseRows, if_neg hs], rfl, fun h => absurd h hs⟩

/-- Arranging what is left of a program cannot fail. -/
theorem exists_arrange (preconditioner : PreconditionerKind) (hp : p.Sound) (hg : g.Closed p)
    (ho : g.Fits p o kind) (hremoval : removal.Of p g) (hne : removal.program.blocks ≠ []) :
    ∃ r, arrange p removal kind preconditioner (o.groups.head?.map Prod.fst)
        (o.removeAll removal.dropped) = .ok r ∧
      (∀ id, id ∈ r.program.blocks ↔ id ∈ removal.program.blocks) ∧
      (r.linearSolver ≠ kind ↔ kind.isSchur = true ∧ ∃ group ms,
        o.groups.head? = some (group, ms) ∧ ∀ id ∈ ms, id ∉ removal.program.blocks) ∧
      (r.linearSolver.isSchur = true → r.SchurReady p) := by
  -- what is left was in the order, so the order has a first group
  obtain ⟨id, hid⟩ := List.exists_mem_of_ne_nil _ hne
  obtain ⟨group, ms, hhead⟩ :=
    ho.exists_head (List.ne_nil_of_mem (hremoval.sublist.subset hid))
  have hdropped := forall_mem_dropped ho hremoval (List.mem_of_head? hhead)
  have hfirstGroup : o.groups.head?.map Prod.fst = some group := by
    rw [hhead]
    rfl
  obtain ⟨⟨solver, preconditioner'⟩, hsolver⟩ : ∃ s,
      chooseSolver kind preconditioner (some group) (o.removeAll removal.dropped) = s := ⟨_, rfl⟩
  have hcases := chooseSolver_cases ho.wellFormed hhead hsolver
  have hschur : solver.isSchur = true →
      solver = kind ∧ ∃ id ∈ ms, id ∉ removal.dropped := by
    intro hs
    rcases hcases with ⟨-, -, -, hno⟩ | ⟨hno, rfl⟩
    · rw [hs] at hno
      cases hno
    · refine ⟨rfl, ?_⟩
      by_contra hall
      push Not at hall
      exact hno ⟨hs, hall⟩
  have hiff : solver ≠ kind ↔ kind.isSchur = true ∧ ∃ group ms,
      o.groups.head? = some (group, ms) ∧ ∀ id ∈ ms, id ∉ removal.program.blocks := by
    simp only [hhead, Option.some.injEq, Prod.mk.injEq]
    rcases hcases with ⟨hk, hall, hdiff, -⟩ | ⟨hno, rfl⟩
    · exact iff_of_true hdiff ⟨hk, group, ms, ⟨rfl, rfl⟩, hdropped.mp hall⟩
    · refine iff_of_false (fun h => h rfl) ?_
      rintro ⟨hk, _, _, ⟨rfl, rfl⟩, hall⟩
      exact hno ⟨hk, hdropped.mpr hall⟩
  obtain ⟨order, horder, hwf, hcovers, hfirst⟩ :=
    exists_chooseOrder hp ho hremoval hne hhead hschur
  have harranged := Program.applyOrder_of_covers hwf (hg.nodup.sublist hremoval.sublist) hcovers
  obtain ⟨program, hrows, hblocks, hready⟩ := exists_chooseRows hremoval hwf hcovers hfirst
  rw [hfirstGroup]
  refine ⟨_, arrange_of_steps hsolver horder harranged hrows, fun id => ?_, hiff,
    fun hs => hready hs _ _⟩
  rw [hblocks, hcovers]

/-- What is left of a closed program, arranged in any way, is closed. -/
theorem closed_of_perm (hg : g.Closed p) (hremoval : removal.Of p g) {g' : Program}
    (hresiduals : g'.residuals.Perm removal.program.residuals)
    (hblocks : g'.blocks.Perm removal.program.blocks) : g'.Closed p where
  nodup := hblocks.nodup_iff.mpr (hg.nodup.sublist hremoval.sublist)
  live id hid := hg.live id (hremoval.sublist.subset (hblocks.mem_iff.mp hid))
  readable i hi := (hremoval.kept i (hresiduals.mem_iff.mp hi)).1
  covers i hi id hid := by
    have hi' := hresiduals.mem_iff.mp hi
    obtain ⟨fixed, hperm, -⟩ := hremoval.residuals
    have hmem := hg.covers i (hperm.mem_iff.mpr (List.mem_append.mpr (.inr hi'))) id hid
    exact hblocks.mem_iff.mpr ((hremoval.mem_blocks id).mpr ⟨hmem, i, hi', hid⟩)

theorem succeeds_ofProgram (preconditioner : PreconditionerKind) (hp : p.Sound) (hg : g.Closed p)
    (ho : g.Fits p o kind) {t : Tally σ} :
    Succeeds (ofProgram p g o kind preconditioner).run t fun res t' =>
      match res with
      | .ok r => r.program.Closed p ∧
          (r.linearSolver ≠ kind ↔ kind.isSchur = true ∧ r.program.blocks ≠ [] ∧
            ∃ group ms, o.groups.head? = some (group, ms) ∧ ∀ id ∈ ms, id ∉ r.program.blocks) ∧
          (r.linearSolver.isSchur = true → r.program.blocks ≠ [] → r.SchurReady p)
      | .error e => ∃ n i, g.residuals[n]? = some i ∧ (∀ id, ¬ p.ReadsFree i id) ∧
          p.FailsAt i t' ∧ e = .fixedCostFailed n := by
  unfold ofProgram
  rw [succeeds_run_bind]
  refine (Program.succeeds_removeFixed hg).mono ?_
  rintro (e | removal) t' h
  · exact h
  · have hremoval : removal.Of p g := h
    dsimp only
    split
    · rename_i hempty
      rw [List.isEmpty_iff] at hempty
      refine succeeds_run_pure.mpr ⟨closed_of_perm hg hremoval (.refl _) (.refl _), ?_, ?_⟩
      · exact iff_of_false (fun h => h rfl) fun h => h.2.1 hempty
      · exact fun _ hne => absurd hempty hne
    · rename_i hempty
      have hne : removal.program.blocks ≠ [] := by simpa using hempty
      obtain ⟨r, hr, hmem, hsolver, hschur⟩ :=
        exists_arrange preconditioner hp hg ho hremoval hne
      obtain ⟨-, hresiduals, hblocks, -⟩ := arrange_eq_ok (ho.wellFormed.removeAll _) hr
      have hne' : r.program.blocks ≠ [] := by
        obtain ⟨id, hid⟩ := List.exists_mem_of_ne_nil _ hne
        exact List.ne_nil_of_mem ((hmem id).mpr hid)
      rw [hr, liftOutcome]
      refine succeeds_run_pure.mpr
        ⟨closed_of_perm hg hremoval hresiduals hblocks, ?_, fun hs _ => hschur hs⟩
      rw [hsolver]
      simp only [hmem, ne_eq, hne', not_false_eq_true, true_and]

/-- A closed program can be reduced, but for a residual block without a usable
evaluation that reads constant blocks only. All blocks that are left are live,
so all their places are written; if the program cannot be reduced, nothing is. -/
theorem succeeds_create (preconditioner : PreconditionerKind) (hp : p.Sound) (hg : g.Closed p)
    (ho : g.Fits p o kind) {t : Tally σ} :
    Succeeds (create p g o kind preconditioner) t fun res t' =>
      match res.1 with
      | .ok r => p.SameContent res.2 ∧ r.program.isValid res.2 = true ∧ r.program.Closed p ∧
          (r.linearSolver ≠ kind ↔ kind.isSchur = true ∧ r.program.blocks ≠ [] ∧
            ∃ group ms, o.groups.head? = some (group, ms) ∧ ∀ id ∈ ms, id ∉ r.program.blocks) ∧
          (r.linearSolver.isSchur = true → r.program.blocks ≠ [] → r.SchurReady p)
      | .error e => res.2 = p ∧ ∃ n i, g.residuals[n]? = some i ∧ (∀ id, ¬ p.ReadsFree i id) ∧
          p.FailsAt i t' ∧ e = .fixedCostFailed n := by
  rw [create, succeeds_bind]
  refine (succeeds_ofProgram preconditioner hp hg ho).mono ?_
  rintro (e | r) t' h
  · exact succeeds_pure.mpr ⟨rfl, h⟩
  · have hclosed : r.program.Closed p := h.1
    have hoffsets : r.program.setOffsets p = (.ok (), (r.program.setOffsets p).2) :=
      Prod.ext (Program.setOffsetsFrom_ok hclosed.live) rfl
    dsimp only
    rw [hoffsets]
    exact succeeds_pure.mpr ⟨Program.sameContent_setOffsets,
      Program.isValid_setOffsets hclosed.nodup hclosed.live, h⟩

end ReducedProgram

end LeastSquares
