import LeastSquares.Proofs.IndependentSets
import LeastSquares.Proofs.InnerOrder
import LeastSquares.Proofs.Real
import Mathlib.Data.List.Sort

/-!
# Peeling off independent sets

Every round takes a maximal independent set of the vertices that are left as
the next group. A graph with vertices has one with a member, so every round
takes vertices away and the rounds come to an end. The vertices that are
left and the groups together are always the vertices of the whole graph, and
a vertex that was left by a round has a neighbour in the group of that
round, because the set of that round could not be added to.

## Main definitions

* `Graph.Peels` — the rounds as they follow one another.
* `Graph.Peeled` — what holds between two rounds.
* `Program.shares` — some residual block reads two blocks.

## Main results

* `Graph.Undirected.peels` — the rounds come to an end.
* `Graph.Peeled.round`, `Graph.Peels.peeled` — what a round keeps, and what
  all rounds keep.
* `Program.peeledOrder_outcome` — the groups of a program.
-/

namespace LeastSquares

/-! ## Blocks and groups of an order -/

theorem EliminationOrder.WellFormed.group?_addAll {o : EliminationOrder} (h : o.WellFormed)
    (ids : List BlockId) (group : Nat) (x : BlockId) :
    (ids.foldl (fun o id => o.add id group) o).group? x =
      if x ∈ ids then some group else o.group? x := by
  obtain ⟨hwf, hgroups⟩ := h.addAll ids group
  ext k
  rw [hwf.group?_eq_some_iff, hgroups, ← h.group?_eq_some_iff]
  by_cases hx : x ∈ ids <;> simp [hx, eq_comm]

theorem EliminationOrder.contains_iff_exists {o : EliminationOrder} {id : BlockId} :
    o.contains id = true ↔ ∃ k, o.group? id = some k := Option.isSome_iff_exists

/-- The groups of an order without gaps, in order. -/
theorem EliminationOrder.WellFormed.keys_eq_range {o : EliminationOrder} (h : o.WellFormed)
    {n : Nat} (hn : ∀ k, (∃ id, o.group? id = some k) ↔ k < n) :
    o.groups.keys = List.range n := by
  have hkeys : ∀ k, k ∈ o.groups.keys ↔ ∃ id, o.group? id = some k := by
    intro k
    simp only [h.group?_eq_some_iff]
    constructor
    · intro hk
      obtain ⟨⟨k, ms⟩, hms, rfl⟩ := List.mem_map.mp hk
      obtain ⟨id, hid⟩ := List.exists_mem_of_ne_nil ms (h.grouped.members k ms hms).2
      exact ⟨id, ms, hms, hid⟩
    · intro ⟨id, ms, hms, _⟩
      exact List.mem_map.mpr ⟨(k, ms), hms, rfl⟩
  have hsorted : o.groups.keys.Pairwise (· < ·) := h.grouped.sorted
  have hperm : o.groups.keys.Perm (List.range n) :=
    (List.perm_ext_iff_of_nodup (hsorted.imp Nat.ne_of_lt) List.nodup_range).mpr fun k => by
      rw [hkeys, hn, List.mem_range]
  exact hperm.eq_of_pairwise' hsorted List.pairwise_lt_range

namespace Graph

variable {g whole : Graph} {o o' : EliminationOrder} {group last : Nat}

/-! ## Removing several vertices -/

/-- The graph without the vertices of a list. -/
theorem Undirected.removeVertices (h : g.Undirected) (vs : List BlockId) :
    (vs.foldl Graph.removeVertex g).Undirected ∧
      (∀ x, x ∈ (vs.foldl Graph.removeVertex g).vertices ↔ x ∉ vs ∧ x ∈ g.vertices) ∧
      ∀ x y, (vs.foldl Graph.removeVertex g).Adjacent x y → g.Adjacent x y := by
  induction vs generalizing g with
  | nil => exact ⟨h, by simp, fun _ _ hadj => hadj⟩
  | cons v vs ih =>
      obtain ⟨hrest, hvertices, hedges⟩ := ih (h.removeVertex v)
      refine ⟨hrest, fun x => ?_, fun x y hadj => ?_⟩
      · rw [List.foldl_cons, hvertices, h.ordered.mem_vertices_removeVertex, List.mem_cons, not_or]
        tauto
      · exact (h.adjacent_removeVertex.mp (hedges x y hadj)).2.2

/-! ## Rounds -/

/-- Peeling without a bound on the rounds. It ends when no vertex is left, with
as many groups as there were rounds. -/
inductive Peels : Nat → Graph → EliminationOrder → Nat → EliminationOrder → Prop where
  | done {group : Nat} {g : Graph} {o : EliminationOrder} (h : g.vertices = []) :
      Peels group g o group o
  | round {group last : Nat} {g : Graph} {o o' : EliminationOrder} (h : g.vertices ≠ [])
      (rest : Peels (group + 1) (g.independentSet.foldl removeVertex g)
        (g.independentSet.foldl (fun o v => o.add v group) o) last o') :
      Peels group g o last o'

/-- A round takes at least one vertex away. -/
theorem Undirected.numVertices_round_lt (h : g.Undirected) (hne : g.vertices ≠ []) :
    (g.independentSet.foldl Graph.removeVertex g).numVertices < g.numVertices := by
  obtain ⟨v, hv⟩ := List.exists_mem_of_ne_nil _ (h.ordered.independentSet_ne_nil hne)
  obtain ⟨hrest, hvertices, -⟩ := h.removeVertices g.independentSet
  have hnodup : (v :: (g.independentSet.foldl Graph.removeVertex g).vertices).Nodup := by
    refine List.nodup_cons.mpr ⟨fun hmem => ?_, hrest.ordered.vertices.nodup⟩
    exact ((hvertices v).mp hmem).1 hv
  have hsub : v :: (g.independentSet.foldl Graph.removeVertex g).vertices ⊆ g.vertices := by
    intro x hx
    rcases List.mem_cons.mp hx with rfl | hx
    · exact h.ordered.mem_vertices_of_mem_independentSet hv
    · exact ((hvertices x).mp hx).2
  have hlen := (hnodup.subperm hsub).length_le
  rw [List.length_cons] at hlen
  exact hlen

/-- As many rounds as there are vertices are enough. -/
theorem Undirected.peels (h : g.Undirected) {rounds : Nat} (hrounds : g.numVertices ≤ rounds)
    (group : Nat) (o : EliminationOrder) :
    ∃ last, Peels group g o last (peel rounds group g o) := by
  induction rounds generalizing g group o with
  | zero =>
      have hempty : g.vertices = [] := List.eq_nil_of_length_eq_zero (by
        unfold numVertices at hrounds
        omega)
      exact ⟨group, .done hempty⟩
  | succ rounds ih =>
      rw [peel]
      by_cases hempty : g.vertices = []
      · rw [if_pos (List.isEmpty_iff.mpr hempty)]
        exact ⟨group, .done hempty⟩
      · rw [if_neg (mt List.isEmpty_iff.mp hempty)]
        have hlt := h.numVertices_round_lt hempty
        obtain ⟨last, hrest⟩ := ih (h.removeVertices g.independentSet).1 (by omega) (group + 1)
          (g.independentSet.foldl (fun o v => o.add v group) o)
        exact ⟨last, .round hempty hrest⟩

/-- What holds between two rounds. The vertices of the whole graph are left or
in one of the groups that were peeled off, and each of them has a neighbour in
every one of these groups that comes before its own. -/
structure Peeled (whole : Graph) (group : Nat) (g : Graph) (o : EliminationOrder) : Prop where
  undirected : g.Undirected
  wellFormed : o.WellFormed
  vertices : ∀ v, v ∈ whole.vertices ↔ v ∈ g.vertices ∨ ∃ k, o.group? v = some k
  apart : ∀ v ∈ g.vertices, o.group? v = none
  edges : ∀ a b, g.Adjacent a b → whole.Adjacent a b
  numbers : ∀ k, (∃ v, o.group? v = some k) ↔ k < group
  left : ∀ v ∈ g.vertices, ∀ k < group, ∃ w, o.group? w = some k ∧ whole.Adjacent v w
  placed : ∀ v l k, o.group? v = some l → k < l → ∃ w, o.group? w = some k ∧ whole.Adjacent v w

theorem Undirected.peeled (h : whole.Undirected) : Peeled whole 0 whole .empty where
  undirected := h
  wellFormed := EliminationOrder.wellFormed_empty
  vertices _ := ⟨.inl, fun hv => hv.resolve_right nofun⟩
  apart _ _ := rfl
  edges _ _ hadj := hadj
  numbers _ := ⟨nofun, nofun⟩
  left := nofun
  placed := nofun

/-- The vertices that are chosen become the members of the new group. -/
theorem Peeled.group?_chosen (h : Peeled whole group g o) {v : BlockId}
    (hv : v ∈ g.independentSet) :
    (g.independentSet.foldl (fun o v => o.add v group) o).group? v = some group := by
  rw [h.wellFormed.group?_addAll, if_pos hv]

/-- Blocks with a group keep it, since they are not among the vertices that are
left. -/
theorem Peeled.group?_kept (h : Peeled whole group g o) {v : BlockId} {k : Nat}
    (hv : o.group? v = some k) :
    (g.independentSet.foldl (fun o v => o.add v group) o).group? v = some k := by
  have hout : v ∉ g.independentSet := by
    intro hin
    rw [h.apart v (h.undirected.ordered.mem_vertices_of_mem_independentSet hin)] at hv
    cases hv
  rw [h.wellFormed.group?_addAll, if_neg hout, hv]

/-- A vertex that a round leaves has a neighbour in every group. -/
theorem Peeled.exists_adjacent (h : Peeled whole group g o) {v : BlockId} (hv : v ∈ g.vertices)
    (hout : v ∉ g.independentSet) {k : Nat} (hk : k < group + 1) :
    ∃ w, (g.independentSet.foldl (fun o v => o.add v group) o).group? w = some k ∧
      whole.Adjacent v w := by
  by_cases heq : k = group
  · -- the set of this round cannot be added to
    obtain ⟨w, hw, hadj⟩ := h.undirected.exists_adjacent_independentSet hv hout
    exact ⟨w, heq ▸ h.group?_chosen hw, h.edges v w hadj⟩
  · obtain ⟨w, hw, hadj⟩ := h.left v hv k (by omega)
    exact ⟨w, h.group?_kept hw, hadj⟩

/-- A round keeps it. -/
theorem Peeled.round (h : Peeled whole group g o) (hne : g.vertices ≠ []) :
    Peeled whole (group + 1) (g.independentSet.foldl removeVertex g)
      (g.independentSet.foldl (fun o v => o.add v group) o) := by
  obtain ⟨hrest, hvertices, hedges⟩ := h.undirected.removeVertices g.independentSet
  have hgroup := h.wellFormed.group?_addAll g.independentSet group
  have hmem : ∀ v ∈ g.independentSet, v ∈ g.vertices := fun v hv =>
    h.undirected.ordered.mem_vertices_of_mem_independentSet hv
  refine
    { undirected := hrest
      wellFormed := (h.wellFormed.addAll g.independentSet group).1
      vertices := ?vertices
      apart := ?apart
      edges := fun a b hadj => h.edges a b (hedges a b hadj)
      numbers := ?numbers
      left := ?left
      placed := ?placed }
  case vertices =>
    intro v
    rw [h.vertices, hvertices, hgroup]
    by_cases hv : v ∈ g.independentSet
    · simp [hv, hmem v hv]
    · simp [hv]
  case apart =>
    intro v hv
    rw [hvertices] at hv
    rw [hgroup, if_neg hv.1, h.apart v hv.2]
  case numbers =>
    intro k
    constructor
    · intro ⟨v, hv⟩
      rw [hgroup] at hv
      split at hv
      · cases hv
        exact Nat.lt_succ_self group
      · exact Nat.lt_succ_of_lt ((h.numbers k).mp ⟨v, hv⟩)
    · intro hk
      rcases Nat.lt_succ_iff_lt_or_eq.mp hk with hlt | rfl
      · obtain ⟨v, hv⟩ := (h.numbers k).mpr hlt
        exact ⟨v, h.group?_kept hv⟩
      · obtain ⟨v, hv⟩ :=
          List.exists_mem_of_ne_nil _ (h.undirected.ordered.independentSet_ne_nil hne)
        exact ⟨v, h.group?_chosen hv⟩
  case left =>
    intro v hv k hk
    rw [hvertices] at hv
    exact h.exists_adjacent hv.2 hv.1 hk
  case placed =>
    intro v l k hv hk
    rw [hgroup] at hv
    split at hv
    · rename_i hin
      cases hv
      obtain ⟨w, hw, hadj⟩ := h.left v (hmem v hin) k hk
      exact ⟨w, h.group?_kept hw, hadj⟩
    · obtain ⟨w, hw, hadj⟩ := h.placed v l k hv hk
      exact ⟨w, h.group?_kept hw, hadj⟩

/-- All rounds keep it, and no vertex is left in the end. -/
theorem Peels.peeled (hpeels : Peels group g o last o') (h : Peeled whole group g o) :
    ∃ rest, Peeled whole last rest o' ∧ rest.vertices = [] := by
  induction hpeels with
  | done hempty => exact ⟨_, h, hempty⟩
  | round hne _ ih => exact ih (h.round hne)

/-- The groups are numbered without gaps. -/
theorem Peeled.keys_eq (h : Peeled whole group g o) : o.groups.keys = List.range group :=
  h.wellFormed.keys_eq_range h.numbers

theorem Peeled.numGroups (h : Peeled whole group g o) : o.numGroups = group := by
  have hlen := congrArg List.length h.keys_eq
  rw [List.length_range, Table.keys, List.length_map] at hlen
  exact hlen

/-! ## Graphs built from lists -/

theorem Reachable.addVertices {β : Type} (h : g.Reachable) (f : β → BlockId) (l : List β) :
    (l.foldl (fun g b => g.addVertex (f b)) g).Reachable := by
  induction l generalizing g with
  | nil => exact h
  | cons b l ih => exact ih (h.addVertex (f b))

theorem Reachable.addEdges (h : g.Reachable) (es : List (BlockId × BlockId)) :
    (es.foldl (fun g (a, b) => g.addEdge a b) g).Reachable := by
  induction es generalizing g with
  | nil => exact h
  | cons e es ih => exact ih (h.addEdge e.1 e.2)

/-- New vertices bring no edges. -/
theorem Undirected.not_adjacent_addVertices {β : Type} (h : g.Undirected)
    (hno : ∀ a b, ¬ g.Adjacent a b) (f : β → BlockId) (l : List β) (a b : BlockId) :
    ¬ (l.foldl (fun g b => g.addVertex (f b)) g).Adjacent a b := by
  induction l generalizing g with
  | nil => exact hno a b
  | cons c l ih =>
      refine ih (h.addVertex (f c)) fun x y => ?_
      rw [h.adjacent_addVertex]
      exact hno x y

end Graph

/-! ## A triangle and a square -/

namespace Gallery

variable {α : Type} [Scalar α]

/-- One residual block that reads three blocks and four that read two: a
triangle and a square with one corner in common. -/
def skewed (α : Type) [Scalar α] : Problem α Unit where
  slots := Array.replicate 6 ⟨0, some { values := .ofList [0] }⟩
  residuals := #[some ⟨[⟨0, 0⟩, ⟨2, 0⟩, ⟨5, 0⟩], sum 0 [1, 1, 1], none⟩,
    some ⟨[⟨1, 0⟩, ⟨3, 0⟩], sum 0 [1, 1], none⟩, some ⟨[⟨1, 0⟩, ⟨4, 0⟩], sum 0 [1, 1], none⟩,
    some ⟨[⟨3, 0⟩, ⟨5, 0⟩], sum 0 [1, 1], none⟩, some ⟨[⟨4, 0⟩, ⟨5, 0⟩], sum 0 [1, 1], none⟩]
  numBlocks := 6
  numResidualBlocks := 5

theorem reachable_skewed : (skewed α).Reachable := by
  have h : Problem.Reachable (α := α) (σ := Unit) .empty := .empty
  have h := h.addBlock (.inr (show 0 < UInt32.size by decide)) (.ofList [0])
  have h := h.addBlock (.inr (show 1 < UInt32.size by decide)) (.ofList [0])
  have h := h.addBlock (.inr (show 2 < UInt32.size by decide)) (.ofList [0])
  have h := h.addBlock (.inr (show 3 < UInt32.size by decide)) (.ofList [0])
  have h := h.addBlock (.inr (show 4 < UInt32.size by decide)) (.ofList [0])
  have h := h.addBlock (.inr (show 5 < UInt32.size by decide)) (.ofList [0])
  have h := h.addResidual
    (show Problem.addResidual _ (sum 0 [1, 1, 1]) none [⟨0, 0⟩, ⟨2, 0⟩, ⟨5, 0⟩] = .ok (_, _) from rfl)
  have h := h.addResidual
    (show Problem.addResidual _ (sum 0 [1, 1]) none [⟨1, 0⟩, ⟨3, 0⟩] = .ok (_, _) from rfl)
  have h := h.addResidual
    (show Problem.addResidual _ (sum 0 [1, 1]) none [⟨1, 0⟩, ⟨4, 0⟩] = .ok (_, _) from rfl)
  have h := h.addResidual
    (show Problem.addResidual _ (sum 0 [1, 1]) none [⟨3, 0⟩, ⟨5, 0⟩] = .ok (_, _) from rfl)
  exact h.addResidual
    (show Problem.addResidual _ (sum 0 [1, 1]) none [⟨4, 0⟩, ⟨5, 0⟩] = .ok (_, _) from rfl)

theorem peeledOrder_skewed : (Program.ofProblem (skewed ℝ)).peeledOrder (skewed ℝ) =
    .ok (.ofList [(⟨0, 0⟩, 0), (⟨1, 0⟩, 0), (⟨2, 0⟩, 1), (⟨3, 0⟩, 1), (⟨4, 0⟩, 1),
      (⟨5, 0⟩, 2)]) := by
  have hgraph : (Program.ofProblem (skewed ℝ)).graph (skewed ℝ) = .ok
      ⟨[⟨0, 0⟩, ⟨1, 0⟩, ⟨2, 0⟩, ⟨3, 0⟩, ⟨4, 0⟩, ⟨5, 0⟩],
        [(⟨0, 0⟩, [⟨2, 0⟩, ⟨5, 0⟩]), (⟨1, 0⟩, [⟨3, 0⟩, ⟨4, 0⟩]), (⟨2, 0⟩, [⟨0, 0⟩, ⟨5, 0⟩]),
          (⟨3, 0⟩, [⟨1, 0⟩, ⟨5, 0⟩]), (⟨4, 0⟩, [⟨1, 0⟩, ⟨5, 0⟩]),
          (⟨5, 0⟩, [⟨0, 0⟩, ⟨2, 0⟩, ⟨3, 0⟩, ⟨4, 0⟩])]⟩ := by rfl
  rw [Program.peeledOrder, hgraph]
  cbv

end Gallery

/-! ## The graph of a program -/

namespace Program

variable {α σ : Type} [Scalar α] {g : Program} {p : Problem α σ} {graph : Graph}
  {a b : BlockId}

/-- Whether some residual block of the program reads both blocks. -/
def shares (g : Program) (p : Problem α σ) (a b : BlockId) : Bool :=
  g.residuals.any fun i =>
    (p.residual? i).any fun r => r.blocks.contains a && r.blocks.contains b

theorem shares_iff : g.shares p a b = true ↔
    ∃ i ∈ g.residuals, ∃ r, p.residual? i = some r ∧ a ∈ r.blocks ∧ b ∈ r.blocks := by
  simp [shares, Option.any_eq_true]

theorem shares_comm (a b : BlockId) : g.shares p a b = g.shares p b a := by
  simp only [shares, Bool.and_comm]

/-- The graph of a program is one that can be built, and joins only blocks that
are read together. -/
theorem graph_outcome (h : g.graph p = .ok graph) :
    graph.Reachable ∧ ∀ a b, graph.Adjacent a b → g.shares p a b = true := by
  simp only [Program.graph, except_bind_eq_ok, except_pure_eq_ok] at h
  obtain ⟨blocks, -, residuals, hresiduals, rfl⟩ := h
  rw [mapM_eq_ok_iff] at hresiduals
  have hvertices : ((blocks.filter fun b => !b.2).foldl (fun g b => g.addVertex b.1)
      Graph.empty).Reachable := Graph.Reachable.empty.addVertices Prod.fst _
  refine ⟨hvertices.addEdges _, fun a b hadj => ?_⟩
  rw [Graph.adjacent_addEdges hvertices.undirected.ordered] at hadj
  obtain ⟨-, -, -, hpair⟩ := hadj.resolve_left
    (Graph.undirected_empty.not_adjacent_addVertices Graph.not_adjacent_empty Prod.fst _ a b)
  have hread : ∀ {a b}, (a, b) ∈ residuals.flatMap (fun r => pairs r.blocks) →
      g.shares p a b = true := by
    intro a b hab
    obtain ⟨r, hr, hab⟩ := List.mem_flatMap.mp hab
    obtain ⟨i, hi, hir⟩ := exists_left_of_forall₂ hresiduals r hr
    exact shares_iff.mpr ⟨i, hi, r, Problem.residual_eq_ok.mp hir, mem_of_mem_pairs hab⟩
  rcases hpair with hab | hba
  · exact hread hab
  · rw [shares_comm]
    exact hread hba

/-! ## The groups of a program -/

/-- What holds of the groups that are peeled off the graph of a program. -/
theorem peeled_peeledOrder {o : EliminationOrder} (hgraph : g.graph p = .ok graph)
    (ho : g.peeledOrder p = .ok o) : ∃ last rest, Graph.Peels 0 graph .empty last o ∧
      Graph.Peeled graph last rest o ∧ rest.vertices = [] := by
  rw [peeledOrder, hgraph] at ho
  cases ho
  have hundirected := (graph_outcome hgraph).1.undirected
  obtain ⟨last, hpeels⟩ := hundirected.peels (Nat.le_refl graph.numVertices) 0 .empty
  obtain ⟨rest, hpeeled, hnone⟩ := hpeels.peeled hundirected.peeled
  exact ⟨last, rest, hpeels, hpeeled, hnone⟩

/-- Peeling independent sets off the graph of a program with live handles comes
to an end. The blocks that are not held constant are divided into groups
without gaps in their numbers, no residual block reads two members of a group,
and each block is read together with some block of every earlier group. -/
theorem peeledOrder_outcome (hp : p.Reachable)
    (hblocks : ∀ id ∈ g.blocks, p.contains id = true)
    (hresiduals : ∀ i ∈ g.residuals, ∃ r, p.residual? i = some r) :
    ∃ graph o, g.graph p = .ok graph ∧ g.peeledOrder p = .ok o ∧
      Graph.Peels 0 graph .empty o.numGroups o ∧
      (∀ id, o.contains id = true ↔
        id ∈ g.blocks ∧ ∃ b, p.block? id = some b ∧ b.constant = false) ∧
      o.groups.keys = List.range o.numGroups ∧
      (∀ k ms, (k, ms) ∈ o.groups → g.isIndependent p ms = .ok true) ∧
      ∀ a k l, o.group? a = some k → l < k →
        ∃ b, o.group? b = some l ∧ g.shares p a b = true := by
  obtain ⟨graph, hgraph⟩ := exists_graph hblocks hresiduals
  have hok : g.peeledOrder p = .ok (Graph.peel graph.numVertices 0 graph .empty) := by
    rw [peeledOrder, hgraph]
    rfl
  obtain ⟨last, rest, hpeels, hpeeled, hnone⟩ := peeled_peeledOrder hgraph hok
  obtain rfl := hpeeled.numGroups
  obtain ⟨-, hvertices, -⟩ := graph_eq_ok hgraph
  obtain ⟨-, hseparates⟩ :=
    independent_of_peeledOrder (fun i _ r hr => (hp.sound.reads i r hr).1) hok
  refine ⟨graph, _, hgraph, hok, hpeels, fun id => ?_, hpeeled.keys_eq, fun k ms hms => ?_, ?_⟩
  · rw [EliminationOrder.contains_iff_exists, ← hvertices, hpeeled.vertices, hnone]
    simp
  · exact isIndependent_iff.mpr ⟨hresiduals, hseparates k ms hms⟩
  · intro a k l ha hl
    obtain ⟨b, hb, hadj⟩ := hpeeled.placed a k l ha hl
    exact ⟨b, hb, (graph_outcome hgraph).2 a b hadj⟩

/-- The square loses two corners in the second round, so the corner that it has
in common with the triangle is left for the third. -/
theorem peeledOrder_outcome_skewed :
    let g := Program.ofProblem (Gallery.skewed ℝ)
    (∀ id ∈ g.blocks, (Gallery.skewed ℝ).contains id = true) ∧
    (∀ i ∈ g.residuals, ∃ r, (Gallery.skewed ℝ).residual? i = some r) ∧
    ∃ o, g.peeledOrder (Gallery.skewed ℝ) = .ok o ∧ o.group? ⟨5, 0⟩ = some 2 ∧
      o.groups.keys = [0, 1, 2] ∧
      (∃ b, o.group? b = some 0 ∧ g.shares (Gallery.skewed ℝ) ⟨5, 0⟩ b = true) ∧
      ∃ b, o.group? b = some 1 ∧ g.shares (Gallery.skewed ℝ) ⟨5, 0⟩ b = true := by
  intro g
  have hblocks : ∀ id ∈ g.blocks, (Gallery.skewed ℝ).contains id = true := fun id hid =>
    (Problem.mem_blockIds (p := Gallery.skewed ℝ) (show 6 ≤ UInt32.size by decide)).mp hid
  have hresiduals : ∀ i ∈ g.residuals, ∃ r, (Gallery.skewed ℝ).residual? i = some r := fun i hi =>
    Problem.mem_residualIds.mp hi
  obtain ⟨graph, o, -, ho, -, -, hkeys, -, hearlier⟩ :=
    peeledOrder_outcome Gallery.reachable_skewed hblocks hresiduals
  have hval := Gallery.peeledOrder_skewed
  rw [ho] at hval
  cases hval
  exact ⟨hblocks, hresiduals, _, ho, rfl, hkeys, hearlier ⟨5, 0⟩ 2 0 rfl (by decide),
    hearlier ⟨5, 0⟩ 2 1 rfl (by decide)⟩

end Program

end LeastSquares
