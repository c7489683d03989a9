import LeastSquares.Proofs.Jacobian

/-!
# What an evaluation asks

An evaluator knows terms, sources and a state vector. What it was made from are
residual blocks, parameter blocks and their values. The two views agree: once the
state is put into the problem, every free block stands for a parameter block, every
term for a residual block, and the point at which a term is evaluated consists of the
values that the problem has for its residual block.

## Main definitions

* `ParameterBlock.tangentMap` — the derivative along the manifold.
* `FreeBlock.StandsFor`, `Evaluator.StandsFor` — the two views of one block.
* `Program.Poses` — what a program asks at a state.

## Main results

* `Evaluator.MadeOf.exists_poses` — an evaluator asks what its program does.
-/

namespace LeastSquares

variable {α σ : Type} [Scalar α]

/-- The derivative of the values of a block by its tangent space, at its
values. Without a manifold it is the identity. -/
def ParameterBlock.tangentMap (b : ParameterBlock α) :
    Except Fault (Mat α) :=
  match b.manifold with
  | some m => m.plusJacobian b.values
  | none => .ok (Mat.identity b.size)

/-- A free block stands for a parameter block that holds its part of a state. -/
structure FreeBlock.StandsFor (b : FreeBlock α) (x : Vec α)
    (c : ParameterBlock α) : Prop where
  manifold : c.manifold = b.manifold
  size : c.size = b.size
  localSize : c.localSize = b.localSize
  values : c.values = b.valuesIn x

theorem FreeBlock.StandsFor.tangentMap {b : FreeBlock α} {x : Vec α}
    {c : ParameterBlock α} (h : b.StandsFor x c) : c.tangentMap = b.tangentMap (b.valuesIn x) := by
  cases hmanifold : b.manifold <;>
    simp only [ParameterBlock.tangentMap, FreeBlock.tangentMap, h.manifold, h.size, h.values,
      hmanifold]

/-- What a program asks at a state: the problem with the state in it, the parameter
blocks and the residual blocks of the program, and the values at which each residual
block is evaluated. -/
structure Program.Poses (g : Program) (p : Problem α σ) (x : Vec α) (q : Problem α σ)
    (cs : List (ParameterBlock α)) (rs : List (ResidualBlock α σ))
    (points : List (List (Vec α))) : Prop where
  scatter : g.scatter x p = .ok q
  blocks : g.blocks.mapM q.block = .ok cs
  residuals : g.residuals.mapM p.residual = .ok rs
  points : rs.mapM (fun r => r.blocks.mapM q.values) = .ok points

namespace Evaluator

open Problem (SameShape)

variable {p q : Problem α σ} {g : Program} {e : Evaluator α σ} {x : Vec α}

/-- A term stands for a residual block in a problem that holds a state. -/
structure StandsFor (e : Evaluator α σ) (g : Program) (q : Problem α σ) (x : Vec α)
    (t : ResidualTerm α σ) (r : ResidualBlock α σ) : Prop where
  cost : t.cost = r.cost
  loss : t.loss = r.loss
  point : r.blocks.mapM q.values = .ok (e.pointOf x t)
  sources : t.sources.map BlockSource.column? = r.blocks.map fun id => id.lastPlace? g.blocks

theorem MadeOf.standsFor (h : e.MadeOf p g) (hs : SameShape p q) (hq : g.Holds q x)
    (hout : ∀ id, id ∉ g.blocks → q.values id = p.values id) :
    ∃ rs, g.residuals.mapM p.residual = .ok rs ∧
      List.Forall₂ (e.StandsFor g q x) e.terms rs := by
  obtain ⟨rs, hrs⟩ : ∃ rs, g.residuals.mapM p.residual = .ok rs := by
    refine exists_mapM_eq_ok fun i hi => ?_
    obtain ⟨t, -, ht⟩ := exists_right_of_forall₂ h.forall₂_terms i hi
    obtain ⟨r, hr, -⟩ := term_eq_ok.mp ht
    exact ⟨r, Problem.residual_eq_ok.mpr hr⟩
  refine ⟨rs, hrs, forall₂_of_common h.forall₂_terms (mapM_eq_ok_iff.mp hrs) ?_⟩
  intro i t r ht hr
  rw [Problem.residual_eq_ok] at hr
  obtain ⟨r', hr', hcost, hloss, hpoint⟩ := h.mapM_values hs hq hout ht
  rw [hs.residual?, hr] at hr'
  cases hr'
  refine ⟨hcost, hloss, hpoint, ?_⟩
  obtain ⟨r', hr', sources, hsources, rfl⟩ := term_eq_ok.mp ht
  rw [hr] at hr'
  cases hr'
  exact (map_eq_map_of_forall₂ (mapM_eq_ok_iff.mp hsources)
    fun _ _ hs => (column?_of_source hs).symm).symm

/-- A term reads a block where its residual block does. -/
theorem StandsFor.findIdx? {t : ResidualTerm α σ} {r : ResidualBlock α σ}
    (h : e.StandsFor g q x t r) (hn : g.blocks.Nodup) {k : Nat} {id : BlockId}
    (hk : g.blocks[k]? = some id) :
    t.sources.findIdx? (fun s => s.column? == some k) =
      if id ∈ r.blocks then some (r.blocks.idxOf id) else none := by
  have hplace : (fun id' : BlockId => id'.lastPlace? g.blocks == some k) = (· == id) := by
    funext id'
    rw [Bool.eq_iff_iff, beq_iff_eq, beq_iff_eq, BlockId.lastPlace?_eq_some_iff hn, hk,
      Option.some.injEq, eq_comm]
  have hfind : t.sources.findIdx? (fun s => s.column? == some k) = r.blocks.idxOf? id := by
    have hmap := congrArg (List.findIdx? fun place => place == some k) h.sources
    rw [List.findIdx?_map, List.findIdx?_map] at hmap
    exact hmap.trans (congrArg (fun p => r.blocks.findIdx? p) hplace)
  rw [hfind]
  split
  · rename_i hid
    obtain ⟨i, hi⟩ := Option.ne_none_iff_exists'.mp
      (mt List.idxOf?_eq_none_iff.mp (not_not.mpr hid))
    rw [List.idxOf_eq_getD_idxOf?, hi]
    rfl
  · rename_i hid
    exact List.idxOf?_eq_none_iff.mpr hid

theorem StandsFor.mem_columns_iff {t : ResidualTerm α σ} {r : ResidualBlock α σ}
    (h : e.StandsFor g q x t r) (hn : g.blocks.Nodup) {k : Nat} {id : BlockId}
    (hk : g.blocks[k]? = some id) : k ∈ t.columns ↔ id ∈ r.blocks := by
  rw [ResidualTerm.mem_columns_iff, h.findIdx? hn hk]
  split
  · rename_i hid
    exact ⟨fun _ => hid, fun _ => ⟨_, rfl⟩⟩
  · rename_i hid
    refine ⟨?_, fun h => absurd h hid⟩
    rintro ⟨i, hi⟩
    cases hi

/-- A block of an evaluator stands for its block in a problem that holds a
state. -/
theorem MadeOf.exists_standsFor (h : e.MadeOf p g) (hs : SameShape p q) (hq : g.Holds q x)
    {b : FreeBlock α} (hb : b ∈ e.blocks) :
    ∃ c, q.block? b.id = some c ∧ b.StandsFor x c := by
  obtain ⟨k, hk⟩ := List.mem_iff_getElem?.mp hb
  obtain ⟨-, pb, hpb, hsize, hlocal, hmanifold⟩ := place_freeBlocks h.blocks hk
  obtain ⟨c, hc, hshape⟩ := hs.block?_left hpb
  have hvalues := valuesIn_of_holdsFrom h.blocks hs hq.entries b hb
  obtain ⟨c', hc', hv⟩ := Problem.values_eq_ok.mp hvalues
  rw [hc] at hc'
  cases hc'
  refine ⟨c, hc, hshape.manifold.trans hmanifold.symm, hshape.size.trans hsize.symm, ?_, hv⟩
  rw [hlocal, ParameterBlock.localSize, ParameterBlock.localSize, hshape.manifold, hshape.size]

theorem MadeOf.tangentMap (h : e.MadeOf p g) (hs : SameShape p q) (hq : g.Holds q x)
    {b : FreeBlock α} (hb : b ∈ e.blocks) :
    ∃ c, q.block? b.id = some c ∧ c.tangentMap = b.tangentMap (b.valuesIn x) := by
  obtain ⟨c, hc, hstands⟩ := h.exists_standsFor hs hq hb
  exact ⟨c, hc, hstands.tangentMap⟩

/-- An evaluator asks what its program does. -/
theorem MadeOf.exists_poses (h : e.MadeOf p g) (hn : g.blocks.Nodup)
    (hsize : x.size = e.numParameters) :
    ∃ q cs rs, g.Poses p x q cs rs (e.terms.map (e.pointOf x)) ∧ SameShape p q ∧ g.Holds q x ∧
      List.Forall₂ (fun b c => FreeBlock.StandsFor b x c) e.blocks cs ∧
      List.Forall₂ (e.StandsFor g q x) e.terms rs := by
  obtain ⟨q, hscatter, hs, hholds, hout⟩ :=
    Program.scatter_spec (x := x) hn (hsize ▸ h.numParameters)
  have hvalues : ∀ id, id ∉ g.blocks → q.values id = p.values id := fun id hid => by
    rw [Problem.values, Problem.values, Problem.block, Problem.block, hout id hid]
  obtain ⟨rs, hrs, hstands⟩ := h.standsFor hs hholds hvalues
  obtain ⟨cs, hcs⟩ := exists_forall₂ fun b (hb : b ∈ e.blocks) => h.exists_standsFor hs hholds hb
  refine ⟨q, cs, rs, ⟨hscatter, ?_, hrs, ?_⟩, hs, hholds, hcs.imp fun _ _ h => h.2, hstands⟩
  · rw [← map_id_freeBlocks h.blocks, mapM_eq_ok_iff, List.forall₂_map_left_iff]
    exact hcs.imp fun _ _ h => Problem.block_eq_ok.mpr h.1
  · rw [mapM_eq_ok_iff, List.forall₂_map_right_iff]
    exact hstands.flip.imp fun r t h => h.point

/-- What is done with the cost functions of the terms is done with those of the
residual blocks. -/
theorem mapM_points {β : Type} {rs : List (ResidualBlock α σ)}
    (hstands : List.Forall₂ (e.StandsFor g q x) e.terms rs)
    (f : CostFunction α σ → List (Vec α) → Calls σ β) :
    (rs.zip (e.terms.map (e.pointOf x))).mapM (fun c => f c.1.cost c.2) =
      e.terms.mapM fun t => f t.cost (e.pointOf x t) := by
  have hpoints : List.Forall₂ (fun t v => v = e.pointOf x t) e.terms
      (e.terms.map (e.pointOf x)) :=
    List.forall₂_map_right_iff.mpr (List.forall₂_same.mpr fun _ _ => rfl)
  refine (mapM_congr_forall₂ (forall₂_zip hstands hpoints) fun t c h => ?_).symm
  rw [h.1.cost, h.2]

end Evaluator

end LeastSquares
