import LeastSquares.LinearSolver.Schur
import LeastSquares.Proofs.Arrangement
import LeastSquares.Proofs.Jacobian

/-!
# Rows that a Schur solver can eliminate

Take a program in which no residual block reads two of the first blocks, and
whose residual blocks stand in buckets. The evaluator of the program finds
its rows in place, every Jacobian it returns has at most one eliminated cell
in a row, and elimination finds nothing wrong with its shape.

## Main definitions

* `Program.columnsOf` — the column blocks that a residual block reads.

## Main results

* `Program.reads_of_bucketOf`, `JacobianLayout.misfit?_buckets` — rows in
  buckets are where elimination expects them.
* `Evaluator.returns_jacobian` — the cells of a Jacobian.
* `Elimination.kind_of_new?_eq_error` — what can be left to go wrong.
-/

namespace LeastSquares

variable {α σ : Type} [Scalar α]

/-! ## Rows in place -/

namespace JacobianLayout

variable {n row : Nat} {last : Option Nat} {seenFree : Bool}

theorem length_le_one_of_misfit? {rows : List (List Nat)}
    (h : misfit? n row last seenFree rows = none) :
    ∀ c ∈ rows, (c.filter (· < n)).length ≤ 1 := by
  induction rows generalizing row last seenFree with
  | nil => exact nofun
  | cons c rows ih =>
      intro c' hc'
      rw [misfit?] at h
      split at h
      · rename_i hnil
        rcases List.mem_cons.mp hc' with rfl | hc'
        · rw [hnil]
          exact Nat.zero_le 1
        · exact ih h c' hc'
      · rename_i e others hcons
        split at h
        · cases h
        · rename_i hothers
          split at h
          · cases h
          · rcases List.mem_cons.mp hc' with rfl | hc'
            · have hnil : others = [] := by simpa using hothers
              rw [hcons, hnil]
              exact Nat.le_refl 1
            · exact ih h c' hc'

private theorem forall₂_keys {β : Type} {R : List Nat → Nat → Prop} {rows : Nat → List β}
    {col : β → List Nat} {ks : List Nat} (h : ∀ k ∈ ks, ∀ i ∈ rows k, R (col i) k) :
    List.Forall₂ R ((ks.flatMap rows).map col) (ks.flatMap fun k => (rows k).map fun _ => k) := by
  induction ks with
  | nil => exact .nil
  | cons k ks ih =>
      rw [List.flatMap_cons, List.map_append, List.flatMap_cons]
      refine List.rel_append ?_ (ih fun k' hk' => h k' (List.mem_cons_of_mem k hk'))
      rw [List.forall₂_map_left_iff, List.forall₂_map_right_iff, List.forall₂_same]
      exact h k (by simp)

/-- Rows in buckets are in place. -/
theorem misfit?_buckets {β : Type} {rows : Nat → List β} {col : β → List Nat}
    (h : ∀ k ≤ n, ∀ i ∈ rows k, Reads n (col i) (if k < n then some k else none)) :
    misfit? n 0 none false (((List.range (n + 1)).flatMap rows).map col) = none := by
  rw [List.range_succ, List.flatMap_append, List.flatMap_singleton, List.map_append]
  refine misfit?_ascending (forall₂_keys fun k hk i hi => ?_) ?_ nofun fun c hc => ?_
  · have hlt := List.mem_range.mp hk
    simpa only [hlt, if_true] using h k (Nat.le_of_lt hlt) i hi
  · rw [List.pairwise_flatMap]
    refine ⟨fun k _ => ?_, ?_⟩
    · exact List.pairwise_map.mpr (List.pairwise_of_forall fun _ _ => Nat.le_refl k)
    · refine List.pairwise_le_range.imp fun {a b} hab x hx y hy => ?_
      obtain ⟨_, -, rfl⟩ := List.mem_map.mp hx
      obtain ⟨_, -, rfl⟩ := List.mem_map.mp hy
      exact hab
  · obtain ⟨i, hi, rfl⟩ := List.mem_map.mp hc
    simpa only [Nat.lt_irrefl, if_false] using h n (Nat.le_refl n) i hi

end JacobianLayout

namespace Program

variable {p q : Problem α σ} {g : Program} {i : ResidualId} {ms rest : List BlockId} {k : Nat}

/-- The places in the program of the blocks that a residual block reads. -/
def columnsOf (g : Program) (p : Problem α σ) (i : ResidualId) : List Nat :=
  match p.residual? i with
  | some r => r.blocks.filterMap fun id => id.lastPlace? g.blocks
  | none => []

theorem columnsOf_eq {r : ResidualBlock α σ} (hr : p.residual? i = some r) :
    g.columnsOf p i = r.blocks.filterMap fun id => id.lastPlace? g.blocks := by
  rw [columnsOf, hr]

/-- The column blocks of the rows of an evaluator. -/
theorem map_columns {terms : List (ResidualTerm α σ)}
    (h : g.residuals.mapM (Evaluator.term p g.blocks) = .ok terms) :
    terms.map ResidualTerm.columns = g.residuals.map (g.columnsOf p) := by
  symm
  refine map_eq_map_of_forall₂ (mapM_eq_ok_iff.mp h) fun i t ht => ?_
  obtain ⟨r, hr, hcolumns⟩ := Evaluator.columns_of_term ht
  rw [columnsOf_eq hr, hcolumns]

private theorem mem_front {id : BlockId} {j : Nat} (hblocks : g.blocks = ms ++ rest)
    (hplace : id.lastPlace? g.blocks = some j) (hj : j < ms.length) : id ∈ ms := by
  have hget := BlockId.getElem?_of_lastPlace? hplace
  rw [hblocks, List.getElem?_append_left hj] at hget
  exact List.mem_of_getElem? hget

/-- A row reads the eliminated block of its bucket and no other. -/
theorem reads_of_bucketOf (hblocks : g.blocks = ms ++ rest) (hind : g.Independent p ms)
    (hfree : ∀ id ∈ g.blocks, ∃ b, p.block? id = some b ∧ b.constant = false)
    (hi : i ∈ g.residuals) (h : g.bucketOf p ms.length i = .ok k) :
    JacobianLayout.Reads ms.length (g.columnsOf p i)
      (if k < ms.length then some k else none) := by
  obtain ⟨r, hr, hlow⟩ := bucketOf_eq_ok.mp h
  obtain ⟨-, hmin, hex⟩ := lowestBucket_spec hlow
  rw [columnsOf_eq hr, JacobianLayout.Reads]
  have hmem : ∀ j, j ∈ (r.blocks.filterMap fun id => id.lastPlace? g.blocks).filter
      (· < ms.length) ↔ (∃ id ∈ r.blocks, id.lastPlace? g.blocks = some j) ∧ j < ms.length := by
    intro j
    rw [List.mem_filter, List.mem_filterMap, decide_eq_true_eq]
  have hlen : ((r.blocks.filterMap fun id => id.lastPlace? g.blocks).filter
      (· < ms.length)).length ≤ 1 := by
    refine Nat.le_trans ?_ (hind i hi r hr)
    rw [List.filter_filterMap, List.length_filterMap_eq_countP, ← List.countP_eq_length_filter]
    refine List.countP_mono_left fun id _ hid => ?_
    obtain ⟨j, hj⟩ := Option.isSome_iff_exists.mp hid
    rw [Option.filter_eq_some_iff, decide_eq_true_eq] at hj
    exact List.contains_iff_mem.mpr (mem_front hblocks hj.1 hj.2)
  have hread : k < ms.length → k ∈ (r.blocks.filterMap fun id =>
      id.lastPlace? g.blocks).filter (· < ms.length) := by
    intro hk
    obtain ⟨id, hid, b, -, -, hplace⟩ := hex hk
    exact (hmem k).mpr ⟨⟨id, hid, hplace⟩, hk⟩
  generalize (r.blocks.filterMap fun id => id.lastPlace? g.blocks).filter (· < ms.length) = cols
    at hmem hlen hread ⊢
  match cols with
  | [] =>
      have hk : ¬ k < ms.length := fun hk => nomatch hread hk
      rw [if_neg hk]
      rfl
  | [e] =>
      obtain ⟨⟨id, hid, hplace⟩, he⟩ := (hmem e).mp (by simp)
      obtain ⟨b, hb, hconst⟩ :=
        hfree id (List.mem_of_getElem? (BlockId.getElem?_of_lastPlace? hplace))
      have hke : k ≤ e := hmin id hid e ⟨b, hb, hconst, hplace⟩
      have hk : k < ms.length := Nat.lt_of_le_of_lt hke he
      rw [if_pos hk, List.mem_singleton.mp (hread hk)]
      rfl
  | _ :: _ :: _ => simp at hlen

end Program

namespace Evaluator

variable {p : Problem α σ} {g : Program} {e : Evaluator α σ} {kind : LinearSolverKind}
  {eliminated n : Nat} {check : Option (GradientCheck α)}

/-! ## Building the evaluator -/

theorem exists_freeBlocks {ids : List BlockId} (h : ∀ id ∈ ids, p.contains id = true)
    (stateOffset deltaOffset : Nat) :
    ∃ blocks, freeBlocks p stateOffset deltaOffset ids = .ok blocks := by
  induction ids generalizing stateOffset deltaOffset with
  | nil => exact ⟨[], rfl⟩
  | cons id ids ih =>
      obtain ⟨b, hb⟩ := Problem.contains_iff.mp (h id (by simp))
      obtain ⟨rest, hrest⟩ := ih (fun i hi => h i (List.mem_cons_of_mem id hi))
        (stateOffset + b.size) (deltaOffset + b.localSize)
      exact ⟨_, freeBlocks_cons.mpr ⟨b, hb, rest, hrest, rfl⟩⟩

theorem exists_term {ids : List BlockId} {i : ResidualId} (h : p.Readable i) :
    ∃ t, term p ids i = .ok t := by
  obtain ⟨r, hr, hlive⟩ := h
  obtain ⟨sources, hsources⟩ := exists_mapM_eq_ok (f := source p ids) (l := r.blocks)
    fun id hid => by
      unfold source
      split
      · exact ⟨_, rfl⟩
      · obtain ⟨b, hb⟩ := Problem.contains_iff.mp (hlive id hid)
        exact ⟨.constant b.values,
          except_map_eq_ok.mpr ⟨b.values, Problem.values_eq_ok.mpr ⟨b, hb, rfl⟩, rfl⟩⟩
  exact ⟨_, term_eq_ok.mpr ⟨r, hr, sources, hsources, rfl⟩⟩

/-- There is an evaluator for a program whose rows are in place. -/
theorem exists_create (hlive : ∀ id ∈ g.blocks, p.contains id = true)
    (hread : ∀ i ∈ g.residuals, p.Readable i)
    (hfits : (JacobianLayout.ofSolver kind eliminated).misfitOf?
      (g.residuals.map (g.columnsOf p)) = none) :
    ∃ e, create p g kind eliminated check = .ok e := by
  obtain ⟨blocks, hblocks⟩ := exists_freeBlocks hlive 0 0
  obtain ⟨terms, hterms⟩ := exists_mapM_eq_ok (f := term p g.blocks) (l := g.residuals)
    fun i hi => exists_term (hread i hi)
  simp only [create, except_bind_eq_ok]
  refine ⟨⟨blocks, terms, .ofSolver kind eliminated, check,
    templateOf (blocks.map FreeBlock.localSize) terms⟩, blocks, hblocks, terms, hterms, ?_⟩
  rw [Program.map_columns hterms, hfits]
  rfl

/-! ## Jacobians -/

/-- A Jacobian has the cells that the evaluator has laid out. -/
theorem returns_jacobian (x : Vec α) {t : Tally σ} :
    Returns (e.evaluate x true) t fun result _ => ∀ ev jac, result = some ev →
      ev.jacobian = some jac → jac.columns = e.template.columns ∧
        ∀ row ∈ jac.rows, ∃ row' ∈ e.template.rows,
          row.cells.map Cell.column = row'.cells.map Cell.column := by
  unfold evaluate
  split
  · exact returns_pure.mpr nofun
  · rw [returns_bind]
    refine fun results t' _ => returns_pure.mpr fun ev jac hev hjac => ?_
    obtain ⟨terms, -, hev⟩ := Option.bind_eq_some_iff.mp hev
    unfold assemble at hev
    dsimp only at hev
    split at hev
    · cases hev
      cases hjac
      refine ⟨rfl, fun row hrow => ?_⟩
      obtain ⟨i, row', te, hrow', -, rfl⟩ := exists_of_mem_rows_fill hrow
      exact ⟨row', List.mem_of_getElem? hrow', BlockRow.columns_setCells row' te.cells⟩
    · cases hev

theorem MadeOf.columns_template (h : e.MadeOf p g) :
    e.template.columns.length = g.blocks.length := by
  rw [h.template, templateOf, BlockMatrix.ofStructure, ← map_id_freeBlocks h.blocks]
  show (Block.layout _).length = _
  rw [length_layout, List.length_map, List.length_map]

theorem MadeOf.mem_rows_template (h : e.MadeOf p g) {row : BlockRow α}
    (hrow : row ∈ e.template.rows) :
    ∃ t ∈ e.terms, row.cells.map Cell.column = Ascending.ofList t.columns := by
  rw [h.template, templateOf] at hrow
  obtain ⟨size, cells, hmem, hcells⟩ := BlockMatrix.mem_rows_ofStructure hrow
  obtain ⟨t, ht, heq⟩ := List.mem_map.mp hmem
  cases heq
  refine ⟨t, ht, ?_⟩
  rw [hcells, List.map_map]
  exact List.map_id _

/-- With the layout for elimination no row has two eliminated cells. -/
theorem MadeOf.cells_le_one (h : e.MadeOf p g) (hlayout : e.layout = .schur n)
    {row row' : BlockRow α} (hrow' : row' ∈ e.template.rows)
    (hcells : row.cells.map Cell.column = row'.cells.map Cell.column) :
    (row.cells.filter fun c => c.column < n).length ≤ 1 := by
  obtain ⟨t, ht, hcolumns⟩ := h.mem_rows_template hrow'
  have hfits := h.fits
  rw [hlayout] at hfits
  have hone := JacobianLayout.length_le_one_of_misfit? hfits t.columns
    (List.mem_map.mpr ⟨t, ht, rfl⟩)
  have hmap : (row.cells.filter fun c => c.column < n).length =
      ((Ascending.ofList t.columns).filter (· < n)).length := by
    rw [← hcolumns, ← hcells, List.filter_map, List.length_map]
    rfl
  rw [hmap]
  refine Nat.le_trans (List.Subperm.length_le ?_) hone
  refine ((Ascending.sorted_ofList t.columns).nodup.filter _).subperm fun k hk => ?_
  rw [List.mem_filter, Ascending.mem_ofList] at hk
  exact List.mem_filter.mpr hk

end Evaluator

/-! ## Elimination -/

namespace Elimination

variable {a : BlockMatrix α} {b d2 : Vec α} {count : Nat} {err : LinearError}

omit [Scalar α] in
theorem coupledRow?_eq_none
    (h : ∀ row ∈ a.rows, (row.cells.filter fun c => c.column < count).length ≤ 1) :
    coupledRow? a count = none := by
  rw [coupledRow?, List.find?_eq_none]
  intro p hp
  obtain ⟨k, hk, rfl⟩ := List.mem_mapIdx.mp hp
  have hle : (a.rows[k].cells.takeWhile fun c => c.column < count).length ≤
      (a.rows[k].cells.filter fun c => c.column < count).length := by
    refine List.Sublist.length_le ?_
    have hsub := (List.takeWhile_sublist (l := a.rows[k].cells) fun c => c.column < count).filter
      fun c => c.column < count
    rwa [List.filter_eq_self.mpr fun c hc =>
      List.all_eq_true.mp List.all_takeWhile c hc] at hsub
  have hone := h _ (List.getElem_mem hk)
  simp only [decide_eq_true_eq]
  omega

/-- If sizes fit and no row has two eliminated cells, only an eliminated block
can be at fault. -/
theorem kind_of_new?_eq_error (hcount : count ≤ a.columns.length)
    (hrows : ∀ row ∈ a.rows, (row.cells.filter fun c => c.column < count).length ≤ 1)
    (hb : b.size = a.numRows) (hd : d2.size = a.numCols) (h : new? a b d2 count = .error err) :
    err.kind = .factorizationFailed := by
  have hcount' : ¬ a.columns.length < count := Nat.not_lt.mpr hcount
  simp only [new?, hcount', if_false, hb, hd, ne_eq, not_true_eq_false, or_self,
    coupledRow?_eq_none hrows] at h
  cases hm : (List.range count).mapM fun e => eliminateBlock? a b d2 count e with
  | ok eliminated =>
      rw [hm] at h
      cases h
  | error e =>
      rw [hm] at h
      cases h
      obtain ⟨k, -, hk⟩ := exists_of_mapM_eq_error hm
      unfold eliminateBlock? at hk
      dsimp only at hk
      split at hk
      · cases hk
        rfl
      · cases hk

end Elimination

/-! ## Reduced programs -/

namespace ReducedProgram

variable {p q : Problem α σ} {r : ReducedProgram α} {kind : LinearSolverKind}
  {preconditioner : PreconditionerKind} {o : EliminationOrder}

omit [Scalar α] in
theorem eliminationGroups_spec (hs : r.linearSolver.isSchur = true) (hne : r.order.groups ≠ []) :
    2 ≤ r.eliminationGroups.length ∧ r.eliminationGroups.head? = some r.numEliminated := by
  unfold eliminationGroups numEliminated
  rw [EliminationOrder.groupSizes, EliminationOrder.firstGroupSize, Table.values]
  generalize r.order.groups = groups at hne ⊢
  rcases groups with _ | ⟨e, _ | ⟨e', rest⟩⟩
  · exact absurd rfl hne
  · simp [hs]
  · simp [hs]

/-- What a Schur solver relies on: there is something to eliminate, the first
elimination group says how much, the rows are accepted, and no row of a
Jacobian has two eliminated cells, so that elimination finds no fault with
configuration or sizes. -/
structure SuitsSchur (r : ReducedProgram α) (q : Problem α σ) : Prop where
  eliminates : 1 ≤ r.numEliminated
  groups : 2 ≤ r.eliminationGroups.length
  first : r.eliminationGroups.head? = some r.numEliminated
  accepted : ∀ check, ∃ e, SolveOptions.createEvaluator q r check = .ok e
  rows : ∀ check e, SolveOptions.createEvaluator q r check = .ok e →
    ∀ x t ev t' jac, e.evaluate x true t = .ok (some ev) t' → ev.jacobian = some jac →
      (∀ row ∈ jac.rows,
        (row.cells.filter fun c => decide (c.column < r.numEliminated)).length ≤ 1) ∧
      ∀ b d2 err, b.size = jac.numRows → d2.size = jac.numCols →
        Elimination.new? jac b d2 r.numEliminated = .error err →
        err.kind ≠ .invalidConfiguration ∧ err.kind ≠ .linearDimensionMismatch

/-- The rows are accepted, also in a problem with the places noted. -/
theorem SchurReady.misfitOf?_eq_none (h : r.SchurReady p) (hpq : p.SameContent q) :
    (JacobianLayout.schur r.order.firstGroupSize).misfitOf?
      (r.program.residuals.map (r.program.columnsOf q)) = none := by
  have hcolumns : ∀ i, r.program.columnsOf q i = r.program.columnsOf p i := by
    intro i
    rw [Program.columnsOf, Program.columnsOf, hpq.residual?]
  obtain ⟨group, ms, hhead, -, hind⟩ := h.first
  obtain ⟨rest, hlist⟩ := EliminationOrder.toList_eq_append hhead
  have hsize : r.order.firstGroupSize = ms.length := EliminationOrder.firstGroupSize_eq hhead
  obtain ⟨rows, hrows, hbucket⟩ := h.rows
  rw [hsize] at hrows hbucket
  rw [JacobianLayout.misfitOf?, funext hcolumns, hsize, hrows]
  refine JacobianLayout.misfit?_buckets fun k hk i hi => ?_
  refine Program.reads_of_bucketOf (h.blocks.trans hlist) hind h.free ?_ (hbucket k i hi)
  rw [hrows]
  exact List.mem_flatMap.mpr ⟨k, List.mem_range.mpr (Nat.lt_succ_of_le hk), hi⟩

theorem SchurReady.suitsSchur (h : r.SchurReady p) (hs : r.linearSolver.isSchur = true)
    (hclosed : r.program.Closed p) (hpq : p.SameContent q) : r.SuitsSchur q := by
  obtain ⟨group, ms, hhead, hne, -⟩ := h.first
  obtain ⟨rest, hlist⟩ := EliminationOrder.toList_eq_append hhead
  have hsize : r.order.firstGroupSize = ms.length := EliminationOrder.firstGroupSize_eq hhead
  have hnum : r.numEliminated = ms.length := by
    rw [numEliminated, if_pos hs, hsize]
  have hpos : 0 < r.numEliminated := hnum ▸ List.length_pos_of_ne_nil hne
  obtain ⟨hgroups, hfirst⟩ := eliminationGroups_spec hs
    (List.ne_nil_of_mem (List.mem_of_head? hhead))
  have hlayout : JacobianLayout.ofSolver r.linearSolver r.numEliminated =
      .schur r.numEliminated := by
    rw [JacobianLayout.ofSolver, if_pos (by simp [hs, hpos])]
  have hfits : (JacobianLayout.ofSolver r.linearSolver r.numEliminated).misfitOf?
      (r.program.residuals.map (r.program.columnsOf q)) = none := by
    rw [hlayout, hnum, ← hsize]
    exact h.misfitOf?_eq_none hpq
  refine ⟨hpos, hgroups, hfirst, fun check => Evaluator.exists_create ?_ ?_ hfits, ?_⟩
  · exact fun id hid => (hpq.contains id).trans (hclosed.live id hid)
  · intro i hi
    obtain ⟨r', hr', hlive⟩ := hclosed.readable i hi
    exact ⟨r', (hpq.residual? i).trans hr', fun id hid => (hpq.contains id).trans (hlive id hid)⟩
  · intro check e he x t ev t' jac hev hjac
    obtain ⟨hmade, hlay, -⟩ := Evaluator.create_eq_ok he
    rw [hlayout] at hlay
    obtain ⟨hcols, hcells⟩ := e.returns_jacobian x _ _ hev ev jac rfl hjac
    have hrows : ∀ row ∈ jac.rows,
        (row.cells.filter fun c => decide (c.column < r.numEliminated)).length ≤ 1 := by
      intro row hrow
      obtain ⟨row', hrow', hrc⟩ := hcells row hrow
      exact hmade.cells_le_one hlay hrow' hrc
    refine ⟨hrows, fun b d2 err hb hd herr => ?_⟩
    have hcount : r.numEliminated ≤ jac.columns.length := by
      rw [hcols, hmade.columns_template, h.blocks, hlist, List.length_append, hnum]
      exact Nat.le_add_right _ _
    rw [Elimination.kind_of_new?_eq_error hcount hrows hb hd herr]
    decide

end ReducedProgram

namespace Program

variable {p : Problem α σ}

theorem closed_ofProblem (hp : p.Sound) : (ofProblem p).Closed p where
  nodup := Problem.nodup_blockIds hp.room
  live id hid := (Problem.mem_blockIds hp.room).mp hid
  readable i hi := by
    obtain ⟨r, hr⟩ := Problem.mem_residualIds.mp hi
    exact ⟨r, hr, (hp.reads i r hr).2⟩
  covers i hi id hid := by
    obtain ⟨r, hr, hmem, -⟩ := hid
    exact (Problem.mem_blockIds hp.room).mpr ((hp.reads i r hr).2 id hmem)

end Program

namespace ReducedProgram

variable {kind : LinearSolverKind} {preconditioner : PreconditionerKind} {o : EliminationOrder}

/-- Reducing a problem cannot break, and fails only at a residual block without
a usable evaluation that reads constant blocks only. Then the problem is as it
was, and otherwise nothing but the places of blocks has changed. Another solver
takes over if and only if a Schur solver has lost its first group. A Schur
solver that is used can rely on what it is given. -/
theorem create_suits_solver {w : World α σ} (hp : w.problem.Reachable)
    (ho : o = .single w.problem.blockIds ∨
      o.Reachable ∧ (Program.ofProblem w.problem).checkOrder w.problem o kind = .ok ()) :
    ∃ res w', Run.onProblem
        (fun p => create p (.ofProblem p) o kind preconditioner) w = .ok res w' ∧
      (∀ e, res = .error e → w'.problem = w.problem ∧
        ∃ n i, w.problem.residualIds[n]? = some i ∧ (∀ id, ¬ w.problem.ReadsFree i id) ∧
          w.problem.FailsAt i w'.tally ∧ e = .fixedCostFailed n) ∧
      ∀ r, res = .ok r → w.problem.SameContent w'.problem ∧
        r.program.isValid w'.problem = true ∧
        (r.linearSolver ≠ kind ↔ kind.isSchur = true ∧ r.program.blocks ≠ [] ∧
          ∃ group ms, o.groups.head? = some (group, ms) ∧ ∀ id ∈ ms, id ∉ r.program.blocks) ∧
        (r.linearSolver.isSchur = true → r.program.blocks ≠ [] → r.SuitsSchur w'.problem) := by
  have hsound := hp.sound
  have hclosed := Program.closed_ofProblem hsound
  have hfits : (Program.ofProblem w.problem).Fits w.problem o kind := by
    rcases ho with rfl | ⟨hreach, hcheck⟩
    · exact Program.fits_single hclosed.nodup
    · exact Program.fits_of_checkOrder hsound hreach.wellFormed hcheck
  refine Run.succeeds_onProblem ((succeeds_create preconditioner hsound hclosed hfits).mono ?_)
  rintro ⟨e | r, q⟩ t hres
  · refine ⟨fun e' he => ?_, nofun⟩
    cases he
    exact hres
  · refine ⟨nofun, fun r' hr => ?_⟩
    cases hr
    obtain ⟨hcontent, hvalid, hclosed', hsolver, hschur⟩ := hres
    exact ⟨hcontent, hvalid, hsolver,
      fun hs hne => (hschur hs hne).suitsSchur hs hclosed' hcontent⟩

/-- With one group, a free block in it and a block that is dropped. -/
theorem create_suits_solver_anchored : ∃ res w', Run.onProblem
    (fun p => create p (.ofProblem p) (.single [⟨0, 0⟩, ⟨1, 0⟩]) .denseSchur .schurJacobi)
      (Gallery.anchoredWorld ℝ) = .ok res w' ∧
    ∀ r, res = .ok r → (Gallery.anchored ℝ).SameContent w'.problem ∧
      (r.linearSolver.isSchur = true → r.program.blocks ≠ [] → r.SuitsSchur w'.problem) := by
  obtain ⟨res, w', hrun, -, hok⟩ := @create_suits_solver _ _ _ .denseSchur
    .schurJacobi _ (Gallery.anchoredWorld ℝ) Gallery.reachable_anchored (.inl rfl)
  exact ⟨res, w', hrun, fun r hr => ⟨(hok r hr).1, (hok r hr).2.2.2⟩⟩

end ReducedProgram

end LeastSquares
