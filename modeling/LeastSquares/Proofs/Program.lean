import LeastSquares.Proofs.Blocks
import LeastSquares.Proofs.Problem

/-!
# State vectors and places

A program lays the values of its blocks out one after the other. A problem
holds a state vector if every block of the program has the entries at its
place for values. Scattering a state makes the problem hold it and leaves
every other block alone, and a problem holds the state that is gathered from
it.

## Main definitions

* `Program.HoldsFrom`, `Program.Holds` — the problem holds a state.

## Main results

* `Program.scatter_spec` — what scattering does.
* `Program.scatter_scatter` — scattering overwrites what was scattered before.
* `Program.holds_of_gather` — what gathering reads.
* `Program.isValid_setOffsets` — noted places are valid.
-/

namespace LeastSquares

variable {α σ : Type} [Scalar α]

namespace Program

open Problem (SameContent SameShape)

variable {g : Program} {p q : Problem α σ} {ids : List BlockId} {id : BlockId}
  {b c : ParameterBlock α}

/-! ## Sizes -/

theorem sumBlocks_cons {measure : ParameterBlock α → Nat} {n : Nat} :
    sumBlocks measure p (id :: ids) = .ok n ↔
      ∃ b, p.block? id = some b ∧ ∃ m, sumBlocks measure p ids = .ok m ∧ measure b + m = n := by
  rw [sumBlocks]
  cases hb : p.block? id with
  | none => simp [Problem.block_eq_error hb]
  | some b =>
      simp only [Problem.block_eq_ok.mpr hb, except_map_eq_ok, Option.some.injEq, exists_eq_left']

theorem sumBlocks_congr {measure : ParameterBlock α → Nat}
    (h : ∀ id ∈ ids, Option.Rel (fun b c => measure c = measure b) (p.block? id) (q.block? id)) :
    sumBlocks measure q ids = sumBlocks measure p ids := by
  induction ids with
  | nil => rfl
  | cons id ids ih =>
      have hid := h id (by simp)
      have hrest := ih fun i hi => h i (List.mem_cons_of_mem id hi)
      unfold sumBlocks Problem.block
      generalize p.block? id = x at hid ⊢
      generalize q.block? id = y at hid ⊢
      cases hid with
      | none => rfl
      | some hbc => simp only [hrest, hbc]

theorem contains_of_sumBlocks {measure : ParameterBlock α → Nat} {n : Nat}
    (h : sumBlocks measure p ids = .ok n) : ∀ id ∈ ids, p.contains id = true := by
  induction ids generalizing n with
  | nil => simp
  | cons id ids ih =>
      obtain ⟨b, hb, m, hm, -⟩ := sumBlocks_cons.mp h
      intro i hi
      rcases List.mem_cons.mp hi with rfl | hi
      · exact Problem.contains_iff.mpr ⟨b, hb⟩
      · exact ih hm i hi

theorem numParameters_eq (h : SameShape p q) : g.numParameters q = g.numParameters p := by
  refine sumBlocks_congr fun id _ => ?_
  have hid := h.block? id
  generalize p.block? id = x at hid ⊢
  generalize q.block? id = y at hid ⊢
  cases hid with
  | none => exact .none
  | some hbc => exact .some hbc.size

/-! ## States -/

/-- The blocks have the entries from an offset on for values. -/
def HoldsFrom (p : Problem α σ) (x : Vec α) (offset : Nat) : List BlockId → Prop
  | [] => True
  | id :: rest => ∃ b, p.block? id = some b ∧ b.values = x.slice offset b.size ∧
      HoldsFrom p x (offset + b.size) rest

/-- The blocks of the program have the entries of the state for values. -/
structure Holds (g : Program) (p : Problem α σ) (x : Vec α) : Prop where
  entries : HoldsFrom p x 0 g.blocks
  size : g.numParameters p = .ok x.size

theorem HoldsFrom.congr {x : Vec α} {offset : Nat}
    (h : ∀ id ∈ ids, ∀ b, p.block? id = some b → ∃ c, q.block? id = some c ∧ c.values = b.values)
    (hp : HoldsFrom p x offset ids) : HoldsFrom q x offset ids := by
  induction ids generalizing offset with
  | nil => trivial
  | cons id ids ih =>
      obtain ⟨b, hb, hv, hrest⟩ := hp
      obtain ⟨c, hc, hcb⟩ := h id (by simp) b hb
      have hsize : c.size = b.size := congrArg Vec.size hcb
      refine ⟨c, hc, ?_, ?_⟩
      · rw [hcb, hv, hsize]
      · rw [hsize]
        exact ih (fun i hi => h i (List.mem_cons_of_mem id hi)) hrest

theorem Holds.sameContent {x : Vec α} (hs : SameContent p q) (h : g.Holds p x) : g.Holds q x := by
  refine ⟨h.entries.congr fun id _ b hb => ?_, ?_⟩
  · obtain ⟨c, hc, hbc⟩ := hs.block?_left hb
    exact ⟨c, hc, hbc.values⟩
  · rw [numParameters_eq hs.sameShape]
    exact h.size

/-! ## Scattering -/

theorem scatterFrom_cons {x : Vec α} {offset : Nat} (hb : p.block? id = some b) :
    scatterFrom x offset (id :: ids) p = scatterFrom x (offset + b.size) ids
      (p.modifyBlock id fun b => { b with values := x.slice offset b.size }) := by
  rw [scatterFrom, hb]

/-- Scattering leaves the blocks outside the program alone. -/
theorem block?_scatterFrom_of_not_mem {x : Vec α} {offset : Nat} (h : id ∉ ids) :
    (scatterFrom x offset ids p).block? id = p.block? id := by
  induction ids generalizing offset p with
  | nil => rfl
  | cons i ids ih =>
      rw [List.mem_cons, not_or] at h
      cases hb : p.block? i with
      | none =>
          rw [scatterFrom, hb]
          exact ih h.2
      | some b => rw [scatterFrom_cons hb, ih h.2, Problem.block?_modifyBlock hb, if_neg h.1]

theorem sameShape_scatterFrom {x : Vec α} {offset : Nat} :
    SameShape p (scatterFrom x offset ids p) := by
  induction ids generalizing offset p with
  | nil => exact .refl p
  | cons id ids ih =>
      cases hb : p.block? id with
      | none =>
          rw [scatterFrom, hb]
          exact ih
      | some b =>
          rw [scatterFrom_cons hb]
          refine SameShape.trans (Problem.alike_modifyBlock .rfl hb ⟨?_, rfl, rfl⟩) ih
          exact Vec.size_slice x offset b.size

theorem holdsFrom_scatterFrom {x : Vec α} {offset : Nat} (hn : ids.Nodup)
    (h : ∀ id ∈ ids, p.contains id = true) :
    HoldsFrom (scatterFrom x offset ids p) x offset ids := by
  induction ids generalizing offset p with
  | nil => trivial
  | cons id ids ih =>
      rw [List.nodup_cons] at hn
      obtain ⟨b, hb⟩ := Problem.contains_iff.mp (h id (by simp))
      have hsize : (x.slice offset b.size).size = b.size := Vec.size_slice x offset b.size
      rw [scatterFrom_cons hb]
      refine ⟨{ b with values := x.slice offset b.size }, ?_, ?_, ?_⟩
      · rw [block?_scatterFrom_of_not_mem hn.1, Problem.block?_modifyBlock hb, if_pos rfl]
      · show x.slice offset b.size = x.slice offset (x.slice offset b.size).size
        rw [hsize]
      · show HoldsFrom _ x (offset + (x.slice offset b.size).size) ids
        rw [hsize]
        refine ih hn.2 fun i hi => ?_
        have hi' := h i (List.mem_cons_of_mem id hi)
        have hne : i ≠ id := fun hEq => hn.1 (hEq ▸ hi)
        rwa [Problem.contains, Problem.block?_modifyBlock hb, if_neg hne]

/-- A state of the right size can be scattered. The problem then holds it,
and blocks outside the program are as before. -/
theorem scatter_spec {x : Vec α} (hn : g.blocks.Nodup) (hx : g.numParameters p = .ok x.size) :
    ∃ q, g.scatter x p = .ok q ∧ SameShape p q ∧ g.Holds q x ∧
      ∀ id, id ∉ g.blocks → q.block? id = p.block? id := by
  have hs : SameShape p (scatterFrom x 0 g.blocks p) := sameShape_scatterFrom
  refine ⟨scatterFrom x 0 g.blocks p, ?_, hs, ⟨?_, ?_⟩, fun id hid => ?_⟩
  · rw [scatter, hx]
    exact if_pos rfl
  · exact holdsFrom_scatterFrom hn (contains_of_sumBlocks hx)
  · rw [numParameters_eq hs, hx]
  · exact block?_scatterFrom_of_not_mem hid

theorem scatter_eq_ok {x : Vec α} (h : g.scatter x p = .ok q) :
    g.numParameters p = .ok x.size ∧ q = scatterFrom x 0 g.blocks p := by
  unfold scatter at h
  split at h
  · cases h
  · rename_i n hn
    split at h
    · rename_i hsize
      cases h
      exact ⟨hsize ▸ hn, rfl⟩
    · cases h

/-- The problem holds a state that was scattered. -/
theorem holds_of_scatter {x : Vec α} (hn : g.blocks.Nodup) (h : g.scatter x p = .ok q) :
    g.Holds q x := by
  obtain ⟨q', hq', -, hholds, -⟩ := scatter_spec hn (scatter_eq_ok h).1
  cases h.symm.trans hq'
  exact hholds

/-- A change of a block outside the program can come before scattering or
after it. -/
theorem scatterFrom_modifyBlock {x : Vec α} {offset : Nat} (hb : p.block? id = some b)
    (hid : id ∉ ids) (f : ParameterBlock α → ParameterBlock α) :
    scatterFrom x offset ids (p.modifyBlock id f) =
      (scatterFrom x offset ids p).modifyBlock id f := by
  induction ids generalizing offset p b with
  | nil => rfl
  | cons i ids ih =>
      rw [List.mem_cons, not_or] at hid
      obtain ⟨hne, hid⟩ := hid
      have hi : (p.modifyBlock id f).block? i = p.block? i := by
        rw [Problem.block?_modifyBlock hb, if_neg (Ne.symm hne)]
      cases hc : p.block? i with
      | none =>
          rw [scatterFrom, scatterFrom, hi, hc]
          exact ih hb hid
      | some c =>
          have hslot : i.slot ≠ id.slot := fun h => hne (Problem.eq_of_slot_eq hb hc h).symm
          rw [scatterFrom_cons (hi.trans hc), scatterFrom_cons hc, Problem.modifyBlock_comm hslot]
          refine ih (b := b) ?_ hid
          rw [Problem.block?_modifyBlock hc, if_neg hne, hb]

/-- What was scattered before is overwritten. -/
theorem scatterFrom_scatterFrom {x y : Vec α} {offset : Nat} (hn : ids.Nodup) :
    scatterFrom x offset ids (scatterFrom y offset ids p) = scatterFrom x offset ids p := by
  induction ids generalizing offset p with
  | nil => rfl
  | cons id ids ih =>
      rw [List.nodup_cons] at hn
      cases hb : p.block? id with
      | none =>
          have hnone : (scatterFrom y offset ids p).block? id = none := by
            rw [block?_scatterFrom_of_not_mem hn.1, hb]
          rw [scatterFrom, scatterFrom, scatterFrom, hb]
          dsimp only
          rw [hnone]
          exact ih hn.2
      | some b =>
          have hsize : ∀ (v : Vec α) (b : ParameterBlock α),
              ({ b with values := v.slice offset b.size } : ParameterBlock α).size = b.size :=
            fun v b => Vec.size_slice v offset b.size
          have hwritten : (p.modifyBlock id fun b =>
              { b with values := y.slice offset b.size }).block? id =
                some { b with values := y.slice offset b.size } := by
            rw [Problem.block?_modifyBlock hb, if_pos rfl]
          have hoverwritten : ((fun b => { b with values := x.slice offset b.size }) ∘
              fun b => { b with values := y.slice offset b.size } : ParameterBlock α → _) =
                fun b => { b with values := x.slice offset b.size } :=
            funext fun b => by rw [Function.comp_apply, hsize]
          rw [scatterFrom_cons hb, scatterFrom_cons hb,
            scatterFrom_cons ((block?_scatterFrom_of_not_mem hn.1).trans hwritten), hsize,
            ← scatterFrom_modifyBlock hwritten hn.1, Problem.modifyBlock_modifyBlock, hoverwritten]
          exact ih hn.2

/-- A state that was scattered before makes no difference. -/
theorem scatter_scatter {x y : Vec α} (hn : g.blocks.Nodup) (h : g.scatter y p = .ok q) :
    g.scatter x q = g.scatter x p := by
  obtain ⟨-, rfl⟩ := scatter_eq_ok h
  rw [scatter, scatter, numParameters_eq sameShape_scatterFrom, scatterFrom_scatterFrom hn]

/-! ## Gathering -/

theorem slice_concat (u : Vec α) (vs : List (Vec α)) (w : List α) :
    (⟨(w ++ (u :: vs).flatMap Vec.toList).toArray⟩ : Vec α).slice w.length u.size = u := by
  have hu : (Vec.ofList w :: u :: vs)[1]? = some u := rfl
  have h := Vec.slice_concat hu
  simpa [Vec.concat, Vec.ofList, Vec.toList, Vec.size] using h

theorem holdsFrom_concat {vs : List (Vec α)} (w : List α)
    (h : List.Forall₂ (fun id v => p.values id = .ok v) ids vs) :
    HoldsFrom p ⟨(w ++ vs.flatMap Vec.toList).toArray⟩ w.length ids ∧
      sumBlocks ParameterBlock.size p ids = .ok (vs.flatMap Vec.toList).length := by
  induction h generalizing w with
  | nil => exact ⟨trivial, rfl⟩
  | cons hv _ ih =>
      rename_i id v ids vs _
      obtain ⟨b, hb, rfl⟩ := Problem.values_eq_ok.mp hv
      obtain ⟨hrest, hsum⟩ := ih (w ++ b.values.toList)
      refine ⟨⟨b, hb, (slice_concat b.values vs w).symm, ?_⟩, ?_⟩
      · rw [List.length_append, Vec.length_toList, List.append_assoc] at hrest
        exact hrest
      · refine sumBlocks_cons.mpr ⟨b, hb, _, hsum, ?_⟩
        rw [List.flatMap_cons, List.length_append, Vec.length_toList]
        rfl

/-- A problem holds the state that is gathered from it. -/
theorem holds_of_gather {x : Vec α} (h : g.gather p = .ok x) : g.Holds p x := by
  obtain ⟨vs, hvs, rfl⟩ := except_map_eq_ok.mp h
  obtain ⟨hentries, hsum⟩ := holdsFrom_concat [] (mapM_eq_ok_iff.mp hvs)
  refine ⟨hentries, ?_⟩
  rw [numParameters, hsum, Vec.concat, Vec.size_ofList]

/-! ## Places -/

theorem setOffsetsFrom_cons {place : Place} (hb : p.block? id = some b) :
    setOffsetsFrom place (id :: ids) p =
      setOffsetsFrom (place.next b) ids (p.modifyBlock id place.note) := by
  rw [setOffsetsFrom, Problem.block_eq_ok.mpr hb]

theorem setOffsetsFrom_of_not_live {place : Place} (hb : p.block? id = none) :
    setOffsetsFrom place (id :: ids) p = (.error (.unknownBlock id), p) := by
  rw [setOffsetsFrom, Problem.block_eq_error hb]

/-- Noting places changes nothing but notes. -/
theorem sameContent_setOffsetsFrom {place : Place} :
    SameContent p (setOffsetsFrom place ids p).2 := by
  induction ids generalizing place p with
  | nil => exact .refl p
  | cons id ids ih =>
      cases hb : p.block? id with
      | none =>
          rw [setOffsetsFrom_of_not_live hb]
          exact .refl p
      | some b =>
          rw [setOffsetsFrom_cons hb]
          refine SameContent.trans (Problem.alike_modifyBlock .rfl hb ?_) ih
          exact ParameterBlock.sameContent_note place b

theorem block?_setOffsetsFrom_of_not_mem {place : Place} (h : id ∉ ids) :
    (setOffsetsFrom place ids p).2.block? id = p.block? id := by
  induction ids generalizing place p with
  | nil => rfl
  | cons i ids ih =>
      rw [List.mem_cons, not_or] at h
      cases hb : p.block? i with
      | none => rw [setOffsetsFrom_of_not_live hb]
      | some b => rw [setOffsetsFrom_cons hb, ih h.2, Problem.block?_modifyBlock hb, if_neg h.1]

private theorem contains_modifyBlock (hb : p.block? id = some b)
    {f : ParameterBlock α → ParameterBlock α} (h : ∀ i ∈ id :: ids, p.contains i = true) :
    ∀ i ∈ ids, (p.modifyBlock id f).contains i = true := by
  intro i hi
  have hi' := h i (List.mem_cons_of_mem id hi)
  rw [Problem.contains, Problem.block?_modifyBlock hb]
  split
  · rfl
  · exact hi'

theorem setOffsetsFrom_ok {place : Place} (h : ∀ id ∈ ids, p.contains id = true) :
    (setOffsetsFrom place ids p).1 = .ok () := by
  induction ids generalizing place p with
  | nil => rfl
  | cons id ids ih =>
      obtain ⟨b, hb⟩ := Problem.contains_iff.mp (h id (by simp))
      rw [setOffsetsFrom_cons hb]
      exact ih (contains_modifyBlock hb h)

theorem isValidFrom_setOffsetsFrom {place : Place} (hn : ids.Nodup)
    (h : ∀ id ∈ ids, p.contains id = true) :
    isValidFrom place (setOffsetsFrom place ids p).2 ids = true := by
  induction ids generalizing place p with
  | nil => rfl
  | cons id ids ih =>
      rw [List.nodup_cons] at hn
      obtain ⟨b, hb⟩ := Problem.contains_iff.mp (h id (by simp))
      rw [setOffsetsFrom_cons hb, isValidFrom, block?_setOffsetsFrom_of_not_mem hn.1,
        Problem.block?_modifyBlock hb, if_pos rfl]
      have hnoted : place.isNoted (place.note b) = true := by
        simp [Place.isNoted, Place.note]
      have hnext : place.next (place.note b) = place.next b := rfl
      simp only [hnoted, hnext, Bool.true_and]
      exact ih hn.2 (contains_modifyBlock hb h)

theorem sameContent_setOffsets : SameContent p (g.setOffsets p).2 := sameContent_setOffsetsFrom

/-- The places that a program has noted on live, distinct blocks are valid. -/
theorem isValid_setOffsets (hn : g.blocks.Nodup) (h : ∀ id ∈ g.blocks, p.contains id = true) :
    g.isValid (g.setOffsets p).2 = true := isValidFrom_setOffsetsFrom hn h

end Program

end LeastSquares
