import LeastSquares.Proofs.Placement
import LeastSquares.Proofs.Real

/-!
# The layout of a state

A program lays its blocks out in the state vector and in the step vector. Once
the places are noted on the blocks, the ranges of the blocks follow one another
in the order of the program and cover each vector from its first entry to its
last. A state vector that is written block by block can be read back: every
block takes the entries at the offset that is noted on it, and what was read
from a problem is what the problem holds already.

Writing is in place, so it could stop halfway. It does not: the handles of all
blocks are looked up to find the size of the state vector, which is checked
before the first block is written, and every block is then given as many values
as it has.

## Main definitions

* `Tiles` — blocks follow one another and cover all indices.
* `ParameterBlock.stateRange`, `ParameterBlock.deltaRange` — the ranges noted
  on a block.

## Main results

* `Program.exists_of_isValidFrom` — valid places follow one another.
* `Program.write_eq` — writing in place is scattering, or leaves the problem
  alone.
* `Program.gather_of_holds`, `Program.scatterFrom_of_holdsFrom` — reading what
  was written, and writing what was read.
* `Program.layout_outcome` — places, round trips and failures.
-/

namespace LeastSquares

variable {α σ : Type} [Scalar α]

/-! ## Ranges -/

/-- The blocks follow one another and cover the indices from zero to `n`. -/
structure Tiles (n : Nat) (blocks : List Block) : Prop where
  layout : blocks = Block.layout (blocks.map Block.size)
  indices : (blocks.flatMap fun b => (List.range b.size).map (b.position + ·)) = List.range n

theorem tiles_layout (sizes : List Nat) : Tiles (total sizes) (Block.layout sizes) where
  layout := by rw [map_size_layout]
  indices := (range_total sizes).symm

namespace ParameterBlock

/-- The range of the state vector that is noted on a block. -/
def stateRange (b : ParameterBlock α) : Block := ⟨b.size, b.stateOffset⟩

/-- The range of the step vector that is noted on a block. -/
def deltaRange (b : ParameterBlock α) : Block := ⟨b.localSize, b.deltaOffset⟩

end ParameterBlock

theorem Vec.toList_slice (v : Vec α) (start n : Nat) :
    (v.slice start n).toList = (List.range n).map fun i => v.get (start + i) := by
  refine List.ext_getElem (by simp) fun i hi hi' => ?_
  simp [slice, ofFn, toList]

theorem Vec.toList_slice_add (v : Vec α) (start m n : Nat) :
    (v.slice start (m + n)).toList =
      (v.slice start m).toList ++ (v.slice (start + m) n).toList := by
  simp only [toList_slice, List.range_add, List.map_append, List.map_map, Function.comp_def,
    Nat.add_assoc]

/-! ## Changes that change nothing -/

namespace Problem

variable {p : Problem α σ} {id : BlockId} {b : ParameterBlock α}

/-- What a change does to other blocks does not matter. -/
theorem modifyBlock_congr {f f' : ParameterBlock α → ParameterBlock α}
    (hb : p.block? id = some b) (h : f b = f' b) : p.modifyBlock id f = p.modifyBlock id f' := by
  obtain ⟨slot, hslot, -, hblock⟩ := block?_eq_some_iff.mp hb
  have hslots : p.slots.modify id.slot.toNat (fun slot => { slot with block := slot.block.map f }) =
      p.slots.modify id.slot.toNat fun slot => { slot with block := slot.block.map f' } := by
    refine Array.ext_getElem? fun i => ?_
    simp only [Array.getElem?_modify]
    split
    · rename_i hi
      rw [← hi, hslot, Option.map_some, Option.map_some, hblock, Option.map_some, Option.map_some,
        h]
    · rfl
  rw [modifyBlock, hslots]
  rfl

theorem modifyBlock_eq_self {f : ParameterBlock α → ParameterBlock α}
    (hb : p.block? id = some b) (h : f b = b) : p.modifyBlock id f = p := by
  have hslots : p.slots.modify id.slot.toNat
      (fun slot => { slot with block := slot.block.map fun b => b }) = p.slots := by
    refine Array.ext_getElem? fun i => ?_
    simp only [Array.getElem?_modify, Option.map_id', ite_self]
  have hsame : p.modifyBlock id f = p.modifyBlock id fun b => b := modifyBlock_congr hb h
  rw [hsame, modifyBlock, hslots]

end Problem

namespace Program

open Problem (SameContent SameShape)

variable {g : Program} {p q : Problem α σ} {ids : List BlockId} {id : BlockId}
  {b : ParameterBlock α} {x : Vec α} {place : Place} {offset n : Nat}

/-! ## Valid places -/

theorem isValidFrom_cons : isValidFrom place p (id :: ids) = true ↔
    ∃ b, p.block? id = some b ∧ place.isNoted b = true ∧
      isValidFrom (place.next b) p ids = true := by
  rw [isValidFrom]
  cases p.block? id with
  | none => simp
  | some b => simp

theorem isNoted_iff : place.isNoted b = true ↔
    b.index = some place.index ∧ b.stateOffset = place.stateOffset ∧
      b.deltaOffset = place.deltaOffset := by
  simp [Place.isNoted, and_assoc]

theorem isValidFrom_congr (h : ∀ id ∈ ids, q.block? id = p.block? id) :
    isValidFrom place q ids = isValidFrom place p ids := by
  induction ids generalizing place with
  | nil => rfl
  | cons id ids ih =>
      rw [isValidFrom, isValidFrom, h id List.mem_cons_self]
      cases p.block? id with
      | none => rfl
      | some b =>
          exact congrArg (place.isNoted b && ·) (ih fun i hi => h i (List.mem_cons_of_mem id hi))

/-- The ranges of blocks whose places are valid follow one another, and the
sizes of all blocks add up. -/
theorem exists_of_isValidFrom (h : isValidFrom place p ids = true) :
    ∃ bs : List (ParameterBlock α), List.Forall₂ (fun id b => p.block? id = some b) ids bs ∧
      sumBlocks ParameterBlock.size p ids = .ok (total (bs.map ParameterBlock.size)) ∧
      sumBlocks ParameterBlock.localSize p ids = .ok (total (bs.map ParameterBlock.localSize)) ∧
      bs.map ParameterBlock.stateRange =
        Block.layoutFrom place.stateOffset (bs.map ParameterBlock.size) ∧
      bs.map ParameterBlock.deltaRange =
        Block.layoutFrom place.deltaOffset (bs.map ParameterBlock.localSize) := by
  induction ids generalizing place with
  | nil => exact ⟨[], .nil, rfl, rfl, rfl, rfl⟩
  | cons id ids ih =>
      obtain ⟨b, hb, hnoted, hrest⟩ := isValidFrom_cons.mp h
      obtain ⟨bs, hbs, hsize, hlocal, hstate, hdelta⟩ := ih hrest
      obtain ⟨-, hstateOffset, hdeltaOffset⟩ := isNoted_iff.mp hnoted
      refine ⟨b :: bs, .cons hb hbs, sumBlocks_cons.mpr ⟨b, hb, _, hsize, rfl⟩,
        sumBlocks_cons.mpr ⟨b, hb, _, hlocal, rfl⟩, ?_, ?_⟩
      · rw [List.map_cons, List.map_cons, Block.layoutFrom, hstate, ParameterBlock.stateRange,
          hstateOffset]
        rfl
      · rw [List.map_cons, List.map_cons, Block.layoutFrom, hdelta, ParameterBlock.deltaRange,
          hdeltaOffset]
        rfl

/-- The ranges of a program whose places are valid cover both vectors. -/
theorem tiles_of_isValid (h : g.isValid p = true) :
    ∃ (n m : Nat) (bs : List (ParameterBlock α)), g.numParameters p = .ok n ∧
      g.numEffectiveParameters p = .ok m ∧
      List.Forall₂ (fun id b => p.block? id = some b) g.blocks bs ∧
      Tiles n (bs.map ParameterBlock.stateRange) ∧ Tiles m (bs.map ParameterBlock.deltaRange) := by
  obtain ⟨bs, hbs, hsize, hlocal, hstate, hdelta⟩ := exists_of_isValidFrom h
  refine ⟨_, _, bs, hsize, hlocal, hbs, ?_, ?_⟩
  · rw [hstate]
    exact tiles_layout _
  · rw [hdelta]
    exact tiles_layout _

/-- Every block takes the entries at the offset that is noted on it. -/
theorem block?_scatterFrom (hn : ids.Nodup) (h : isValidFrom place p ids = true) (hid : id ∈ ids)
    (hb : p.block? id = some b) :
    (scatterFrom x place.stateOffset ids p).block? id =
      some { b with values := x.slice b.stateOffset b.size } := by
  induction ids generalizing place p with
  | nil => cases hid
  | cons i ids ih =>
      rw [List.nodup_cons] at hn
      obtain ⟨c, hc, hnoted, hrest⟩ := isValidFrom_cons.mp h
      rw [scatterFrom_cons hc]
      rcases List.mem_cons.mp hid with rfl | hid
      · cases hb.symm.trans hc
        rw [block?_scatterFrom_of_not_mem hn.1, Problem.block?_modifyBlock hb, if_pos rfl,
          (isNoted_iff.mp hnoted).2.1]
      · have hother : ∀ j ∈ ids, (p.modifyBlock i fun b =>
            { b with values := x.slice place.stateOffset b.size }).block? j = p.block? j := by
          intro j hj
          have hne : j ≠ i := fun hji => hn.1 (hji ▸ hj)
          rw [Problem.block?_modifyBlock hc, if_neg hne]
        have hvalid := (isValidFrom_congr hother).trans hrest
        exact ih hn.2 hvalid hid ((hother id hid).trans hb)

/-! ## Reading back -/

theorem exists_values_of_holdsFrom (h : HoldsFrom p x offset ids)
    (hn : sumBlocks ParameterBlock.size p ids = .ok n) :
    ∃ vs, ids.mapM p.values = .ok vs ∧ vs.flatMap Vec.toList = (x.slice offset n).toList := by
  induction ids generalizing offset n with
  | nil =>
      cases hn
      exact ⟨[], rfl, by simp [Vec.toList_slice]⟩
  | cons id ids ih =>
      obtain ⟨b, hb, hvalues, hrest⟩ := h
      obtain ⟨c, hc, m, hm, rfl⟩ := sumBlocks_cons.mp hn
      cases hb.symm.trans hc
      obtain ⟨vs, hvs, hentries⟩ := ih hrest hm
      refine ⟨b.values :: vs, mapM_eq_ok_iff.mpr (.cons ?_ (mapM_eq_ok_iff.mp hvs)), ?_⟩
      · exact Problem.values_eq_ok.mpr ⟨b, hb, rfl⟩
      · rw [List.flatMap_cons, hentries, Vec.toList_slice_add, ← hvalues]

/-- The state that a problem holds is gathered from it. -/
theorem gather_of_holds (h : g.Holds p x) : g.gather p = .ok x := by
  obtain ⟨vs, hvs, hentries⟩ := exists_values_of_holdsFrom h.entries h.size
  rw [Vec.slice_zero] at hentries
  rw [gather, hvs]
  exact congrArg (fun l => Except.ok (Vec.ofList l)) hentries

/-- Scattering what a problem holds changes nothing. -/
theorem scatterFrom_of_holdsFrom (h : HoldsFrom p x offset ids) :
    scatterFrom x offset ids p = p := by
  induction ids generalizing offset with
  | nil => rfl
  | cons id ids ih =>
      obtain ⟨b, hb, hvalues, hrest⟩ := h
      rw [scatterFrom_cons hb, Problem.modifyBlock_eq_self hb, ih hrest]
      exact congrArg (fun v => { b with values := v }) hvalues.symm

/-! ## Writing in place -/

/-- A block takes as many values as it has. -/
theorem setValues_slice (hb : p.block? id = some b) :
    p.setValues id (x.slice offset b.size) =
      .ok (p.modifyBlock id fun b => { b with values := x.slice offset b.size }) := by
  have hsize : ¬ b.size ≠ (x.slice offset b.size).size := by
    rw [Vec.size_slice]
    exact fun h => h rfl
  have hmodify : (p.modifyBlock id fun c => { c with values := x.slice offset b.size }) =
      p.modifyBlock id fun b => { b with values := x.slice offset b.size } :=
    Problem.modifyBlock_congr hb rfl
  rw [Problem.setValues, Problem.block_eq_ok.mpr hb, ← hmodify]
  exact if_neg hsize

/-- If the handles are live and the vector is long enough, then every block is
written. -/
theorem writeFrom_eq (hn : sumBlocks ParameterBlock.size p ids = .ok n)
    (hx : offset + n ≤ x.size) :
    writeFrom x offset ids p = (.ok (), scatterFrom x offset ids p) := by
  induction ids generalizing offset n p with
  | nil => rfl
  | cons id ids ih =>
      obtain ⟨b, hb, m, hm, rfl⟩ := sumBlocks_cons.mp hn
      have hshape : SameShape p
          (p.modifyBlock id fun b => { b with values := x.slice offset b.size }) :=
        Problem.alike_modifyBlock .rfl hb ⟨Vec.size_slice x offset b.size, rfl, rfl⟩
      rw [writeFrom, Problem.block_eq_ok.mpr hb]
      dsimp only
      rw [if_neg (by omega), setValues_slice hb, scatterFrom_cons hb]
      refine ih ((numParameters_eq (g := ⟨ids, []⟩) hshape).trans hm) ?_
      omega

/-- A sum over blocks fails at a handle that is not live. -/
theorem exists_of_sumBlocks_eq_error {measure : ParameterBlock α → Nat} {e : ModelError}
    (h : sumBlocks measure p ids = .error e) :
    ∃ id ∈ ids, p.block? id = none ∧ e = .unknownBlock id := by
  induction ids with
  | nil => cases h
  | cons id ids ih =>
      cases hb : p.block? id with
      | none =>
          rw [sumBlocks, Problem.block_eq_error hb] at h
          cases h
          exact ⟨id, List.mem_cons_self, hb, rfl⟩
      | some b =>
          rw [sumBlocks, Problem.block_eq_ok.mpr hb] at h
          cases hsum : sumBlocks measure p ids with
          | ok n =>
              rw [hsum] at h
              cases h
          | error e' =>
              rw [hsum] at h
              cases h
              obtain ⟨i, hi, hnone, he⟩ := ih hsum
              exact ⟨i, List.mem_cons_of_mem id hi, hnone, he⟩

/-- Writing in place does what scattering does. If it cannot be done, then it
leaves the problem alone. -/
theorem write_eq : g.write x p = match g.scatter x p with
    | .ok q => (.ok (), q)
    | .error e => (.error (.error e), p) := by
  rw [write, scatter]
  cases hn : g.numParameters p with
  | error e => rfl
  | ok n =>
      by_cases hx : x.size = n
      · have hle : 0 + n ≤ x.size := by omega
        have hwrite := writeFrom_eq hn hle
        simp only [hx, ne_eq, not_true_eq_false, if_false, if_true, hwrite]
      · simp only [hx, ne_eq, not_false_eq_true, if_false, if_true]

/-- What stops writing: a handle that is not live, or a vector of another size. -/
inductive Unwritable (g : Program) (p : Problem α σ) (x : Vec α) : Stop ModelError → Prop where
  | stale (id : BlockId) (hid : id ∈ g.blocks) (hnone : p.block? id = none) :
      Unwritable g p x (.error (.unknownBlock id))
  | size (n : Nat) (hn : g.numParameters p = .ok n) (hx : x.size ≠ n) :
      Unwritable g p x (.error (.stateSize x.size n))

theorem write_eq_error {e : Stop ModelError} (h : (g.write x p).1 = .error e) :
    (g.write x p).2 = p ∧ Unwritable g p x e := by
  rw [write_eq] at h ⊢
  rw [scatter] at h ⊢
  cases hn : g.numParameters p with
  | error e' =>
      rw [hn] at h
      cases h
      obtain ⟨id, hid, hnone, rfl⟩ := exists_of_sumBlocks_eq_error hn
      exact ⟨rfl, .stale id hid hnone⟩
  | ok n =>
      rw [hn] at h
      by_cases hx : x.size = n
      · simp only [hx, if_true] at h
        cases h
      · simp only [hx, if_false] at h ⊢
        cases h
        exact ⟨trivial, .size n hn hx⟩

/-! ## Layout and round trips -/

/-- A program whose blocks are live and distinct notes places that are valid and
cover the state vector and the step vector, and leaves all other blocks alone.
A state vector of the right size can then be written and read back, and every
block takes the entries at its offset. Writing what was read changes nothing,
and neither does a write that fails. -/
theorem layout_outcome (g : Program) (p : Problem α σ) :
    (g.blocks.Nodup → (∀ id ∈ g.blocks, p.contains id = true) →
      ∃ (q : Problem α σ) (n m : Nat) (bs : List (ParameterBlock α)),
        g.setOffsets p = (.ok (), q) ∧ g.isValid q = true ∧ SameContent p q ∧
        (∀ id, id ∉ g.blocks → q.block? id = p.block? id) ∧
        g.numParameters q = .ok n ∧ g.numEffectiveParameters q = .ok m ∧
        List.Forall₂ (fun id b => q.block? id = some b) g.blocks bs ∧
        Tiles n (bs.map ParameterBlock.stateRange) ∧ Tiles m (bs.map ParameterBlock.deltaRange) ∧
        ∀ x : Vec α, x.size = n → ∃ r, g.write x q = (.ok (), r) ∧ g.gather r = .ok x ∧
          (∀ id ∈ g.blocks, ∀ b, q.block? id = some b →
            r.block? id = some { b with values := x.slice b.stateOffset b.size }) ∧
          ∀ id, id ∉ g.blocks → r.block? id = q.block? id) ∧
    (∀ x, g.gather p = .ok x → g.write x p = (.ok (), p)) ∧
    ∀ x e, (g.write x p).1 = .error e → (g.write x p).2 = p ∧ Unwritable g p x e := by
  refine ⟨fun hn hlive => ?places, fun x hx => ?again, fun x e he => write_eq_error he⟩
  case places =>
    have hvalid := isValid_setOffsets hn hlive
    have hok : (g.setOffsets p).1 = .ok () := setOffsetsFrom_ok hlive
    obtain ⟨n, m, bs, hsize, hlocal, hbs, hstate, hdelta⟩ := tiles_of_isValid hvalid
    refine ⟨_, n, m, bs, Prod.ext hok rfl, hvalid, sameContent_setOffsets,
      fun id hid => block?_setOffsetsFrom_of_not_mem hid, hsize, hlocal, hbs, hstate, hdelta,
      fun x hx => ?_⟩
    subst hx
    obtain ⟨r, hr, -, hholds, hout⟩ := scatter_spec hn hsize
    refine ⟨r, ?_, gather_of_holds hholds, fun id hid b hb => ?_, hout⟩
    · rw [write_eq, hr]
    · obtain ⟨-, rfl⟩ := scatter_eq_ok hr
      exact block?_scatterFrom hn hvalid hid hb
  case again =>
    have hholds := holds_of_gather hx
    rw [write_eq, scatter, hholds.size]
    simp only [if_true]
    rw [scatterFrom_of_holdsFrom hholds.entries]

/-- Two coordinates and a quaternion, of six parameters and five degrees of
freedom together. The program lists the quaternion in front. -/
theorem layout_outcome_reversed :
    let p : Problem ℝ Unit :=
      { slots := #[⟨0, some { values := .ofList [1, 2] }⟩,
          ⟨0, some { values := .ofList [1, 0, 0, 0], manifold := some .quaternion }⟩]
        numBlocks := 2 }
    let g : Program := ⟨[⟨1, 0⟩, ⟨0, 0⟩], []⟩
    let x : Vec ℝ := .ofList [1, 2, 3, 4, 5, 6]
    g.blocks.Nodup ∧ (∀ id ∈ g.blocks, p.contains id = true) ∧
      (∃ (q r : Problem ℝ Unit) (bs : List (ParameterBlock ℝ)),
        g.setOffsets p = (.ok (), q) ∧ g.isValid q = true ∧
        List.Forall₂ (fun id b => q.block? id = some b) g.blocks bs ∧
        Tiles 6 (bs.map ParameterBlock.stateRange) ∧ Tiles 5 (bs.map ParameterBlock.deltaRange) ∧
        g.write x q = (.ok (), r) ∧ g.gather r = .ok x) ∧
      (∃ y, g.gather p = .ok y ∧ g.write y p = (.ok (), p)) ∧
      (g.write (.ofList [1]) p).1 = .error (.error (.stateSize 1 6)) ∧
      (g.write (.ofList [1]) p).2 = p := by
  intro p g x
  have hn : g.blocks.Nodup := by decide
  have hlive : ∀ id ∈ g.blocks, p.contains id = true := by
    simp only [g, List.mem_cons, List.not_mem_nil, or_false]
    rintro id (rfl | rfl) <;> rfl
  obtain ⟨hplaces, hagain, hfails⟩ := layout_outcome g p
  have hshort : (g.write (.ofList [1]) p).1 = .error (.error (.stateSize 1 6)) := rfl
  refine ⟨hn, hlive, ?_, ⟨_, rfl, hagain _ rfl⟩, hshort, (hfails _ _ hshort).1⟩
  obtain ⟨q, n, m, bs, hq, hvalid, -, -, hparameters, heffective, hbs, hstate, hdelta, hwrite⟩ :=
    hplaces hn hlive
  obtain rfl : (g.setOffsets p).2 = q := congrArg Prod.snd hq
  obtain rfl : 6 = n := Except.ok.inj hparameters
  obtain rfl : 5 = m := Except.ok.inj heffective
  obtain ⟨r, hr, hgather, -⟩ := hwrite x rfl
  exact ⟨_, r, bs, hq, hvalid, hbs, hstate, hdelta, hr, hgather⟩

end Program

end LeastSquares
