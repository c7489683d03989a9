import LeastSquares.Fault
import LeastSquares.Linear.Mat

/-!
# Manifolds

A parameter block can have fewer degrees of freedom than coordinates. Its
manifold says how a step in the tangent space moves a point, and how fast
the point moves for a small step. Minimizers work in tangent coordinates
only.

A manifold is asked for points and steps of its own sizes; for these it is
bound to answer, which is part of its type. What it does with vectors of
other sizes is its own affair, and it may refuse them.

## Main definitions

* `Manifold` — the interface.
* `Subset`, `Manifold.subset` — all points that agree in some coordinates.
* `Manifold.quaternion` — unit quaternions, and quaternions of any length.
-/

namespace LeastSquares

/-- A manifold embedded in `ambient` coordinates, of dimension `tangent`. -/
structure Manifold (α : Type) [Scalar α] where
  ambient : Nat
  tangent : Nat
  /-- The point reached from a point by a step. -/
  plus : Vec α → Vec α → Except Fault (Vec α)
  /-- The derivative of the point reached, at the step zero. -/
  plusJacobian : Vec α → Except Fault (Mat α)
  plus_ok : ∀ x delta, x.size = ambient → delta.size = tangent →
    ∃ y, plus x delta = .ok y ∧ y.size = ambient
  plusJacobian_ok : ∀ x, x.size = ambient →
    ∃ j, plusJacobian x = .ok j ∧ j.rows = ambient ∧ j.cols = tangent

/-! ## Holding coordinates constant -/

/-- Some of the coordinates `0, …, size - 1`, in ascending order. -/
structure Subset where
  size : Nat
  free : List Nat
  free_lt : ∀ i ∈ free, i < size
deriving Repr

/-- Why a set of constant coordinates is refused. -/
inductive SubsetError where
  | outOfRange (index size : Nat)
  | repeated (index : Nat)
  | nothingFree
deriving DecidableEq, Repr

namespace SubsetError

/-- What happened, in words. -/
def detail : SubsetError → String
  | outOfRange index size => s!"constant index {index} out of range for block of size {size}"
  | repeated index => s!"constant index {index} listed twice"
  | nothingFree =>
      "subset manifold must leave at least one coordinate free; mark the block constant instead"

end SubsetError

namespace Subset

/-- The first constant coordinate in a list that cannot be accepted after the
ones in `seen`. -/
def firstRefused (size : Nat) (seen : List Nat) : List Nat → Option SubsetError
  | [] => none
  | i :: rest =>
      if size ≤ i then some (.outOfRange i size)
      else if i ∈ seen then some (.repeated i)
      else firstRefused size (i :: seen) rest

/-- The coordinates left free by the constant ones. -/
def ofConstant (size : Nat) (constant : List Nat) : Subset where
  size := size
  free := (List.range size).filter fun i => i ∉ constant
  free_lt i hi := by
    simp only [List.mem_filter, List.mem_range] at hi
    exact hi.1

/-- The same, for constant coordinates that are in range and distinct and
leave something free. -/
def ofConstant? (size : Nat) (constant : List Nat) : Except SubsetError Subset :=
  match firstRefused size [] constant with
  | some e => .error e
  | none =>
      let s := ofConstant size constant
      if s.free.isEmpty then .error .nothingFree else .ok s

variable {α : Type} [Scalar α]

/-- The point with a step added to its free coordinates. -/
def plus (s : Subset) (x delta : Vec α) : Vec α :=
  Vec.ofFn x.size fun i =>
    match s.free.idxOf? i with
    | some k => x.get i + delta.get k
    | none => x.get i

/-- The derivative of the point reached: a column of the identity for every
free coordinate. -/
def plusJacobian (s : Subset) : Mat α :=
  Mat.ofFn s.size s.free.length fun i k => if s.free[k]? = some i then 1 else 0

/-- Whether a point and a step have an entry for every free coordinate. -/
def covers (s : Subset) (x delta : Vec α) : Bool :=
  s.free.all (· < x.size) && s.free.length ≤ delta.size

end Subset

namespace Manifold

variable {α : Type} [Scalar α]

/-- The points that agree with a given one outside the free coordinates. -/
def subset (s : Subset) : Manifold α where
  ambient := s.size
  tangent := s.free.length
  plus x delta := if s.covers x delta then .ok (s.plus x delta) else .error .sizeMismatch
  plusJacobian _ := .ok s.plusJacobian
  plus_ok x delta hx hd := by
    have h : s.covers x delta = true := by
      simp only [Subset.covers, Bool.and_eq_true, List.all_eq_true, decide_eq_true_eq]
      exact ⟨fun i hi => hx ▸ s.free_lt i hi, Nat.le_of_eq hd.symm⟩
    exact ⟨s.plus x delta, by rw [if_pos h], by simp [Subset.plus, hx]⟩
  plusJacobian_ok _ _ := ⟨_, rfl, rfl, rfl⟩

/-! ## Quaternions -/

/-- The product of two quaternions `[w, x, y, z]`. -/
def quaternionMul (p q : Vec α) : Vec α :=
  let entry := fun
    | 0 => p.get 0 * q.get 0 - p.get 1 * q.get 1 - p.get 2 * q.get 2 - p.get 3 * q.get 3
    | 1 => p.get 0 * q.get 1 + p.get 1 * q.get 0 + p.get 2 * q.get 3 - p.get 3 * q.get 2
    | 2 => p.get 0 * q.get 2 - p.get 1 * q.get 3 + p.get 2 * q.get 0 + p.get 3 * q.get 1
    | _ => p.get 0 * q.get 3 + p.get 1 * q.get 2 - p.get 2 * q.get 1 + p.get 3 * q.get 0
  Vec.ofFn 4 entry

/-- The length of a rotation vector. -/
def rotationAngle (delta : Vec α) : α :=
  Scalar.sqrt (delta.get 0 * delta.get 0 + delta.get 1 * delta.get 1 + delta.get 2 * delta.get 2)

/-- The quaternion turned by a rotation vector: `[cos t, sin t / t · delta]`
times the quaternion, with `t` the length of the vector. -/
def quaternionPlus (x delta : Vec α) : Vec α :=
  let t := rotationAngle delta
  if t == 0 then x
  else
    let scale := Scalar.sin t / t
    let turn := Vec.ofFn 4 fun i => if i = 0 then Scalar.cos t else scale * delta.get (i - 1)
    quaternionMul turn x

/-- The derivative of the turned quaternion. -/
def quaternionJacobian (x : Vec α) : Mat α :=
  let entry : Nat → Nat → α := fun
    | 0, j => -x.get (j + 1)
    | 1, 0 => x.get 0
    | 1, 1 => x.get 3
    | 1, _ => -x.get 2
    | 2, 0 => -x.get 3
    | 2, 1 => x.get 0
    | 2, _ => x.get 1
    | _, 0 => x.get 2
    | _, 1 => -x.get 1
    | _, _ => x.get 0
  Mat.ofFn 4 3 entry

/-- Quaternions `[w, x, y, z]` with rotation vectors as steps. -/
def quaternion : Manifold α where
  ambient := 4
  tangent := 3
  plus x delta :=
    if delta.size < 3 then .error .sizeMismatch
    else if x.size < 4 && !(rotationAngle delta == 0) then .error .sizeMismatch
    else .ok (quaternionPlus x delta)
  plusJacobian x := if x.size < 4 then .error .sizeMismatch else .ok (quaternionJacobian x)
  plus_ok x delta hx hd := by
    refine ⟨quaternionPlus x delta, by simp [hx, hd], ?_⟩
    simp only [quaternionPlus]
    split
    · exact hx
    · simp [quaternionMul]
  plusJacobian_ok x hx := ⟨quaternionJacobian x, by simp [hx], rfl, rfl⟩

end Manifold

end LeastSquares
