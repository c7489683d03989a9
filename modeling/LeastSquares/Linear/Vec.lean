import LeastSquares.Scalar

/-!
# Vectors

A vector is an array of scalars whose length is a run-time fact. Reading is
total: past the end a vector holds zeros, and every operation is defined by
what it holds at each index. A theorem about an operation is therefore an
equation between entries, and an operation whose operands must agree in
size says so where it is called, not here.

## Main definitions

* `Vec.get`, `Vec.ofFn` — reading an entry, and a vector from its entries.
* `Vec.dot`, `Vec.norm` — sums over entries.
* `Vec.slice`, `Vec.splice` — reading and replacing consecutive entries.

## Main results

* `Vec.get_ofFn`, `Vec.size_ofFn` — what the entries and the size are.
* `Vec.ext_get` — a vector is its size and its entries.
-/

namespace LeastSquares

/-- A vector of scalars. -/
structure Vec (α : Type) where
  entries : Array α
deriving Repr

namespace Vec

variable {α : Type}

instance : Inhabited (Vec α) := ⟨⟨#[]⟩⟩

/-- Number of entries. -/
def size (v : Vec α) : Nat := v.entries.size

/-- The vector of the values `f 0, …, f (n - 1)`. -/
def ofFn (n : Nat) (f : Nat → α) : Vec α := ⟨Array.ofFn fun i : Fin n => f i⟩

/-- The vector of the members of a list. -/
def ofList (l : List α) : Vec α := ⟨l.toArray⟩

/-- The entries in order. -/
def toList (v : Vec α) : List α := v.entries.toList

/-- The entries transformed one by one. -/
def map (f : α → α) (v : Vec α) : Vec α := ⟨v.entries.map f⟩

/-- The vector with one entry replaced. -/
def set (v : Vec α) (i : Nat) (a : α) : Vec α := ⟨v.entries.setIfInBounds i a⟩

@[simp] theorem size_ofFn (n : Nat) (f : Nat → α) : (ofFn n f).size = n := by
  simp [size, ofFn]

@[simp] theorem size_map (f : α → α) (v : Vec α) : (v.map f).size = v.size := by
  simp [size, map]

@[simp] theorem size_set (v : Vec α) (i : Nat) (a : α) : (v.set i a).size = v.size := by
  simp [size, set]

/-- An entry that is replaced twice is what it was replaced by last. -/
theorem set_set (v : Vec α) (i : Nat) (a b : α) : (v.set i a).set i b = v.set i b := by
  simp [set]

@[simp] theorem size_ofList (l : List α) : (ofList l).size = l.length := by
  simp [size, ofList]

@[simp] theorem length_toList (v : Vec α) : v.toList.length = v.size := by
  simp [size, toList]

variable [Scalar α]

/-- The entry at an index, zero past the end. -/
def get (v : Vec α) (i : Nat) : α := v.entries.getD i 0

theorem get_ofFn (n : Nat) (f : Nat → α) (i : Nat) :
    (ofFn n f).get i = if i < n then f i else 0 := by
  by_cases h : i < n <;> simp [get, ofFn, Array.getD_eq_getD_getElem?, h]

theorem get_ofFn_of_lt {n : Nat} (f : Nat → α) {i : Nat} (h : i < n) :
    (ofFn n f).get i = f i := by
  rw [get_ofFn, if_pos h]

theorem get_of_le {v : Vec α} {i : Nat} (h : v.size ≤ i) : v.get i = 0 := by
  have h : v.entries.size ≤ i := h
  simp [get, Array.getD_eq_getD_getElem?, h]

theorem get_map {v : Vec α} {i : Nat} (f : α → α) (h : i < v.size) :
    (v.map f).get i = f (v.get i) := by
  have h : i < v.entries.size := h
  simp [get, map, Array.getD_eq_getD_getElem?, h]

theorem get_set (v : Vec α) (i j : Nat) (a : α) :
    (v.set i a).get j = if j = i ∧ i < v.size then a else v.get j := by
  have hsize : v.size = v.entries.size := rfl
  by_cases hij : j = i
  · subst hij
    by_cases h : j < v.entries.size
    · simp [get, set, Array.getD_eq_getD_getElem?, hsize, h]
    · simp [get, set, Array.getD_eq_getD_getElem?, hsize, h]
  · simp [get, set, Array.getD_eq_getD_getElem?, hij, Ne.symm hij]

/-- A vector is its size and its entries. -/
theorem ext_get {u v : Vec α} (hs : u.size = v.size) (h : ∀ i < u.size, u.get i = v.get i) :
    u = v := by
  cases u with
  | mk a =>
    cases v with
    | mk b =>
      congr 1
      apply Array.ext hs
      intro i hi hj
      have := h i hi
      simpa [get, Array.getD_eq_getD_getElem?, hi, hj] using this

/-- An entry can be put back. -/
theorem set_get (v : Vec α) (i : Nat) : v.set i (v.get i) = v := by
  refine ext_get (size_set v i _) fun j _ => ?_
  rw [get_set]
  split
  · rename_i h
    rw [h.1]
  · rfl

/-! ## Entrywise operations -/

/-- The vector of `n` zeros. -/
def zeros (n : Nat) : Vec α := ofFn n fun _ => 0

/-- The `i`-th unit vector of size `n`. -/
def unit (n i : Nat) : Vec α := ofFn n fun j => if j = i then 1 else 0

/-- The sum. The size is that of the first operand, here and below. -/
def add (u v : Vec α) : Vec α := ofFn u.size fun i => u.get i + v.get i

/-- The difference. -/
def sub (u v : Vec α) : Vec α := ofFn u.size fun i => u.get i - v.get i

/-- The opposite. -/
def neg (v : Vec α) : Vec α := v.map fun a => -a

/-- The multiple by a scalar. -/
def scale (v : Vec α) (c : α) : Vec α := v.map fun a => a * c

/-- The entrywise product. -/
def mulEntries (u v : Vec α) : Vec α := ofFn u.size fun i => u.get i * v.get i

/-- The entrywise quotient. -/
def divEntries (u v : Vec α) : Vec α := ofFn u.size fun i => u.get i / v.get i

/-- The sum with a multiple of another vector. -/
def addScaled (u : Vec α) (c : α) (v : Vec α) : Vec α := ofFn u.size fun i => c * v.get i + u.get i

instance : Add (Vec α) := ⟨add⟩
instance : Sub (Vec α) := ⟨sub⟩
instance : Neg (Vec α) := ⟨neg⟩

@[simp] theorem size_zeros (n : Nat) : (zeros n : Vec α).size = n := size_ofFn _ _

@[simp] theorem size_unit (n i : Nat) : (unit n i : Vec α).size = n := size_ofFn _ _

@[simp] theorem size_add (u v : Vec α) : (u + v).size = u.size := size_ofFn _ _

@[simp] theorem size_sub (u v : Vec α) : (u - v).size = u.size := size_ofFn _ _

@[simp] theorem size_neg (v : Vec α) : (-v).size = v.size := size_map _ _

@[simp] theorem size_scale (v : Vec α) (c : α) : (v.scale c).size = v.size := size_map _ _

@[simp] theorem size_mulEntries (u v : Vec α) : (u.mulEntries v).size = u.size := size_ofFn _ _

@[simp] theorem size_divEntries (u v : Vec α) : (u.divEntries v).size = u.size := size_ofFn _ _

@[simp] theorem size_addScaled (u : Vec α) (c : α) (v : Vec α) :
    (u.addScaled c v).size = u.size := size_ofFn _ _

/-! ## Sums over entries -/

/-- The inner product, over the indices of the first operand. -/
def dot (u v : Vec α) : α := Scalar.sumTo u.size fun i => u.get i * v.get i

/-- The sum of the squares. -/
def normSq (v : Vec α) : α := v.dot v

/-- The Euclidean length. -/
def norm (v : Vec α) : α := Scalar.sqrt v.normSq

/-- The largest magnitude of an entry, zero for the empty vector. -/
def maxNorm (v : Vec α) : α :=
  match v.toList with
  | [] => 0
  | a :: rest => rest.foldl (fun m b => Scalar.larger m (Scalar.abs b)) (Scalar.abs a)

/-- Whether every entry is finite. -/
def isFinite (v : Vec α) : Bool := v.toList.all Scalar.isFinite

/-! ## Consecutive entries -/

/-- The `n` entries from `start` on. -/
def slice (v : Vec α) (start n : Nat) : Vec α := ofFn n fun i => v.get (start + i)

/-- The vector with the entries from `start` on replaced by those of `w`. -/
def splice (v : Vec α) (start : Nat) (w : Vec α) : Vec α :=
  ofFn v.size fun i => if start ≤ i ∧ i < start + w.size then w.get (i - start) else v.get i

/-- The vector with one entry in front. -/
def cons (a : α) (v : Vec α) : Vec α := ofList (a :: v.toList)

/-- The vector without its first entry. -/
def tail (v : Vec α) : Vec α := v.slice 1 (v.size - 1)

/-- The vectors of a list, one after the other. -/
def concat (vs : List (Vec α)) : Vec α := ofList (vs.flatMap toList)

@[simp] theorem size_slice (v : Vec α) (start n : Nat) : (v.slice start n).size = n :=
  size_ofFn _ _

@[simp] theorem size_splice (v : Vec α) (start : Nat) (w : Vec α) :
    (v.splice start w).size = v.size := size_ofFn _ _

end Vec

end LeastSquares
