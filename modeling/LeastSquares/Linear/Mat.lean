import LeastSquares.Linear.Vec

/-!
# Dense matrices

A matrix has a shape that is a run-time fact and holds zeros outside it, as
a vector does past its end. Products and sums are defined entry by entry.

## Main definitions

* `Mat.get`, `Mat.ofFn` — reading an entry, and a matrix from its entries.
* `Mat.mulVec`, `Mat.tMulVec` — products with a vector from the right and,
  transposed, from the left.
* `Mat.mul`, `Mat.tMul` — products of matrices, the second with the first
  factor transposed.

## Main results

* `Mat.get_ofFn` — what the entries are.
-/

namespace LeastSquares

/-- A matrix of scalars, stored by rows. -/
structure Mat (α : Type) where
  rows : Nat
  cols : Nat
  data : Array (Array α)
deriving Repr

namespace Mat

variable {α : Type}

instance : Inhabited (Mat α) := ⟨⟨0, 0, #[]⟩⟩

/-- The matrix with entry `f i j` in row `i` and column `j`. -/
def ofFn (m n : Nat) (f : Nat → Nat → α) : Mat α :=
  ⟨m, n, Array.ofFn fun i : Fin m => Array.ofFn fun j : Fin n => f i j⟩

/-- The matrix whose rows are the members of a list; `n` is the number of
columns, which an empty list does not tell. -/
def ofRows (n : Nat) (l : List (List α)) : Mat α :=
  ⟨l.length, n, (l.map List.toArray).toArray⟩

/-- The rows in order. -/
def toRows (a : Mat α) : List (List α) := a.data.toList.map Array.toList

@[simp] theorem rows_ofFn (m n : Nat) (f : Nat → Nat → α) : (ofFn m n f).rows = m := rfl

@[simp] theorem cols_ofFn (m n : Nat) (f : Nat → Nat → α) : (ofFn m n f).cols = n := rfl

/-- A matrix depends only on its entries. -/
theorem ofFn_congr {m n : Nat} {f g : Nat → Nat → α} (h : ∀ i < m, ∀ j < n, f i j = g i j) :
    ofFn m n f = ofFn m n g := by
  have hrows : (fun i : Fin m => Array.ofFn fun j : Fin n => f i j) =
      fun i : Fin m => Array.ofFn fun j : Fin n => g i j :=
    funext fun i => congrArg Array.ofFn (funext fun j => h i i.isLt j j.isLt)
  rw [ofFn, ofFn, hrows]

variable [Scalar α]

/-- The entry in a row and a column, zero outside the shape. -/
def get (a : Mat α) (i j : Nat) : α := (a.data.getD i #[]).getD j 0

theorem get_ofFn {m n : Nat} (f : Nat → Nat → α) {i j : Nat} (hi : i < m) (hj : j < n) :
    (ofFn m n f).get i j = f i j := by
  simp [get, ofFn, Array.getD_eq_getD_getElem?, hi, hj]

/-- The zero matrix. -/
def zeros (m n : Nat) : Mat α := ofFn m n fun _ _ => 0

/-- The square matrix with the given diagonal. -/
def diagonal (v : Vec α) : Mat α :=
  ofFn v.size v.size fun i j => if i = j then v.get i else 0

/-- The identity. -/
def identity (n : Nat) : Mat α := ofFn n n fun i j => if i = j then 1 else 0

/-- The diagonal of a square matrix. -/
def diag (a : Mat α) : Vec α := Vec.ofFn a.rows fun i => a.get i i

/-- A column. -/
def col (a : Mat α) (j : Nat) : Vec α := Vec.ofFn a.rows fun i => a.get i j

/-- The sum. The shape is that of the first operand. -/
def add (a b : Mat α) : Mat α := ofFn a.rows a.cols fun i j => a.get i j + b.get i j

/-- The difference. -/
def sub (a b : Mat α) : Mat α := ofFn a.rows a.cols fun i j => a.get i j - b.get i j

/-- The opposite. -/
def neg (a : Mat α) : Mat α := ofFn a.rows a.cols fun i j => -a.get i j

/-- The multiple by a scalar. -/
def scale (a : Mat α) (c : α) : Mat α := ofFn a.rows a.cols fun i j => a.get i j * c

instance : Add (Mat α) := ⟨add⟩
instance : Sub (Mat α) := ⟨sub⟩
instance : Neg (Mat α) := ⟨neg⟩

/-- The matrix with column `j` multiplied by `c j`. -/
def scaleCols (a : Mat α) (c : Nat → α) : Mat α := ofFn a.rows a.cols fun i j => a.get i j * c j

/-- The product with a vector. -/
def mulVec (a : Mat α) (v : Vec α) : Vec α :=
  Vec.ofFn a.rows fun i => Scalar.sumTo a.cols fun j => a.get i j * v.get j

/-- The product of the transpose with a vector. -/
def tMulVec (a : Mat α) (v : Vec α) : Vec α :=
  Vec.ofFn a.cols fun j => Scalar.sumTo a.rows fun i => a.get i j * v.get i

/-- The product. -/
def mul (a b : Mat α) : Mat α :=
  ofFn a.rows b.cols fun i j => Scalar.sumTo a.cols fun k => a.get i k * b.get k j

/-- The product of the transpose of `a` with `b`. -/
def tMul (a b : Mat α) : Mat α :=
  ofFn a.cols b.cols fun i j => Scalar.sumTo a.rows fun k => a.get k i * b.get k j

/-- Whether every entry is finite. -/
def isFinite (a : Mat α) : Bool := a.data.all fun row => row.all Scalar.isFinite

/-- Whether the matrix has the given shape. -/
def hasShape (a : Mat α) (m n : Nat) : Bool := a.rows == m && a.cols == n

@[simp] theorem size_mulVec (a : Mat α) (v : Vec α) : (a.mulVec v).size = a.rows :=
  Vec.size_ofFn _ _

@[simp] theorem size_tMulVec (a : Mat α) (v : Vec α) : (a.tMulVec v).size = a.cols :=
  Vec.size_ofFn _ _

end Mat

end LeastSquares
