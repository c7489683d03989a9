import LeastSquares.Cost.Function

/-!
# A gallery of cost functions

Cost functions that are small enough to be checked by hand and cover what a
solver has to cope with: linear ones with known answers, curved valleys,
badly scaled and rank deficient problems, domains with an edge, and the two
models from geometry that matter in practice. None of them keeps a state.

## Main definitions

* `CostFunction.stateless` — a cost function from a function of the values.
* `Gallery.anchor`, `Gallery.difference`, `Gallery.sum`, `Gallery.linear` —
  affine functions.
* `Gallery.rosenbrock`, `Gallery.himmelblau`, `Gallery.powell`,
  `Gallery.brown` — problems from the literature on tests of minimizers.
* `Gallery.range`, `Gallery.reprojection`, `Gallery.rotation` — geometry.
-/

namespace LeastSquares

variable {α σ : Type} [Scalar α]

/-- A cost function whose answers depend on the values alone: residuals and
Jacobians, or nothing where the point is not admissible. -/
def CostFunction.stateless (numResiduals : Nat) (sizes : List Nat)
    (f : List (Vec α) → Option (Vec α × List (Mat α))) : CostFunction α σ where
  numResiduals := numResiduals
  sizes := sizes
  evaluate point jacobians u :=
    ((f point).map fun (r, js) => ⟨r, if jacobians then some js else none⟩, u)

namespace Gallery

/-- A coordinate of a block. -/
def coordinate (point : List (Vec α)) (block i : Nat) : α := (point.getD block default).get i

/-- The matrix with the given rows. -/
def rows (l : List (List α)) : Mat α := Mat.ofRows ((l.head?.map List.length).getD 0) l

/-- The matrix with one column. -/
def column (l : List α) : Mat α := Mat.ofRows 1 (l.map fun a => [a])

/-! ## Affine functions -/

/-- The distance of a block from a target. -/
def anchor (target : Vec α) : CostFunction α σ :=
  .stateless target.size [target.size] fun p =>
    some (p.getD 0 default - target, [Mat.identity target.size])

/-- The difference of two blocks, less an offset. -/
def difference (offset : Vec α) : CostFunction α σ :=
  let n := offset.size
  .stateless n [n, n] fun p =>
    some (p.getD 0 default - p.getD 1 default - offset, [Mat.identity n, -Mat.identity n])

/-- The sum of all coordinates, less a target. -/
def sum (target : α) (sizes : List Nat) : CostFunction α σ :=
  .stateless 1 sizes fun p =>
    let total := p.foldl (fun acc v => v.toList.foldl (fun acc x => acc + x) acc) 0
    some (Vec.ofList [total - target], sizes.map fun n => Mat.ofFn 1 n fun _ _ => 1)

/-- The affine function with matrix `a k` for block `k` and constant `b`. -/
def linear (sizes : List Nat) (a : List (Mat α)) (b : Vec α) : CostFunction α σ :=
  .stateless b.size sizes fun p =>
    let row := fun i => (a.zip p).foldl
      (fun acc (m, x) => (List.range x.size).foldl (fun acc j => acc + m.get i j * x.get j) acc)
      (b.get i)
    some (Vec.ofFn b.size row, a)

/-! ## Test problems -/

/-- The residuals of the curved valley. -/
def valley (x y : α) : Vec α := Vec.ofList [10.0 * (y - x * x), 1 - x]

/-- The curved valley in one block. -/
def rosenbrock : CostFunction α σ :=
  .stateless 2 [2] fun p =>
    let x := coordinate p 0 0
    some (valley x (coordinate p 0 1), [rows [[-20.0 * x, 10.0], [-1, 0]]])

/-- The curved valley in two blocks. -/
def rosenbrockSplit : CostFunction α σ :=
  .stateless 2 [1, 1] fun p =>
    let x := coordinate p 0 0
    some (valley x (coordinate p 1 0), [column [-20.0 * x, -1], column [10.0, 0]])

/-- A function with four zeros. -/
def himmelblau : CostFunction α σ :=
  .stateless 2 [2] fun p =>
    let x := coordinate p 0 0
    let y := coordinate p 0 1
    some (Vec.ofList [x * x + y - 11.0, x + y * y - 7.0], [rows [[2.0 * x, 1], [1, 2.0 * y]]])

/-- A function whose Jacobian is singular at its zero. -/
def powell : CostFunction α σ :=
  .stateless 4 [1, 1, 1, 1] fun p =>
    let a := coordinate p 0 0
    let b := coordinate p 1 0
    let c := coordinate p 2 0
    let d := coordinate p 3 0
    let s5 := Scalar.sqrt 5.0
    let s10 := Scalar.sqrt 10.0
    let u := b - 2.0 * c
    let v := a - d
    some (Vec.ofList [a + 10.0 * b, s5 * (c - d), u * u, s10 * v * v],
      [column [1, 0, 0, 2.0 * s10 * v], column [10.0, 0, 2.0 * u, 0],
        column [0, s5, -4.0 * u, 0], column [0, -s5, 0, -2.0 * s10 * v]])

/-- A function whose coordinates differ by many orders of magnitude. -/
def brown : CostFunction α σ :=
  .stateless 3 [2] fun p =>
    let x := coordinate p 0 0
    let y := coordinate p 0 1
    some (Vec.ofList [x - 1e6, y - 2e-6, x * y - 2.0], [rows [[1, 0], [0, 1], [y, x]]])

/-- The distance of an observation `y` at `t` from an exponential curve. -/
def exponential (t y : α) : CostFunction α σ :=
  .stateless 1 [1, 1] fun p =>
    let e := Scalar.exp (coordinate p 0 0 * t + coordinate p 1 0)
    some (Vec.ofList [y - e], [column [-t * e], column [-e]])

/-- A polynomial in one variable, the constant term first. -/
def polynomial (c : List α) : CostFunction α σ :=
  .stateless 1 [1] fun p =>
    let x := coordinate p 0 0
    let (r, d) := c.reverse.foldl (fun (r, d) ck => (r * x + ck, d * x + r)) (0, 0)
    some (Vec.ofList [r], [column [d]])

/-- A function that is flat far from its zero. -/
def arctangent (w : α) : CostFunction α σ :=
  .stateless 1 [1] fun p =>
    let x := coordinate p 0 0
    some (Vec.ofList [w * Scalar.atan x], [column [w / (1 + x * x)]])

/-- A wave on a slope. -/
def wave (w c : α) : CostFunction α σ :=
  .stateless 1 [1] fun p =>
    let x := coordinate p 0 0
    some (Vec.ofList [Scalar.sin (w * x) + c * x], [column [w * Scalar.cos (w * x) + c]])

/-- A function of the positive numbers. -/
def root (c : α) : CostFunction α σ :=
  .stateless 1 [1] fun p =>
    let x := coordinate p 0 0
    if 0 < x then some (Vec.ofList [Scalar.sqrt x - c], [column [0.5 / Scalar.sqrt x]]) else none

/-! ## Geometry -/

/-- The distance of two points, less a measured distance. Points that
coincide have no direction and are not admissible. -/
def range (n : Nat) (distance : α) : CostFunction α σ :=
  .stateless 1 [n, n] fun p =>
    let d := p.getD 0 default - p.getD 1 default
    let norm := d.norm
    if 0 < norm then
      some (Vec.ofList [norm - distance],
        [Mat.ofFn 1 n fun _ j => d.get j / norm, Mat.ofFn 1 n fun _ j => -(d.get j) / norm])
    else none

/-- Where a camera at the first block sees the second, less where it was
observed. A point that is not in front of the camera is not admissible. -/
def reprojection (focal : α) (observed : Vec α) : CostFunction α σ :=
  .stateless 2 [3, 3] fun p =>
    let q := p.getD 0 default + p.getD 1 default
    let x := q.get 0
    let y := q.get 1
    let z := q.get 2
    if 1e-6 < z then
      let i := 1 / z
      let j := rows [[focal * i, 0, -focal * x * i * i], [0, focal * i, -focal * y * i * i]]
      some (Vec.ofList [focal * x / z - observed.get 0, focal * y / z - observed.get 1], [j, j])
    else none

/-- A vector rotated by a quaternion that need not have unit length, less a
target. -/
def rotation (v target : Vec α) : CostFunction α σ :=
  .stateless 3 [4] fun p =>
    let w := coordinate p 0 0
    let x := coordinate p 0 1
    let y := coordinate p 0 2
    let z := coordinate p 0 3
    let apply := fun (m : List (List α)) => (rows m).mulVec v
    let rotated := apply
      [[w * w + x * x - y * y - z * z, 2.0 * (x * y - w * z), 2.0 * (x * z + w * y)],
        [2.0 * (x * y + w * z), w * w - x * x + y * y - z * z, 2.0 * (y * z - w * x)],
        [2.0 * (x * z - w * y), 2.0 * (y * z + w * x), w * w - x * x - y * y + z * z]]
    let columns :=
      [apply [[w, -z, y], [z, w, -x], [-y, x, w]], apply [[x, y, z], [y, -x, -w], [z, w, -x]],
        apply [[-y, x, w], [x, y, z], [-w, z, -y]], apply [[-z, -w, x], [w, -z, y], [x, y, z]]]
    some (rotated - target, [Mat.ofFn 3 4 fun i j => 2.0 * (columns.getD j default).get i])

end Gallery

end LeastSquares
