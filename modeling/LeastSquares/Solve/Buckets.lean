import LeastSquares.Fault

/-!
# Sorting into buckets

Entries with keys below some number are sorted by counting. The entries of
every key are counted first, and the sums of the counts are where the buckets
end. The entries are then taken from the last to the first, and each goes to
the place before the end of its bucket, which moves down to that place. So
entries of one key stay in their order. At last every end has come down to the
start of its bucket and every place has an entry, which is checked.

## Main definitions

* `Buckets.histogram` — the sizes of the buckets.
* `Buckets.Filling` — the ends of the buckets and the places filled so far.
* `Buckets.sort` — the sizes of the buckets and the sorted entries.
-/

namespace LeastSquares.Buckets

variable {β : Type}

/-! ## Counting -/

/-- One entry more in a bucket. -/
def count (sizes : List Nat) (k : Nat) : Except Fault (List Nat) :=
  match sizes[k]? with
  | none => .error .noSuchPlace
  | some size => .ok (sizes.set k (size + 1))

/-- How many of some keys there are of each key below `n`. -/
def histogram (n : Nat) (keys : List Nat) : Except Fault (List Nat) :=
  keys.foldlM count (List.replicate n 0)

/-- Where buckets start that stand one after the other. -/
def starts (start : Nat) : List Nat → List Nat
  | [] => []
  | size :: rest => start :: starts (start + size) rest

/-- Where buckets end that stand one after the other. -/
def ends (start : Nat) : List Nat → List Nat
  | [] => []
  | size :: rest => (start + size) :: ends (start + size) rest

/-! ## Filling -/

/-- Buckets that are being filled from the back. -/
structure Filling (β : Type) where
  /-- For each bucket, where its part that is not filled ends. -/
  ends : List Nat
  places : List (Option β)

/-- Puts an entry at the last free place of its bucket. -/
def Filling.put (s : Filling β) (entry : Nat × β) : Except Fault (Filling β) :=
  match s.ends[entry.1]? with
  | some (place + 1) =>
      if place < s.places.length then
        .ok ⟨s.ends.set entry.1 place, s.places.set place (some entry.2)⟩
      else .error .noSuchPlace
  | _ => .error .noSuchPlace

/-- Entries in the order of their keys, which are below `n`, and the number of
entries of each key. Entries of one key keep their order. -/
def sort (n : Nat) (keyed : List (Nat × β)) : Except Fault (List Nat × List β) := do
  let sizes ← histogram n (keyed.map Prod.fst)
  let filled ← keyed.reverse.foldlM Filling.put
    ⟨ends 0 sizes, List.replicate keyed.length none⟩
  if filled.ends ≠ starts 0 sizes then .error .miscountedBucket
  else
    match filled.places.mapM id with
    | none => .error .unfilledPlace
    | some sorted => .ok (sizes, sorted)

end LeastSquares.Buckets
