import LeastSquares.Named
import LeastSquares.Problem.EliminationOrder

/-!
# Named fields

Options are set, and summaries are read, by people and programs that know
them by name. A field is a part of a record together with its name and the
ways of reading and replacing it as plain data. A record with a list of
fields can be read from and written to any format of named values, and no
format has to know the record.

## Main definitions

* `Datum` — the plain data.
* `Field` — a named part of a record.
* `Field.fill` — a record with the fields replaced for which there is a
  value.
-/

namespace LeastSquares

/-- What a field can hold. -/
inductive Datum (α : Type) where
  | count (n : Nat)
  | real (a : α)
  | flag (b : Bool)
  | text (s : String)
  /-- A text that may be missing. -/
  | label (s : Option String)
  | counts (l : List Nat)
  /-- An elimination order that may be missing. -/
  | order (o : Option EliminationOrder)

/-- A part of a record. A value of the wrong sort leaves the record as it
is. -/
structure Field (ρ α : Type) where
  key : String
  read : ρ → Datum α
  write : Datum α → ρ → ρ

namespace Field

variable {ρ α τ : Type}

/-- A number. -/
def count (key : String) (get : ρ → Nat) (set : Nat → ρ → ρ) : Field ρ α where
  key := key
  read r := .count (get r)
  write
    | .count n, r => set n r
    | _, r => r

/-- A scalar. -/
def real (key : String) (get : ρ → α) (set : α → ρ → ρ) : Field ρ α where
  key := key
  read r := .real (get r)
  write
    | .real a, r => set a r
    | _, r => r

/-- A truth value. -/
def flag (key : String) (get : ρ → Bool) (set : Bool → ρ → ρ) : Field ρ α where
  key := key
  read r := .flag (get r)
  write
    | .flag b, r => set b r
    | _, r => r

/-- A text. -/
def text (key : String) (get : ρ → String) (set : String → ρ → ρ) : Field ρ α where
  key := key
  read r := .text (get r)
  write
    | .text s, r => set s r
    | _, r => r

/-- A text that may be missing. -/
def label (key : String) (get : ρ → Option String) (set : Option String → ρ → ρ) :
    Field ρ α where
  key := key
  read r := .label (get r)
  write
    | .label s, r => set s r
    | _, r => r

/-- A list of numbers. -/
def counts (key : String) (get : ρ → List Nat) (set : List Nat → ρ → ρ) : Field ρ α where
  key := key
  read r := .counts (get r)
  write
    | .counts l, r => set l r
    | _, r => r

/-- An elimination order that may be missing. -/
def order (key : String) (get : ρ → Option EliminationOrder)
    (set : Option EliminationOrder → ρ → ρ) : Field ρ α where
  key := key
  read r := .order (get r)
  write
    | .order o, r => set o r
    | _, r => r

/-- One of the values of a type that has names. An unknown name leaves the record as
it is. -/
def choice [Named τ] (key : String) (get : ρ → τ) (set : τ → ρ → ρ) : Field ρ α where
  key := key
  read r := .text (Named.name (get r))
  write
    | .text s, r =>
        match Named.find? s with
        | some t => set t r
        | none => r
    | _, r => r

/-- The record with every field replaced for which `value` has something,
given the key and what the field holds. -/
def fill (fields : List (Field ρ α)) (value : String → Datum α → Option (Datum α)) (r : ρ) : ρ :=
  fields.foldl
    (fun r f =>
      match value f.key (f.read r) with
      | some d => f.write d r
      | none => r) r

end Field

end LeastSquares
