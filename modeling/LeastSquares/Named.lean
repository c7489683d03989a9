/-!
# Names of values

Choices are made, and errors are told apart, by name. A type is `Named` when
each of its values has a name and all of them can be listed; a value is then
found by its name.

## Main definitions

* `Named` — the types whose values have names.
* `Named.find?` — the value with a name.
-/

namespace LeastSquares

/-- The types whose values have names. -/
class Named (τ : Type) where
  /-- All values, in the order in which they are listed to users. -/
  all : List τ
  name : τ → String

/-- The value with a name, if there is one. -/
def Named.find? {τ : Type} [Named τ] (s : String) : Option τ :=
  all.find? fun t => name t == s

/-- The names of all values. -/
def Named.names (τ : Type) [Named τ] : List String := (all : List τ).map name

end LeastSquares
