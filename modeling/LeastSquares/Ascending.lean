/-!
# Ascending lists

A finite set whose members are visited in order is kept as a strictly
ascending list, and a finite table as a list of entries with strictly
ascending keys. The order of the list is the order of every result that is
computed from it, so nothing derived from such a set depends on the history
of insertions.

## Main definitions

* `Ascending.insert`, `Ascending.erase` — adding and removing a member.
* `Table.find?`, `Table.put`, `Table.erase` — reading and changing a table.
-/

namespace LeastSquares

namespace Ascending

variable {K : Type} [LT K] [DecidableLT K]

/-- The set with one more member. -/
def insert (k : K) : List K → List K
  | [] => [k]
  | a :: l =>
      if k < a then k :: a :: l
      else if a < k then a :: insert k l
      else a :: l

/-- The set without a member. -/
def erase (k : K) : List K → List K
  | [] => []
  | a :: l =>
      if k < a then a :: l
      else if a < k then a :: erase k l
      else l

/-- The set of the members of a list. -/
def ofList (l : List K) : List K := l.foldl (fun set k => insert k set) []

end Ascending

/-- A finite table, by ascending keys. -/
abbrev Table (K V : Type) := List (K × V)

namespace Table

variable {K V : Type} [LT K] [DecidableLT K]

/-- The value under a key. -/
def find? (k : K) : Table K V → Option V
  | [] => none
  | (a, v) :: l =>
      if k < a then none
      else if a < k then find? k l
      else some v

/-- The table with a value under a key, whatever stood there before. -/
def put (k : K) (v : V) : Table K V → Table K V
  | [] => [(k, v)]
  | (a, w) :: l =>
      if k < a then (k, v) :: (a, w) :: l
      else if a < k then (a, w) :: put k v l
      else (a, v) :: l

/-- The table without a key. -/
def erase (k : K) : Table K V → Table K V
  | [] => []
  | (a, w) :: l =>
      if k < a then (a, w) :: l
      else if a < k then (a, w) :: erase k l
      else l

/-- The keys in order. -/
def keys (t : Table K V) : List K := t.map Prod.fst

/-- The values in the order of their keys. -/
def values (t : Table K V) : List V := t.map Prod.snd

end Table

end LeastSquares
