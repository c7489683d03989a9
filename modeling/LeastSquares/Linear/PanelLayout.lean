import LeastSquares.Linear.FactorLayout

/-!
# Panels of a factor

A factor that fills up is not worth storing slot by slot. Consecutive
columns with nearly the same rows are kept together as a *panel*: a full
block with one row for every row that one of its columns holds, so an entry
of the panel is found by its row and column and not by its turn.

Columns share a panel without a loss if each is the parent of the one before
it, and of that one only, and takes over all its rows. Such panels are then
widened: a panel joins the next one if its parent lies there, at the price of
storing some entries that are always zero. A small panel may hold many zeros
and a large one only few.

## Main definitions

* `Panel` — a range of columns.
* `FactorLayout.panels` — the panels of a factor.
* `FactorLayout.misfit?` — the first panel that has no place for an entry.
-/

namespace LeastSquares

/-- Consecutive columns of a factor that are stored together. -/
structure Panel where
  first : Nat
  size : Nat
  /-- Number of rows below the last column. -/
  height : Nat
  /-- Number of entries that are stored although they are always zero. -/
  zeros : Nat
deriving DecidableEq, Repr

namespace Panel

/-- The first column after the panel. -/
def stop (p : Panel) : Nat := p.first + p.size

/-- Whether a column is one of the panel. -/
def contains (p : Panel) (k : Nat) : Bool := p.first ≤ k && k < p.stop

/-- Whether a panel of so many columns and entries may hold so many zeros: at
most four columns, any number short of all entries; at most 16 columns, four
fifths; at most 48, a tenth; and otherwise a twentieth. -/
def mayHold (size entries zeros : Nat) : Bool :=
  (size ≤ 4 && zeros < entries) || (size ≤ 16 && 10 * zeros < 8 * entries)
    || (size ≤ 48 && 10 * zeros < entries) || 20 * zeros < entries

/-- A panel together with the one before it, if they may be joined. -/
def join? (previous p : Panel) : Option Panel :=
  let added := (p.size + p.height - previous.height) * previous.size
  let size := previous.size + p.size
  let joined := ⟨previous.first, size, p.height, added + previous.zeros + p.zeros⟩
  let entries := size * (size + 1) / 2 + p.height * size
  if added = 0 || mayHold size entries joined.zeros then some joined else none

end Panel

namespace FactorLayout

variable (layout : FactorLayout)

/-- Whether a column shares its panel with the one before it: it is the
parent of that column alone and has all other rows of it. -/
def continues (k : Nat) : Bool :=
  let children := (List.range k).filter fun j => layout.parent? j == some k
  children == [k - 1] && layout.count (k - 1) == layout.count k + 1

/-- The panels before they are widened, the last one first. -/
def narrowPanels : List Panel :=
  (List.range layout.size).foldl
    (fun panels k =>
      let height := layout.count k - 1
      match panels with
      | p :: rest =>
          if layout.continues k then { p with size := p.size + 1, height } :: rest
          else ⟨k, 1, height, 0⟩ :: p :: rest
      | [] => [⟨k, 1, height, 0⟩])
    []

/-- The panels in order. Each may take in the one before it. -/
def panels : List Panel :=
  (layout.narrowPanels.reverse.foldl
    (fun panels p =>
      match panels with
      | previous :: rest =>
          let isChild := ((layout.parent? (previous.stop - 1)).map p.contains).getD false
          match if isChild then previous.join? p else none with
          | some joined => joined :: rest
          | none => p :: previous :: rest
      | [] => [p])
    []).reverse

/-- Whether a panel has a place for a row in its columns. -/
def hasPlace (p : Panel) (row : Nat) : Bool :=
  row < p.stop || (List.range' p.first p.size).any fun k => layout.holds k row

/-- The first panel that has no place for one of the given positions. -/
def misfit? (triangle : List (Nat × Nat)) : Option Panel :=
  layout.panels.find? fun p =>
    triangle.any fun (column, row) => p.contains column && !layout.hasPlace p row

end FactorLayout

end LeastSquares
