/-!
# Handles

A parameter block is referred to by the slot that holds it and the
generation of that slot. A slot starts a new generation whenever its block
is removed, so a handle that has outlived its block is recognized as stale.
Both numbers are words of 32 bits; a generation returns to zero after the
last one.

Handles are ordered by slot and then by generation. For blocks that were
never removed this is the order in which they were added, and every result
that depends on an order of blocks depends on this one.

## Main definitions

* `BlockId` — handle of a parameter block.
* `ResidualId` — handle of a residual block.
-/

namespace LeastSquares

/-- Handle of a parameter block. -/
structure BlockId where
  slot : UInt32
  generation : UInt32
deriving DecidableEq, Repr, Inhabited

namespace BlockId

instance : LT BlockId :=
  ⟨fun a b => a.slot < b.slot ∨ (a.slot = b.slot ∧ a.generation < b.generation)⟩

instance (a b : BlockId) : Decidable (a < b) :=
  inferInstanceAs
    (Decidable (a.slot < b.slot ∨ (a.slot = b.slot ∧ a.generation < b.generation)))

/-- How a handle is written. -/
def name (id : BlockId) : String := s!"p{id.slot.toNat}v{id.generation.toNat}"

/-- The last place of a handle in a list. -/
def lastPlace? (id : BlockId) (blocks : List BlockId) : Option Nat :=
  (blocks.reverse.idxOf? id).map fun i => blocks.length - 1 - i

end BlockId

/-- Handle of a residual block: its place in the order of additions. -/
structure ResidualId where
  index : Nat
deriving DecidableEq, Repr, Inhabited

namespace ResidualId

/-- How a handle is written. -/
def name (id : ResidualId) : String := s!"r{id.index}"

end ResidualId

end LeastSquares
