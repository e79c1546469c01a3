import CellBag.Cell.Basic

/-!
# Slices

A slice is a cell together with how much of its bits and references has been read. Any number of
slices can read one cell.
-/

namespace CellBag

/-- A cell, and how many of its bits and references have been read. -/
structure Slice where
  cell : Cell
  bitPosition : Nat
  refPosition : Nat
deriving Inhabited

namespace Slice

/-- A slice of which nothing has been read. -/
def ofCell (cell : Cell) : Slice := ⟨cell, 0, 0⟩

/-- How many bits are left. -/
def bitsLeft (s : Slice) : Nat := s.cell.bits.length - s.bitPosition

/-- How many references are left. -/
def refsLeft (s : Slice) : Nat := s.cell.refs.length - s.refPosition

/-- The bits that are left. -/
def remainingBits (s : Slice) : List Bool := s.cell.bits.toList.drop s.bitPosition

/-- The references that are left. -/
def remainingRefs (s : Slice) : List Cell := s.cell.refs.drop s.refPosition

/-- Whether nothing is left. -/
def isEmpty (s : Slice) : Bool := s.bitsLeft == 0 && s.refsLeft == 0

/-- The slice after more bits and references have been read. -/
def advance (s : Slice) (bits refs : Nat) : Slice :=
  ⟨s.cell, s.bitPosition + bits, s.refPosition + refs⟩

/-- The slice after all has been read. -/
def atEnd (s : Slice) : Slice := ⟨s.cell, s.cell.bits.length, s.cell.refs.length⟩

/-- Slices are equal when they have read as much of equal cells. -/
instance : BEq Slice where
  beq a b := a.cell == b.cell && a.bitPosition == b.bitPosition && a.refPosition == b.refPosition

end Slice

end CellBag
