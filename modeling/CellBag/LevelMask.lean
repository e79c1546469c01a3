/-!
# Level masks

A cell has one hash for each Merkle level at which it differs. The mask says at which: bit `i` is
set when the cell has a hash of its own at level `i + 1`. Level zero always has one.
-/

namespace CellBag

/-- Three bits, one for each of the levels one, two and three. -/
@[ext]
structure LevelMask where
  bits : BitVec 3
deriving DecidableEq

namespace LevelMask

/-- The mask of a cell that differs at no level. -/
def empty : LevelMask := ⟨0⟩

instance : Inhabited LevelMask := ⟨empty⟩

/-- The mask in the low three bits of a byte. -/
def ofByte (byte : UInt8) : LevelMask := ⟨byte.toBitVec.setWidth 3⟩

/-- The mask as a byte. -/
def toByte (m : LevelMask) : UInt8 := ⟨m.bits.setWidth 8⟩

/-- The mask of all levels up to the given one. -/
def upTo : (level : Nat) → LevelMask
  | 0 => ⟨0b000⟩
  | 1 => ⟨0b001⟩
  | 2 => ⟨0b011⟩
  | _ => ⟨0b111⟩

/-- The number of levels in the mask. -/
def level (m : LevelMask) : Nat :=
  (m.bits.getLsbD 0).toNat + (m.bits.getLsbD 1).toNat + (m.bits.getLsbD 2).toNat

/-- The levels that remain visible from a level. -/
def apply (m : LevelMask) (level : Nat) : LevelMask :=
  ⟨m.bits &&& (upTo level).bits⟩

/-- Which of the stored hashes answers for a level. -/
def hashIndex (m : LevelMask) (level : Nat) : Nat :=
  (m.apply level).level

/-- Whether the hash at a level differs from the one below it. -/
def isSignificant (m : LevelMask) : (level : Nat) → Bool
  | 0 => true
  | level + 1 => m.bits.getLsbD level

/-- The highest level in the mask, zero when there is none. -/
def topLevel (m : LevelMask) : Nat :=
  if m.bits.getLsbD 2 then 3 else if m.bits.getLsbD 1 then 2 else if m.bits.getLsbD 0 then 1 else 0

/-- The mask without its lowest levels, the others moved down. -/
def virtualize (m : LevelMask) (offset : Nat) : LevelMask :=
  ⟨m.bits >>> offset⟩

/-- The levels of either mask. -/
def union (a b : LevelMask) : LevelMask :=
  ⟨a.bits ||| b.bits⟩

end LevelMask

end CellBag
