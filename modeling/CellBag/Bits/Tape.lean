import CellBag.Bits.Read
import CellBag.Bits.Write

/-!
# Tapes

A bit string that is written at its end while it is read from its front. An action either succeeds
or fails, and keeps the tape in both cases.
-/

namespace CellBag

/-- Bits, and how many of them have been read. -/
structure Tape where
  bits : Bits
  position : Nat
deriving DecidableEq

namespace Tape

/-- An action on a tape. -/
abbrev Action := EStateM Error Tape

/-- A tape of which nothing has been read. -/
def ofBits (bits : Bits) : Tape := ⟨bits, 0⟩

/-- How many bits are left to read. -/
def left (t : Tape) : Nat := t.bits.length - t.position

/-- Writes at the end. -/
def write (f : Bits → Except Error Bits) : Action Unit := fun t =>
  match f t.bits with
  | .ok bits => .ok () ⟨bits, t.position⟩
  | .error e => .error e t

/-- Looks at the bits from the read position on. -/
def peek {α : Type} (f : Bits → Nat → Except Error α) : Action α := fun t =>
  match f t.bits t.position with
  | .ok a => .ok a t
  | .error e => .error e t

/-- Moves the read position on. -/
def advance (count : Nat) : Action Unit :=
  modify fun t => { t with position := t.position + count }

/-- Reads a bit. -/
def readBit : Action Bool := do
  let bit ← peek Bits.bitAt
  advance 1
  return bit

/-- Reads an unsigned word of at most 64 bits. -/
def readWord (width : Nat) : Action (BitVec 64) := do
  let word ← peek fun b offset => b.wordAt 64 offset width
  advance width
  return word

/-- Reads a signed word of at most 64 bits. -/
def readSignedWord (width : Nat) : Action (BitVec 64) := do
  let word ← peek fun b offset => b.signedWordAt 64 offset width
  advance width
  return word

/-- Moves the read position over bits that are there. -/
def skip (count : Nat) : Action Unit := do
  peek fun b offset => b.ensureReadable offset count
  advance count

/-- Begins to read from the front again. -/
def rewind : Action Unit :=
  modify fun t => { t with position := 0 }

end Tape

end CellBag
