import CellBag.Bits.Write
import CellBag.Cell.Construct
import CellBag.Slice.Basic

/-!
# Builders

A builder collects the bits and references of a cell. It is written by `Store` actions, which keep
the builder also when they fail: each of those here then leaves it as it was, because room for
the whole value is asked for first.
-/

namespace CellBag

/-- The bits and references of a cell under construction. -/
structure Builder where
  bits : Bits := .empty
  refs : List Cell := []
  exotic : Bool := false
deriving Inhabited

namespace Builder

/-- A builder without bits and references, for an ordinary cell. -/
def empty : Builder := {}

/-- How many more bits there is room for. -/
def availableBits (b : Builder) : Nat := b.bits.available

/-- How many more whole bytes there is room for. -/
def availableBytes (b : Builder) : Nat := b.availableBits / 8

/-- How many more references there is room for. -/
def availableRefs (b : Builder) : Nat := Cell.maxRefs - b.refs.length

/-- The cell with these bits and references. -/
def finish (b : Builder) : Except Error Cell :=
  Cell.finalize b.bits b.refs b.exotic

end Builder

/-- An action that writes into a builder. -/
abbrev Store := EStateM Error Builder

namespace Store

/-- Writes bits. -/
def write (f : Bits → Except Error Bits) : Store Unit := fun b =>
  match f b.bits with
  | .ok bits => .ok () { b with bits }
  | .error e => .error e b

/-- Fails unless there is room for `count` more bits. -/
def ensureBits (count : Nat) : Store Unit := fun b =>
  if count ≤ b.availableBits then .ok () b
  else .error (.capacity .bits count b.availableBits) b

/-- Fails unless there is room for `count` more references. -/
def ensureRefs (count : Nat) : Store Unit := fun b =>
  if count ≤ b.availableRefs then .ok () b
  else .error (.capacity .refs count b.availableRefs) b

/-- Says whether the cell will be exotic. Its layout is checked at the end. -/
def exotic (value : Bool) : Store Unit :=
  modify fun b => { b with exotic := value }

/-- Stores one bit. -/
def bit (value : Bool) : Store Unit :=
  write (·.writeBit value)

/-- Stores the first `count` bits of some bytes. -/
def bits (source : List UInt8) (count : Nat) : Store Unit :=
  write (·.writeBits source count)

/-- Stores a bit string. -/
def bitString (value : Bits) : Store Unit :=
  write (·.writeAll value)

/-- Stores bytes. -/
def bytes (value : List UInt8) : Store Unit :=
  write (·.writeBytes value)

/-- Stores text in UTF-8. -/
def text (value : String) : Store Unit :=
  write (·.writeText value)

/-- Stores an unsigned word in `width` bits. -/
def word (value : BitVec 64) (width : Nat) : Store Unit :=
  write (·.writeWord value width)

/-- Stores a signed word in `width` bits. -/
def signedWord (value : BitVec 64) (width : Nat) : Store Unit :=
  write (·.writeSignedWord value width)

/-- Stores a natural number in `width` bits. -/
def nat (value width : Nat) : Store Unit :=
  write (·.writeNat value width)

/-- Stores an integer in two's complement in `width` bits. -/
def int (value : Int) (width : Nat) : Store Unit :=
  write (·.writeInt value width)

/-- Stores an amount of coins. -/
def coins (amount : BitVec 128) : Store Unit :=
  write (·.writeCoins amount)

/-- Appends references without asking for room. -/
def appendRefs (refs : List Cell) : Store Unit :=
  modify fun b => { b with refs := b.refs ++ refs }

/-- Stores a reference. -/
def ref (cell : Cell) : Store Unit := do
  ensureRefs 1
  appendRefs [cell]

/-- Stores an optional reference: a bit that says whether it is there, and the reference. -/
def maybeRef : Option Cell → Store Unit
  | some cell => do
    ensureBits 1
    ensureRefs 1
    bit true
    ref cell
  | none => bit false

/-- Stores the bits and references of a cell. -/
def cell (value : Cell) : Store Unit := do
  ensureBits value.bits.length
  ensureRefs value.refs.length
  bitString value.bits
  appendRefs value.refs

/-- Stores what is left of a slice. -/
def slice (value : Slice) : Store Unit := do
  ensureBits value.bitsLeft
  ensureRefs value.refsLeft
  write (·.append value.remainingBits)
  appendRefs value.remainingRefs

/-- The largest width that a number of bytes stored in `lengthBits` bits allows. -/
def varWidth (lengthBits : Nat) : Nat :=
  (1 <<< min lengthBits 16 - 1) * 8

/-- Stores a number of bytes in `lengthBits` bits, and makes sure that the bytes have room, too. -/
def varLength (size lengthBits : Nat) : Store Unit := do
  if 64 ≤ lengthBits ∨ lengthBits < Binary.width size then
    throw (.intOverflow (varWidth lengthBits))
  ensureBits (lengthBits + 8 * size)
  nat size lengthBits

/-- Stores a natural number of variable length: the least number of bytes that hold it in
`lengthBits` bits, and these bytes. -/
def varNat (value lengthBits : Nat) : Store Unit := do
  let size := Binary.octetsFor (Binary.width value)
  varLength size lengthBits
  nat value (8 * size)

/-- The least number of bytes that hold an integer in two's complement, none for zero. -/
def intSize (value : Int) : Nat :=
  if value = 0 then 0 else Binary.octetsFor (Binary.width (Binary.magnitude value) + 1)

/-- Stores an integer of variable length: the least number of bytes that hold it in `lengthBits`
bits, and these bytes. -/
def varInt (value : Int) (lengthBits : Nat) : Store Unit := do
  let size := intSize value
  varLength size lengthBits
  int value (8 * size)

/-- The cell that an action writes. -/
def toCell (action : Store Unit) : Except Error Cell :=
  match action Builder.empty with
  | .ok _ b => b.finish
  | .error e _ => .error e

end Store

/-- A builder that holds what is left of a slice. -/
def Builder.ofSlice (s : Slice) : Except Error Builder :=
  match Store.slice s Builder.empty with
  | .ok _ b => .ok b
  | .error e _ => .error e

end CellBag
