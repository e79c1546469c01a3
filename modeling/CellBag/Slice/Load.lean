import CellBag.Arithmetic
import CellBag.Bits.Read
import CellBag.Builder
import CellBag.Text.Blank

/-!
# Loading from slices

`Load` actions read a slice and keep it also when they fail. Each action here then leaves it as
it was: single reads look at the value before they move on, and those made of several reads run
`atomically`.
-/

namespace CellBag

/-- An action that reads a slice. -/
abbrev Load := EStateM Error Slice

namespace Load

/-- Runs an action that leaves the slice as it was if it fails. -/
def atomically {α : Type} (action : Load α) : Load α := fun s =>
  match action s with
  | .ok a t => .ok a t
  | .error e _ => .error e s

/-- Looks at the bits from the read position on. -/
def peek {α : Type} (f : Bits → Nat → Except Error α) : Load α := fun s =>
  match f s.cell.bits s.bitPosition with
  | .ok a => .ok a s
  | .error e => .error e s

/-- Moves on over bits and references. -/
def advance (bits refs : Nat) : Load Unit :=
  modify (·.advance bits refs)

/-- Reads a value and moves on over its bits. -/
def take {α : Type} (f : Bits → Nat → Except Error α) (width : Nat) : Load α := do
  let a ← peek f
  advance width 0
  return a

/-- Begins to read from the front again. -/
def rewind : Load Unit :=
  modify fun s => .ofCell s.cell

/-- Moves on over `count` bits that are left. -/
def skipBits (count : Nat) : Load Unit := fun s =>
  if count ≤ s.bitsLeft then .ok () (s.advance count 0)
  else .error (.underrun .bits count s.bitsLeft) s

/-- Moves on over `count` references that are left. -/
def skipRefs (count : Nat) : Load Unit := fun s =>
  if count ≤ s.refsLeft then .ok () (s.advance 0 count)
  else .error (.underrun .refs count s.refsLeft) s

/-- Looks at one bit. -/
def peekBit : Load Bool := peek Bits.bitAt

/-- Loads one bit. -/
def bit : Load Bool := take Bits.bitAt 1

/-- Looks at `count` bits, packed into bytes. -/
def peekBits (count : Nat) : Load (List UInt8) := peek fun b offset => b.bytesAt offset count

/-- Loads `count` bits, packed into bytes. -/
def bits (count : Nat) : Load (List UInt8) := take (fun b offset => b.bytesAt offset count) count

/-- Loads `count` bits as a bit string. -/
def bitString (count : Nat) : Load Bits := take (fun b offset => b.substring offset count) count

/-- The number of bits of `size` bytes. -/
def byteWidth (arith : Arithmetic) (size : Nat) : Load Nat :=
  ofExcept (arith.size (8 * size))

/-- Looks at bytes. -/
def peekBytes (arith : Arithmetic) (size : Nat) : Load (List UInt8) := do
  peekBits (← byteWidth arith size)

/-- Loads bytes. -/
def bytes (arith : Arithmetic) (size : Nat) : Load (List UInt8) := do
  bits (← byteWidth arith size)

/-- Looks at an unsigned word of at most 64 bits. -/
def peekWord (width : Nat) : Load (BitVec 64) := peek fun b offset => b.wordAt 64 offset width

/-- Loads an unsigned word of at most 64 bits. -/
def word (width : Nat) : Load (BitVec 64) := take (fun b offset => b.wordAt 64 offset width) width

/-- Looks at a signed word of at most 64 bits. -/
def peekSignedWord (width : Nat) : Load (BitVec 64) :=
  peek fun b offset => b.signedWordAt 64 offset width

/-- Loads a signed word of at most 64 bits. -/
def signedWord (width : Nat) : Load (BitVec 64) :=
  take (fun b offset => b.signedWordAt 64 offset width) width

/-- Looks at a natural number of any width. -/
def peekNat (width : Nat) : Load Nat := peek fun b offset => b.natAt offset width

/-- Loads a natural number of any width. -/
def nat (width : Nat) : Load Nat := take (fun b offset => b.natAt offset width) width

/-- Looks at an integer of any width. -/
def peekInt (width : Nat) : Load Int := peek fun b offset => b.intAt offset width

/-- Loads an integer of any width. -/
def int (width : Nat) : Load Int := take (fun b offset => b.intAt offset width) width

/-- Looks at one of the references that are left. That it is missing is said with the number of
references that there would have to be. -/
def peekRef (arith : Arithmetic) (index : Nat) : Load Cell := do
  match (← get).remainingRefs[index]? with
  | some cell => return cell
  | none =>
    let count ← ofExcept (arith.size (index + 1))
    throw (.underrun .refs count (← get).refsLeft)

/-- Looks at the next reference. -/
def peekNextRef : Load Cell := fun s =>
  match s.remainingRefs[0]? with
  | some cell => .ok cell s
  | none => .error (.underrun .refs 1 s.refsLeft) s

/-- Loads a reference. -/
def ref : Load Cell := do
  let cell ← peekNextRef
  advance 0 1
  return cell

/-- Loads an optional reference. -/
def maybeRef : Load (Option Cell) := atomically do
  if ← bit then return some (← ref) else return none

/-- Loads a natural number of variable length. -/
def varNat (arith : Arithmetic) (lengthBits : Nat) : Load Nat := atomically do
  let size ← word lengthBits
  nat (← byteWidth arith size.toNat)

/-- Loads an integer of variable length. -/
def varInt (arith : Arithmetic) (lengthBits : Nat) : Load Int := atomically do
  let size ← word lengthBits
  int (← byteWidth arith size.toNat)

/-- Looks at an amount of coins. -/
def peekCoins : Load (BitVec 128) := do
  let size ← peekWord 4
  peek fun b offset => b.wordAt 128 (offset + 4) (8 * size.toNat)

/-- Loads an amount of coins. -/
def coins : Load (BitVec 128) := do
  let size ← peekWord 4
  let amount ← peekCoins
  advance (4 + 8 * size.toNat) 0
  return amount

/-- Loads text of `size` bytes in UTF-8. -/
def text (arith : Arithmetic) (size : Nat) : Load String := do
  let width ← byteWidth arith size
  let bytes ← peekBits width
  match Text.ofUtf8? bytes with
  | some s =>
    advance width 0
    return s
  | none => throw .invalidUtf8

/-- What is left of a slice as an ordinary cell. -/
def remainderOf (s : Slice) : Except Error Cell := do
  let builder ← Builder.ofSlice s
  builder.finish

/-- Loads what is left as an ordinary cell. -/
def remainder : Load Cell := do
  let cell ← ofExcept (remainderOf (← get))
  modify (·.atEnd)
  return cell

/-- Fails unless nothing is left. -/
def finish : Load Unit := fun s =>
  if s.isEmpty then .ok () s else .error (.trailingData s.bitsLeft s.refsLeft) s

/-- What an action reads from the front of a cell. -/
def fromCell {α : Type} (action : Load α) (cell : Cell) : Except Error α :=
  match action (Slice.ofCell cell) with
  | .ok a _ => .ok a
  | .error e _ => .error e

end Load

end CellBag
