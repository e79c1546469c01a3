import CellBag.Bits.Read
import CellBag.Bits.Write

/-!
# Buffers

How bits are kept in bytes while they are written and read: the first bit of a byte is the most
significant one. A write only sets the ones of its bits, so it relies on zeros behind the bits that
are in use.
-/

namespace CellBag

/-- Bytes, how many of their bits are in use, and how many of these have been read. -/
structure Buffer where
  bytes : List UInt8
  length : Nat
  position : Nat

namespace Buffer

/-- An action on a buffer. -/
abbrev Action := EStateM Error Buffer

/-- Buffers are equal when they have the same bytes in use, whatever has been read. -/
instance : BEq Buffer where
  beq a b := a.length == b.length && a.bytes == b.bytes

/-- A buffer without bits. -/
def empty : Buffer := ⟨[], 0, 0⟩

/-- A buffer with the first `count` bits of some bytes. The last byte is cleared behind them. -/
def ofBytes (bytes : List UInt8) (count : Nat) : Except Error Buffer :=
  if Bits.capacity < count then .error (.capacity .bits count Bits.capacity)
  else if 8 * bytes.length < count then .error (.underrun .bits count (8 * bytes.length))
  else
    let kept := bytes.take (Binary.octetsFor count)
    if count % 8 = 0 then .ok ⟨kept, count, 0⟩
    else .ok ⟨kept.modify (count / 8) (· &&& (0xFF <<< UInt8.ofNat (8 - count % 8))), count, 0⟩

/-- A buffer with the bits of some bytes, which end with a completion tag unless they are whole. -/
def ofTaggedBytes (bytes : List UInt8) (whole : Bool) : Except Error Buffer :=
  if whole then ofBytes bytes (8 * bytes.length)
  else
    match bytes.getLast? with
    | none => .ok empty
    | some last =>
      if last = 0 then .error (.encoding .missingTag)
      else ofBytes bytes (8 * bytes.length - Bits.trailingZeros (Binary.ofNat 8 last.toNat) - 1)

/-- Adds a bit, and a byte for it if all are full. -/
def push (b : Buffer) (bit : Bool) : Buffer :=
  let bytes := if b.length / 8 < b.bytes.length then b.bytes else b.bytes ++ [0]
  let bytes :=
    if bit then bytes.modify (b.length / 8) (· ||| (1 <<< UInt8.ofNat (7 - b.length % 8)))
    else bytes
  ⟨bytes, b.length + 1, b.position⟩

/-- Adds the bits that are planned one by one if there is room. -/
def follow (plan : Except Error Bits.Plan) : Action Unit := fun b =>
  match plan with
  | .ok p =>
    if p.room ≤ Bits.capacity - b.length then .ok () ((p.bits ()).foldl push b)
    else .error (.capacity .bits p.room (Bits.capacity - b.length)) b
  | .error e => .error e b

/-- The bit of the bytes at an index. -/
def bitAt (b : Buffer) (index : Nat) : Bool :=
  (b.bytes.getD (index / 8) 0 >>> UInt8.ofNat (7 - index % 8)) &&& 1 == 1

/-- The bits that are in use. -/
def bits (b : Buffer) : List Bool :=
  (List.range b.length).map b.bitAt

/-- The next `count` bits to read. -/
def next (b : Buffer) (count : Nat) : List Bool :=
  (List.range' b.position count).map b.bitAt

/-- Fails unless `count` bits are left to read. -/
def ensureReadable (b : Buffer) (count : Nat) : Except Error Unit :=
  if count ≤ b.length - b.position then .ok ()
  else .error (.underrun .bits count (b.length - b.position))

/-- The next bit. -/
def bit (b : Buffer) : Except Error Bool := do
  b.ensureReadable 1
  return b.bitAt b.position

/-- The next bits as an unsigned word of at most 64 bits. -/
def word (b : Buffer) (width : Nat) : Except Error (BitVec 64) :=
  if 64 < width then .error (.intOverflow 64)
  else do
    b.ensureReadable width
    return (b.next width).foldl Bits.pushBit 0

/-- The next bits as a signed word of at most 64 bits. -/
def signedWord (b : Buffer) (width : Nat) : Except Error (BitVec 64) := do
  let word ← b.word width
  return Bits.extendSign word width

/-- Reads a value and moves the read position over its bits. -/
def take {α : Type} (f : Buffer → Except Error α) (width : Nat) : Action α := do
  let a ← ofExcept (f (← get))
  modify fun b => { b with position := b.position + width }
  return a

/-- Reads a bit. -/
def readBit : Action Bool := take bit 1

/-- Reads an unsigned word of at most 64 bits. -/
def readWord (width : Nat) : Action (BitVec 64) := take (·.word width) width

/-- Reads a signed word of at most 64 bits. -/
def readSignedWord (width : Nat) : Action (BitVec 64) := take (·.signedWord width) width

/-- Moves the read position over bits that are there. -/
def skip (count : Nat) : Action Unit := take (·.ensureReadable count) count

/-- Begins to read from the front again. -/
def rewind : Action Unit :=
  modify fun b => { b with position := 0 }

end Buffer

end CellBag
