import CellBag.Bits.Buffer

/-!
# Looking into buffers

Positional readers on bytes, which leave the read position alone. Each takes an offset and a width,
asks whether so many bits in use stand behind the offset, and then looks its bytes up: those of
single bits one by one, or all of them at once when the range begins with a whole byte. No byte is
taken to be there: looking for one that is not is a panic.
-/

namespace CellBag.Buffer

/-- The byte at an index. -/
def byteAt (b : Buffer) (index : Nat) : Except Error UInt8 :=
  match b.bytes[index]? with
  | some byte => .ok byte
  | none => .error (.panic (.index index b.bytes.length))

/-- The `count` bytes from an index on. -/
def sliceAt (b : Buffer) (start count : Nat) : Except Error (List UInt8) :=
  if start + count ≤ b.bytes.length then .ok ((b.bytes.drop start).take count)
  else .error (.panic (.range start (start + count) b.bytes.length))

/-- The bit of the bytes at an index, in use or not. -/
def lookUp (b : Buffer) (index : Nat) : Except Error Bool := do
  let byte ← b.byteAt (index / 8)
  return (byte >>> UInt8.ofNat (7 - index % 8)) &&& 1 == 1

/-- Fails unless `count` bits in use stand behind an offset. -/
def ensureRange (b : Buffer) (offset count : Nat) : Except Error Unit :=
  if count ≤ b.length - offset then .ok ()
  else .error (.underrun .bits count (b.length - offset))

/-- The bit at an offset, if it is in use. -/
def usedBitAt (b : Buffer) (offset : Nat) : Except Error Bool := do
  b.ensureRange offset 1
  b.lookUp offset

/-- An unsigned word of at most `w` bits. -/
def wordAt (b : Buffer) (w offset width : Nat) : Except Error (BitVec w) :=
  if w < width then .error (.intOverflow w)
  else do
    b.ensureRange offset width
    (List.range' offset width).foldlM (fun word i => return Bits.pushBit word (← b.lookUp i)) 0

/-- A signed word of at most 64 bits. -/
def signedWordAt (b : Buffer) (offset width : Nat) : Except Error (BitVec 64) := do
  let word ← b.wordAt 64 offset width
  return Bits.extendSign word width

/-- Sets a bit of some bytes. -/
def setBit (bytes : List UInt8) (index : Nat) : Except Error (List UInt8) :=
  if index / 8 < bytes.length then
    .ok (bytes.modify (index / 8) (· ||| (1 <<< UInt8.ofNat (7 - index % 8))))
  else .error (.panic (.index (index / 8) bytes.length))

/-- Bytes that are copied as they are, the last one cleared behind the bits that are asked for. -/
def copyBytes (b : Buffer) (offset width : Nat) : Except Error (List UInt8) := do
  let bytes ← b.sliceAt (offset / 8) (Binary.octetsFor width)
  if width % 8 = 0 then return bytes
  return bytes.modify (width / 8) (· &&& (0xFF <<< UInt8.ofNat (8 - width % 8)))

/-- Bytes of zeros in which the ones among the bits that are asked for are set. -/
def packBytes (b : Buffer) (offset width : Nat) : Except Error (List UInt8) :=
  (List.range width).foldlM
    (fun bytes i => do if ← b.lookUp (offset + i) then setBit bytes i else return bytes)
    (List.replicate (Binary.octetsFor width) 0)

/-- Bits packed into bytes, the last byte filled up with zeros. -/
def bytesAt (b : Buffer) (offset width : Nat) : Except Error (List UInt8) := do
  b.ensureRange offset width
  if offset % 8 = 0 then b.copyBytes offset width else b.packBytes offset width

/-- A natural number of any width. -/
def natAt (b : Buffer) (offset width : Nat) : Except Error Nat := do
  let bytes ← b.bytesAt offset width
  return Octets.toNat bytes >>> (8 * bytes.length - width)

/-- An integer in two's complement of any width: a one in front counts as negative. -/
def intAt (b : Buffer) (offset width : Nat) : Except Error Int := do
  let n ← b.natAt offset width
  if width = 0 then return n
  if ← b.lookUp offset then return n - (1 <<< width : Nat) else return n

/-- A part of the bits in use, as a buffer of its own. -/
def substring (b : Buffer) (offset width : Nat) : Except Error Buffer := do
  let bytes ← b.bytesAt offset width
  ofBytes bytes width

end CellBag.Buffer
