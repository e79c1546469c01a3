import CellBag.Arithmetic
import CellBag.Bits.Basic
import CellBag.Text.Blank

/-!
# Writing bits

Each write appends the bits of one value, or fails and says why. A number that does not fit its
width is reported before a lack of room. Room is asked for before the bits are spelled out, so that
an absurd width costs nothing: a write is planned first (`Bits.Plan`), and its bits are made when
there is room for them.
-/

namespace CellBag.Bits

/-- Fails unless there is room for `count` more bits. -/
def ensure (b : Bits) (count : Nat) : Except Error Unit :=
  if count ≤ b.available then .ok () else .error (.capacity .bits count b.available)

/-- Appends bits. -/
def append (b : Bits) (bits : List Bool) : Except Error Bits :=
  if h : bits.length ≤ b.available then
    .ok ⟨b.toList ++ bits, by
      have := b.length_le
      simp only [available, capacity, length] at h
      rw [List.length_append]; omega⟩
  else .error (.capacity .bits bits.length b.available)

/-- The `count` low bits of a word, each one shifted down to the lowest place. -/
def lowBits (word : BitVec 64) (count : Nat) : List Bool :=
  (List.range count).reverse.map fun i => (word >>> i) &&& 1 == 1

/-- Whether a signed word can be written in `width` bits: it is between the two bounds of the width,
which are words themselves if the width is below 64. -/
def fitsSigned (value : BitVec 64) : (width : Nat) → Bool
  | 0 => value == 0
  | width + 1 =>
    if width + 1 < 64 then
      let bound := (1 : BitVec 64) <<< width
      (-bound).sle value && value.slt bound
    else true

/-- Whether an integer can be written in `width` bits: beside those of its magnitude there is one
left for its sign. -/
def fitsInt (i : Int) : (width : Nat) → Bool
  | 0 => i = 0
  | width + 1 => Binary.width (Binary.magnitude i) ≤ width

/-- The largest width of an amount of coins. -/
def coinsWidth : Nat := 120

/-- What a write is going to append, and for how many bits it asks. -/
structure Plan where
  room : Nat
  bits : Unit → List Bool

/-- Appends what is planned if there is room. -/
def follow (b : Bits) (plan : Except Error Plan) : Except Error Bits := do
  let p ← plan
  b.ensure p.room
  b.append (p.bits ())

/-- Appends one bit. -/
def writeBit (b : Bits) (bit : Bool) : Except Error Bits :=
  b.append [bit]

/-- Appends another bit string. -/
def writeAll (b other : Bits) : Except Error Bits :=
  b.append other.toList

namespace Plan

/-- Given bits. -/
def ofBits (bits : List Bool) : Plan := ⟨bits.length, fun _ => bits⟩

/-- A bit `count` times. -/
def repeated (bit : Bool) (count : Nat) : Plan := ⟨count, fun _ => List.replicate count bit⟩

/-- The bits of some bytes from bit `start` to bit `stop`, for a write of `count` bits. -/
def range (source : List UInt8) (start stop count : Nat) : Except Error Plan :=
  if stop ≤ 8 * source.length then
    .ok ⟨count, fun _ => ((Octets.unpack source).drop start).take (stop - start)⟩
  else .error (.underrun .bits count (8 * source.length - start))

/-- The `count` bits of some bytes behind bit `offset`. -/
def part (arith : Arithmetic) (source : List UInt8) (offset count : Nat) : Except Error Plan := do
  let stop ← arith.size (offset + count)
  range source offset stop count

/-- An unsigned word of 64 bits in `width` bits: in front of it there are zeros if it is
narrower. -/
def word (value : BitVec 64) (width : Nat) : Except Error Plan :=
  if width < 64 ∧ value >>> width ≠ 0 then .error (.intOverflow width)
  else
    .ok ⟨width, fun _ =>
      if 64 < width then List.replicate (width - 64) false ++ lowBits value 64
      else lowBits value width⟩

/-- An unsigned word of 128 bits in `width` bits: there are only zeros above its bits. -/
def wide (value : BitVec 128) (width : Nat) : Except Error Plan :=
  if width < 128 ∧ value >>> width ≠ 0 then .error (.intOverflow width)
  else
    .ok ⟨width, fun _ =>
      (List.range width).reverse.map fun i => decide (i < 128) && (value >>> i) &&& 1 == 1⟩

/-- A signed word of 64 bits in `width` bits: in front of it there are copies of its sign if it is
narrower. -/
def signedWord (value : BitVec 64) (width : Nat) : Except Error Plan :=
  if fitsSigned value width then
    .ok ⟨width, fun _ =>
      if 64 < width then List.replicate (width - 64) (value.slt 0) ++ lowBits value 64
      else lowBits value width⟩
  else .error (.intOverflow width)

/-- A natural number in `width` bits: zeros, and then as many bits as it takes. -/
def nat (n width : Nat) : Except Error Plan :=
  let size := Binary.width n
  if width < size then .error (.intOverflow width)
  else
    .ok ⟨width, fun _ =>
      List.replicate (width - size) false ++ (List.range size).reverse.map n.testBit⟩

/-- An integer in `width` bits: the power of two of the width is added to a negative one, and makes
a natural number of it. -/
def int (i : Int) (width : Nat) : Except Error Plan :=
  if fitsInt i width then
    nat (if i < 0 then ((1 <<< width : Nat) + i).natAbs else i.natAbs) width
  else .error (.intOverflow width)

/-- An amount of coins: the number of its bytes in four bits, and these bytes. -/
def coins (amount : BitVec 128) : Except Error Plan :=
  let size := Binary.octetsFor (Binary.width amount.toNat)
  if coinsWidth < 8 * size then .error (.intOverflow coinsWidth)
  else
    .ok ⟨4 + 8 * size, fun _ => Binary.ofNat 4 size ++ Binary.ofNat (8 * size) amount.toNat⟩

end Plan

/-- Appends a bit `count` times. -/
def writeRepeated (b : Bits) (bit : Bool) (count : Nat) : Except Error Bits :=
  b.follow (.ok (.repeated bit count))

/-- Appends `count` bits of some bytes, beginning at bit `offset`. -/
def writeFrom (b : Bits) (arith : Arithmetic) (source : List UInt8) (offset count : Nat) :
    Except Error Bits :=
  b.follow (Plan.part arith source offset count)

/-- Appends the first `count` bits of some bytes. -/
def writeBits (b : Bits) (source : List UInt8) (count : Nat) : Except Error Bits :=
  b.follow (Plan.range source 0 count count)

/-- Appends bytes. -/
def writeBytes (b : Bits) (bytes : List UInt8) : Except Error Bits :=
  b.writeBits bytes (8 * bytes.length)

/-- Appends text in UTF-8. -/
def writeText (b : Bits) (text : String) : Except Error Bits :=
  b.writeBytes (Text.utf8 text)

/-- Appends an unsigned word of 64 bits. -/
def writeWord (b : Bits) (word : BitVec 64) (width : Nat) : Except Error Bits :=
  b.follow (Plan.word word width)

/-- Appends an unsigned word of 128 bits. -/
def writeWide (b : Bits) (word : BitVec 128) (width : Nat) : Except Error Bits :=
  b.follow (Plan.wide word width)

/-- Appends a signed word of 64 bits. -/
def writeSignedWord (b : Bits) (word : BitVec 64) (width : Nat) : Except Error Bits :=
  b.follow (Plan.signedWord word width)

/-- Appends a natural number. -/
def writeNat (b : Bits) (n width : Nat) : Except Error Bits :=
  b.follow (Plan.nat n width)

/-- Appends an integer in two's complement. -/
def writeInt (b : Bits) (i : Int) (width : Nat) : Except Error Bits :=
  b.follow (Plan.int i width)

/-- Appends an amount of coins. -/
def writeCoins (b : Bits) (amount : BitVec 128) : Except Error Bits :=
  b.follow (Plan.coins amount)

end CellBag.Bits
