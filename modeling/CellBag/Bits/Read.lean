import CellBag.Bits.Basic

/-!
# Reading bits

Positional readers: each takes an offset and a width, and fails when fewer bits than that stand
behind the offset. Words are read bit by bit, other numbers from bytes.
-/

namespace CellBag.Bits

/-- Fails unless `count` bits stand behind an offset. -/
def ensureReadable (b : Bits) (offset count : Nat) : Except Error Unit :=
  if count ≤ b.length - offset then .ok ()
  else .error (.underrun .bits count (b.length - offset))

/-- The `count` bits behind an offset. -/
def range (b : Bits) (offset count : Nat) : List Bool :=
  (b.toList.drop offset).take count

/-- The bit at an offset. -/
def bitAt (b : Bits) (offset : Nat) : Except Error Bool :=
  match b.toList[offset]? with
  | some bit => .ok bit
  | none => .error (.underrun .bits 1 0)

/-- A word with one more bit at its low end. -/
def pushBit {w : Nat} (word : BitVec w) (bit : Bool) : BitVec w :=
  (word <<< 1) ||| (BitVec.ofBool bit).setWidth w

/-- An unsigned word of at most `w` bits. -/
def wordAt (b : Bits) (w offset width : Nat) : Except Error (BitVec w) :=
  if w < width then .error (.intOverflow w)
  else do
    b.ensureReadable offset width
    return (b.range offset width).foldl pushBit 0

/-- A word whose bits from `width` on are copies of the one before them. -/
def extendSign {w : Nat} (word : BitVec w) (width : Nat) : BitVec w :=
  if width = 0 ∨ width = w then word
  else if word.getLsbD (width - 1) then word ||| (BitVec.allOnes w <<< width)
  else word

/-- A signed word of at most `w` bits. -/
def signedWordAt (b : Bits) (w offset width : Nat) : Except Error (BitVec w) := do
  let word ← b.wordAt w offset width
  return extendSign word width

/-- Bits packed into bytes, the last byte filled up with zeros. A copy that begins at a whole byte
has to begin within the bytes, even when it is empty: otherwise it panics. -/
def bytesAt (b : Bits) (offset width : Nat) : Except Error (List UInt8) := do
  b.ensureReadable offset width
  if offset % 8 = 0 ∧ b.toBytes.length < offset / 8 then
    throw (.panic (.range (offset / 8) (offset / 8 + Binary.octetsFor width) b.toBytes.length))
  return Octets.pack (b.range offset width)

/-- A natural number of any width. -/
def natAt (b : Bits) (offset width : Nat) : Except Error Nat := do
  let bytes ← b.bytesAt offset width
  return Octets.toNat bytes >>> (8 * bytes.length - width)

/-- An integer in two's complement of any width. -/
def intAt (b : Bits) (offset width : Nat) : Except Error Int := do
  return (BitVec.ofNat width (← b.natAt offset width)).toInt

/-- A part of a bit string. -/
def substring (b : Bits) (offset width : Nat) : Except Error Bits := do
  let bytes ← b.bytesAt offset width
  ofBytes bytes width

/-- The bit that all bits of a range are equal to, if there is one and the range holds bits. -/
def uniformAt (b : Bits) (offset width : Nat) : Option Bool :=
  if width ≤ b.length - offset then
    match b.range offset width with
    | [] => none
    | first :: rest => if rest.all (· == first) then some first else none
  else none

end CellBag.Bits
