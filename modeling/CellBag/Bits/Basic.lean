import CellBag.Error
import CellBag.Octets

/-!
# Bit strings

A bit string holds at most 1023 bits, as many as a cell. It is a list of bits; bytes are a view of
it, in which the last byte is filled up with zeros.
-/

namespace CellBag

/-- At most 1023 bits, the first one being the most significant. -/
@[ext]
structure Bits where
  toList : List Bool
  length_le : toList.length ≤ 1023
deriving DecidableEq

namespace Bits

/-- The largest number of bits. -/
def capacity : Nat := 1023

/-- No bits. -/
def empty : Bits := ⟨[], by decide⟩

instance : Inhabited Bits := ⟨empty⟩

/-- The number of bits. -/
def length (b : Bits) : Nat := b.toList.length

/-- How many more bits there is room for. -/
def available (b : Bits) : Nat := capacity - b.length

/-- Whether there are no bits. -/
def isEmpty (b : Bits) : Bool := b.toList.isEmpty

/-- The bits packed into bytes. -/
def toBytes (b : Bits) : List UInt8 := Octets.pack b.toList

/-- Bits with the completion tag: unless they fill whole bytes, a one and then zeros follow. -/
def tagged (bits : List Bool) : List Bool :=
  if bits.length % 8 = 0 then bits else bits ++ [true]

/-- The bits packed into bytes behind which a completion tag stands. -/
def toTaggedBytes (b : Bits) : List UInt8 := Octets.pack (tagged b.toList)

/-- The first `count` bits of some bytes. -/
def ofBytes (bytes : List UInt8) (count : Nat) : Except Error Bits :=
  if h : count ≤ 1023 then
    if count ≤ 8 * bytes.length then
      .ok ⟨(Octets.unpack (bytes.take (Binary.octetsFor count))).take count, by
        rw [List.length_take]; omega⟩
    else .error (.underrun .bits count (8 * bytes.length))
  else .error (.capacity .bits count capacity)

/-- All the bits of some bytes. -/
def ofWholeBytes (bytes : List UInt8) : Except Error Bits :=
  ofBytes bytes (8 * bytes.length)

/-- The number of zeros at the end of a list of bits. -/
def trailingZeros (bits : List Bool) : Nat :=
  (bits.reverse.takeWhile (!·)).length

/-- The bits of bytes that end with a completion tag, which is dropped. -/
def ofTaggedBytes (bytes : List UInt8) : Except Error Bits :=
  match bytes.getLast? with
  | none => .ok empty
  | some last =>
    if last = 0 then .error (.encoding .missingTag)
    else ofBytes bytes (8 * bytes.length - trailingZeros (Binary.ofNat 8 last.toNat) - 1)

end Bits

end CellBag
