import CellBag.Error
import CellBag.Octets

/-!
# Bags of cells

A bag of cells is a table of cells in bytes. A header says how wide its numbers are and which cells
are roots; then come an optional index, one record for each cell and an optional checksum. Every
cell stands before those that it refers to.
-/

namespace CellBag.Bag

/-- What is written around the records. -/
structure Options where
  /-- whether an index of the ends of the records is written -/
  index : Bool := false
  /-- whether a checksum is written -/
  checksum : Bool := true
  /-- whether the numbers of the index have a bit to spare -/
  cacheBits : Bool := false
deriving DecidableEq

/-- What is read at most. -/
structure Limits where
  maxCells : Nat := 1048576
  maxRoots : Nat := 32
  maxTotalSize : Nat := 67108864
  maxDictionaryEntries : Nat := 262144
deriving DecidableEq

/-- The four bytes that a bag begins with. -/
def magic : Nat := 0xB5EE9C72

/-- The widest reference, in bytes. -/
def maxRefSize : Nat := 4

/-- The widest offset, in bytes. -/
def maxOffsetSize : Nat := 8

/-- The fewest bytes of a record. -/
def minRecordSize : Nat := 2

/-- The most bytes of a record: descriptors, four fingerprints, data and four references. -/
def maxRecordSize : Nat := 282

/-- The least number of bytes, but at least one, that hold a number. -/
def byteWidth (n : Nat) : Nat :=
  max 1 (Binary.octetsFor (Binary.width n))

/-- A number in a field of `size` bytes. -/
def field (size value : Nat) : Except BagFault (List UInt8) :=
  if value < 1 <<< (8 * size) then .ok (Octets.ofNat size value)
  else .error (.panic (.field value size))

/-- Numbers in fields of `size` bytes, one after the other. -/
def fields (size : Nat) (values : List Nat) : Except BagFault (List UInt8) := do
  return (← values.mapM (field size)).flatten

end CellBag.Bag
