import CellBag.Bag.Header
import CellBag.Bag.Table
import CellBag.Checksum.Crc32

/-!
# Writing bags

Every cell below the roots is written once. References are as narrow as the number of cells allows,
and offsets as narrow as the size of the records.
-/

namespace CellBag.Bag

/-- The ends of some records, counted from the start of the first one. -/
def endOffsets : (start : Nat) → List (List UInt8) → List Nat
  | _, [] => []
  | start, chunk :: chunks => (start + chunk.length) :: endOffsets (start + chunk.length) chunks

/-- A number of the index, with a bit to spare if there are cache bits. -/
def indexEntry (o : Options) (offset : Nat) : Nat :=
  if o.cacheBits then 2 * offset else offset

/-- The bytes of an index of records, if there is one. -/
def indexBytes (o : Options) (offsetSize : Nat) (chunks : List (List UInt8)) :
    Except BagFault (List UInt8) :=
  if o.index then fields offsetSize ((endOffsets 0 chunks).map (indexEntry o)) else .ok []

/-- The checksum of bytes as four bytes, the least significant first. -/
def checksumBytes (bytes : List UInt8) : List UInt8 :=
  (Octets.ofNat 4 (Crc32.checksum bytes).toNat).reverse

/-- The bag of the cells below some roots. -/
def encode (roots : List Cell) (o : Options) : Except BagFault (List UInt8) := do
  if o.cacheBits ∧ ¬ o.index then throw .cacheWithoutIndex
  if roots.isEmpty then throw (.invalidRootCount 0 0)
  let cells := Table.ofRoots roots
  let positions := Table.positions cells
  let refSize := byteWidth cells.length
  if maxRefSize < refSize then throw .tooLarge
  let records ← cells.mapM (Table.record positions)
  let chunks ← records.mapM (Record.bytes refSize)
  let data := chunks.flatten
  let offsetSize := byteWidth (indexEntry o data.length)
  let rootIndexes ← roots.mapM (Table.find positions)
  let header ← Header.bytes ⟨o, refSize, offsetSize, cells.length, data.length, rootIndexes⟩
  let index ← indexBytes o offsetSize chunks
  let body := header ++ index ++ data
  return if o.checksum then body ++ checksumBytes body else body

end CellBag.Bag
