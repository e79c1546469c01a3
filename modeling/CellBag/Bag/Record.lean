import CellBag.Bag.Scan
import CellBag.Cell.Finalize

/-!
# Records

The record of a cell: two descriptor bytes, its data behind which a completion tag stands, and the
indexes of the cells that it refers to. A record can also repeat the fingerprints of the cell, which
are skipped.
-/

namespace CellBag.Bag

/-- A cell whose references are indexes. -/
structure Record where
  bits : Bits
  exotic : Bool
  mask : LevelMask
  refs : List Nat
deriving DecidableEq

namespace Record

/-- The two descriptor bytes of a record. -/
def descriptors (r : Record) : List UInt8 :=
  [Cell.refsDescriptor r.refs.length r.exotic r.mask, Cell.lengthDescriptor r.bits]

/-- The bytes of a record with references of `refSize` bytes. -/
def bytes (refSize : Nat) (r : Record) : Except BagFault (List UInt8) := do
  return r.descriptors ++ r.bits.toTaggedBytes ++ (← fields refSize r.refs)

/-- The bits of the data of a record, of which the second descriptor says whether it is tagged. -/
def readData (index : Nat) (data : List UInt8) (tagged : Bool) : Except BagFault Bits :=
  if tagged ∧ data.getLastD 0 &&& 0x7F = 0 then .error (.invalidCell index .missingTag)
  else
    match (if tagged then Bits.ofTaggedBytes data else Bits.ofWholeBytes data) with
    | .ok bits => .ok bits
    | .error _ => .error (.invalidCell index .data)

/-- The size of a fingerprint in a record. -/
def fingerprintSize : Nat := 34

/-- Skips the fingerprints that a record repeats, unless they are those of a pruned branch. -/
def skipStored (index refCount : Nat) (exotic : Bool) (mask : LevelMask) : Scan Unit := do
  if exotic ∧ refCount = 0 ∧ 0 < mask.level then throw (.invalidCell index .prunedHashes)
  let _ ← Scan.bytes (fingerprintSize * (mask.level + 1))

/-- Reads the data and the references of a record, which its descriptors announce. -/
def scanBody (refSize index refCount second : Nat) (exotic : Bool) (mask : LevelMask) :
    Scan Record := do
  let data ← Scan.bytes ((second + 1) / 2)
  let bits ← readData index data (second % 2 = 1)
  let refs ← Scan.nats refSize refCount
  return ⟨bits, exotic, mask, refs⟩

/-- Reads the record of the cell at an index, with references of `refSize` bytes. -/
def scan (refSize index : Nat) : Scan Record := do
  let first := (← Scan.byte).toNat
  let second := (← Scan.byte).toNat
  let refCount := first % 8
  let exotic := first.testBit 3
  let mask := LevelMask.ofByte (UInt8.ofNat (first / 32))
  if refCount = 7 then throw .absentCells
  if Cell.maxRefs < refCount then throw (.invalidCell index .manyRefs)
  if first.testBit 4 then skipStored index refCount exotic mask
  scanBody refSize index refCount second exotic mask

end Record

end CellBag.Bag
