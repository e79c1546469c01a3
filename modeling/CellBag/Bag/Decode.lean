import CellBag.Bag.Encode

/-!
# Reading bags

A bag is read from its front: the header, the index, the records and the checksum. Then cells are
made of the records, from the last one to the first, so that references are always there already.
-/

namespace CellBag.Bag

/-- Reads `count` records from an index on, and checks their ends against those that an index gives.
-/
def scanRecords (refSize start : Nat) :
    (count index : Nat) → (ends : Option (List Nat)) → Scan (List Record)
  | 0, _, _ => return []
  | count + 1, index, ends => do
    let record ← Record.scan refSize index
    match ends with
    | some (stored :: later) =>
      if stored ≠ (← Scan.position) - start then throw (.invalidCell index .indexOffset)
      return record :: (← scanRecords refSize start count (index + 1) (some later))
    | _ => return record :: (← scanRecords refSize start count (index + 1) none)

/-- Reads a checksum and compares it with that of the bytes before it. -/
def scanChecksum (data : List UInt8) : Scan Unit := do
  let computed := Crc32.checksum (data.take (← Scan.position))
  let stored := UInt32.ofNat (Octets.toNat (← Scan.bytes 4).reverse)
  if stored ≠ computed then throw (.invalidChecksum stored computed)

/-- Reads an index: the ends of the records, without cache bits. -/
def scanIndex (h : Header) : Scan (Option (List Nat)) := do
  if h.options.index then
    let entries ← Scan.nats h.offsetSize h.cellCount
    return some (entries.map fun n => if h.options.cacheBits then n / 2 else n)
  else return none

/-- Reads a whole bag: the indexes of its roots, and its records. -/
def scan (data : List UInt8) (limits : Limits) : Scan (List Nat × List Record) := do
  let header ← Header.scan limits
  Scan.ensure header.required
  let ends ← scanIndex header
  let start ← Scan.position
  let records ← scanRecords header.refSize start header.cellCount 0 ends
  if (← Scan.position) - start ≠ header.totalSize then throw (.invalidTotalSize header.totalSize)
  if header.options.checksum then scanChecksum data
  Scan.finish
  return (header.roots, records)

/-- The cells that are the roots of a bag. -/
def decode (data : List UInt8) (limits : Limits) : Except BagFault (List Cell) := do
  let ((roots, records), _) ← (scan data limits).run ⟨data, 0⟩
  let cells ← Table.cells records
  roots.mapM fun index =>
    match (if index < cells.size then cells[cells.size - 1 - index]? else none) with
    | some c => .ok c
    | none => .error (.rootOutOfBounds index)

/-- The only root of a bag. -/
def decodeOne (data : List UInt8) (limits : Limits) : Except BagFault Cell := do
  match ← decode data limits with
  | [root] => return root
  | roots => throw (.invalidRootCount roots.length 1)

end CellBag.Bag
