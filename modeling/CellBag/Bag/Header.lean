import CellBag.Bag.Scan

/-!
# Headers

The header of a bag: what it begins with, the flags and the sizes of its numbers, the counts, the
size of the records and the roots.
-/

namespace CellBag.Bag

/-- What the header of a bag says. -/
structure Header where
  options : Options
  refSize : Nat
  offsetSize : Nat
  cellCount : Nat
  totalSize : Nat
  roots : List Nat

namespace Header

/-- The flags and the size of references in one byte. -/
def flags (o : Options) (refSize : Nat) : UInt8 :=
  UInt8.ofNat ((if o.index then 128 else 0) + (if o.checksum then 64 else 0) +
    (if o.cacheBits then 32 else 0) + refSize)

/-- The bytes of a header. -/
def bytes (h : Header) : Except BagFault (List UInt8) := do
  let counts ← fields h.refSize [h.cellCount, h.roots.length, 0]
  let total ← field h.offsetSize h.totalSize
  let roots ← fields h.refSize h.roots
  return Octets.ofNat 4 magic ++ [flags h.options h.refSize, UInt8.ofNat h.offsetSize] ++ counts ++
    total ++ roots

/-- How many bytes follow a header at least: the index, the records and the checksum. -/
def required (h : Header) : Nat :=
  (if h.options.index then h.cellCount * h.offsetSize else 0) + h.totalSize +
    (if h.options.checksum then 4 else 0)

/-- Reads the flags and the size of references. -/
def scanFlags : Scan (Options × Nat) := do
  let byte := (← Scan.byte).toNat
  let options : Options := ⟨byte.testBit 7, byte.testBit 6, byte.testBit 5⟩
  if byte.testBit 4 ∨ byte.testBit 3 then throw .reservedFlags
  if options.cacheBits ∧ ¬ options.index then throw .cacheWithoutIndex
  let refSize := byte % 8
  if refSize = 0 ∨ maxRefSize < refSize then throw (.invalidRefSize refSize)
  return (options, refSize)

/-- Reads the indexes of the roots. -/
def scanRoots (refSize cellCount : Nat) : (count : Nat) → Scan (List Nat)
  | 0 => return []
  | count + 1 => do
    let root ← Scan.nat refSize
    if cellCount ≤ root then throw (.rootOutOfBounds root)
    return root :: (← scanRoots refSize cellCount count)

/-- Reads a header. -/
def scan (limits : Limits) : Scan Header := do
  let found ← Scan.nat 4
  if found ≠ magic then throw (.unknownMagic found)
  let (options, refSize) ← scanFlags
  let offsetSize := (← Scan.byte).toNat
  if offsetSize = 0 ∨ maxOffsetSize < offsetSize then throw (.invalidOffsetSize offsetSize)
  let cellCount ← Scan.nat refSize
  let rootCount ← Scan.nat refSize
  let absentCount ← Scan.nat refSize
  let totalSize ← Scan.nat offsetSize
  if limits.maxCells < cellCount then throw (.tooManyCells cellCount limits.maxCells)
  if rootCount = 0 ∨ limits.maxRoots < rootCount ∨ cellCount < rootCount then
    throw (.invalidRootCount rootCount (min limits.maxRoots cellCount))
  if 0 < absentCount then throw .absentCells
  if totalSize < cellCount * minRecordSize ∨ cellCount * maxRecordSize < totalSize ∨
      limits.maxTotalSize < totalSize then
    throw (.invalidTotalSize totalSize)
  let roots ← scanRoots refSize cellCount rootCount
  return ⟨options, refSize, offsetSize, cellCount, totalSize, roots⟩

end Header

end CellBag.Bag
