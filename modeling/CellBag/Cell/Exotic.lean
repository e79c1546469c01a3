import CellBag.Bits.Read
import CellBag.Cell.Basic

/-!
# Layouts of exotic cells

The bits of an exotic cell begin with a byte for its type. Fixed fields follow, and a Merkle cell
has to agree with its references at level zero.
-/

namespace CellBag

namespace Fingerprint

/-- The bits of a depth. -/
def depthBits (f : Fingerprint) : List Bool :=
  Binary.ofNat 16 f.depth.toNat

end Fingerprint

namespace Kind

/-- The type byte of an exotic cell. -/
def typeByte : Kind → Nat
  | .ordinary => 0
  | .pruned _ _ => 1
  | .library _ => 2
  | .merkleProof _ => 3
  | .merkleUpdate _ _ => 4

/-- The bits of an exotic cell of this kind: its type, then its fields, hashes before depths. -/
def layout (k : Kind) : List Bool :=
  let fields := match k with
    | .ordinary => []
    | .pruned mask stored =>
      Binary.ofNat 8 mask.toByte.toNat ++ stored.flatMap (·.hash.bits) ++
        stored.flatMap Fingerprint.depthBits
    | .library hash => hash.bits
    | .merkleProof root => root.hash.bits ++ root.depthBits
    | .merkleUpdate old new =>
      old.hash.bits ++ new.hash.bits ++ old.depthBits ++ new.depthBits
  Binary.ofNat 8 k.typeByte ++ fields

/-- The digest at an offset. -/
def readHash (bits : Bits) (offset : Nat) : Except Error Digest := do
  let bytes ← bits.bytesAt offset 256
  match Digest.ofBytes? bytes with
  | some digest => return digest
  | none => throw (.underrun .bits 256 (8 * bytes.length))

/-- The depth at an offset. -/
def readDepth (bits : Bits) (offset : Nat) : Except Error UInt16 := do
  return ⟨← bits.wordAt 16 offset 16⟩

/-- The fingerprints whose hashes and depths begin at two offsets. -/
def readStored (bits : Bits) (hashes depths : Nat) : (count : Nat) → Except Error (List Fingerprint)
  | 0 => return []
  | count + 1 => do
    let hash ← readHash bits hashes
    let depth ← readDepth bits depths
    let rest ← readStored bits (hashes + 256) (depths + 16) count
    return ⟨hash, depth⟩ :: rest

/-- The kind of a pruned branch with these bits and references. -/
def parsePruned (bits : Bits) (refs : List Cell) : Except Error Kind := do
  let byte : UInt8 := ⟨← bits.wordAt 8 8 8⟩
  let mask := LevelMask.ofByte byte
  if mask.level = 0 ∨ byte ≠ mask.toByte then throw (.exotic .prunedMask)
  if bits.length ≠ 16 + 272 * mask.level ∨ ¬ refs.isEmpty then throw (.exotic .prunedLayout)
  return .pruned mask (← readStored bits 16 (16 + 256 * mask.level) mask.level)

/-- The kind of a library reference with these bits and references. -/
def parseLibrary (bits : Bits) (refs : List Cell) : Except Error Kind := do
  if bits.length ≠ 264 ∨ ¬ refs.isEmpty then throw (.exotic .libraryLayout)
  return .library (← readHash bits 8)

/-- The kind of a Merkle proof with these bits and references. -/
def parseProof (bits : Bits) (refs : List Cell) : Except Error Kind :=
  match refs with
  | [root] => do
    if bits.length ≠ 280 then throw (.exotic .proofLayout)
    let stored : Fingerprint := ⟨← readHash bits 8, ← readDepth bits 264⟩
    if root.fingerprint 0 ≠ stored then throw (.exotic .proofMismatch)
    return .merkleProof stored
  | _ => throw (.exotic .proofLayout)

/-- The kind of a Merkle update with these bits and references. -/
def parseUpdate (bits : Bits) (refs : List Cell) : Except Error Kind :=
  match refs with
  | [old, new] => do
    if bits.length ≠ 552 then throw (.exotic .updateLayout)
    let storedOld : Fingerprint := ⟨← readHash bits 8, ← readDepth bits 520⟩
    let storedNew : Fingerprint := ⟨← readHash bits 264, ← readDepth bits 536⟩
    if old.fingerprint 0 ≠ storedOld ∨ new.fingerprint 0 ≠ storedNew then
      throw (.exotic .updateMismatch)
    return .merkleUpdate storedOld storedNew
  | _ => throw (.exotic .updateLayout)

/-- The kind of an exotic cell with these bits and references. -/
def parse (bits : Bits) (refs : List Cell) : Except Error Kind := do
  if bits.length < 8 then throw (.exotic .missingType)
  let type ← bits.wordAt 8 0 8
  match type.toNat with
  | 1 => parsePruned bits refs
  | 2 => parseLibrary bits refs
  | 3 => parseProof bits refs
  | 4 => parseUpdate bits refs
  | _ => throw (.exotic .unknownType)

end Kind

end CellBag
