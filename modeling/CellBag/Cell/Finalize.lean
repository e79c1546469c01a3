import CellBag.Cell.Exotic

/-!
# Finalizing cells

`Cell.finalize` checks the parts of a cell and computes its fingerprints. The hash at a level is the
digest of a message: two descriptor bytes, a body, the depths of the references and their hashes.
The body is the data of the cell at the lowest level, and the hash below at each higher one.
-/

namespace CellBag

namespace Cell

/-- The descriptor byte for a number of bits: how many bytes they fill, rounded down and up. -/
def lengthDescriptor (bits : Bits) : UInt8 :=
  UInt8.ofNat (bits.length / 8 + Binary.octetsFor bits.length)

/-- The descriptor byte for a number of references, exotic cells and a level mask. -/
def refsDescriptor (count : Nat) (exotic : Bool) (mask : LevelMask) : UInt8 :=
  UInt8.ofNat (count + (if exotic then 8 else 0) + 32 * mask.toByte.toNat)

/-- The two descriptor bytes of a cell. -/
def descriptors (c : Cell) : List UInt8 :=
  [refsDescriptor c.refs.length c.isExotic c.mask, lengthDescriptor c.bits]

/-- The message whose digest is the hash at a level, over the hash below if there is one. -/
def message (kind : Kind) (bits : Bits) (refs : List Cell) (mask : LevelMask)
    (below : Option Digest) (level : Nat) : List UInt8 :=
  let body := match below with
    | some hash => hash.bytes
    | none => bits.toTaggedBytes
  let childLevel := level + kind.levelOffset
  [refsDescriptor refs.length kind.isExotic (mask.apply level), lengthDescriptor bits] ++ body ++
    refs.flatMap (fun c => Octets.ofNat 2 (c.depthAt childLevel).toNat) ++
    refs.flatMap fun c => (c.hashAt childLevel).bytes

/-- A depth that is at least `depth` and above that of a reference. -/
def deepen (depth child : UInt16) : Except Error UInt16 :=
  if child = 65535 then .error .depthOverflow else .ok (max depth (child + 1))

/-- The depth of a cell over these references at a level of theirs. -/
def depthOver (refs : List Cell) (level : Nat) : Except Error UInt16 :=
  refs.foldlM (fun depth c => deepen depth (c.depthAt level)) 0

/-- The levels at which a cell has a fingerprint of its own: those that are significant, and only
the highest one for a pruned branch. -/
def ownLevels (kind : Kind) (mask : LevelMask) : List Nat :=
  if kind.isPruned then [mask.topLevel]
  else (List.range (mask.topLevel + 1)).filter mask.isSignificant

/-- The fingerprints at some levels, from the lowest up, over the hash below them. -/
def fingerprintsAt (kind : Kind) (bits : Bits) (refs : List Cell) (mask : LevelMask) :
    (levels : List Nat) → (below : Option Digest) → Except Error (List Fingerprint)
  | [], _ => return []
  | level :: levels, below => do
    let depth ← depthOver refs (level + kind.levelOffset)
    let hash := Digest.of (message kind bits refs mask below level)
    let rest ← fingerprintsAt kind bits refs mask levels (some hash)
    return ⟨hash, depth⟩ :: rest

/-- The level mask of a cell: its own for a pruned branch, none for a library, and what its
references have otherwise, moved down by a Merkle cell. -/
def maskOver (kind : Kind) (refs : List Cell) : LevelMask :=
  let below := refs.foldl (fun mask c => mask.union c.mask) LevelMask.empty
  match kind with
  | .ordinary => below
  | .pruned mask _ => mask
  | .library _ => LevelMask.empty
  | .merkleProof _ | .merkleUpdate _ _ => below.virtualize 1

/-- A cell with these bits and references, if they are right. -/
def finalize (bits : Bits) (refs : List Cell) (exotic : Bool) : Except Error Cell := do
  if maxRefs < refs.length then throw (.capacity .refs refs.length maxRefs)
  let kind ← if exotic then Kind.parse bits refs else pure .ordinary
  let mask := maskOver kind refs
  let own ← fingerprintsAt kind bits refs mask (ownLevels kind mask) none
  return mk kind bits refs mask own

end Cell

end CellBag
