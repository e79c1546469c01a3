import CellBag.Cell.Finalize

/-!
# Looking up fingerprints

A level mask says at which index the fingerprint for a level is stored. Here no index is taken to be
within the list that it points into: a lookup may find nothing, and a computation that looks
something up in vain has no outcome. Cells are finalized in the same way as without these checks.
-/

namespace CellBag.Cell

/-- The fingerprint of the cell at a level, if there is one at the index that answers for it. -/
def fingerprint? (c : Cell) (level : Nat) : Option Fingerprint :=
  match c.kind with
  | .pruned _ stored =>
    if c.mask.hashIndex level < stored.length then stored[c.mask.hashIndex level]? else c.own[0]?
  | _ => c.own[c.mask.hashIndex level]?

/-- A computation that looks fingerprints up. It has no outcome, not even an error, when one of them
is not there. -/
abbrev Lookup := ExceptT Error Option

/-- A computation that looks nothing up. -/
def Lookup.of {α : Type} (x : Except Error α) : Lookup α := ExceptT.mk (some x)

/-- Looks the fingerprint of a cell at a level up. -/
def lookUp (c : Cell) (level : Nat) : Lookup Fingerprint := ExceptT.lift (c.fingerprint? level)

/-- A part of the fingerprint of each of these cells at a level. -/
def lookUpAll {α : Type} (cells : List Cell) (level : Nat) (part : Fingerprint → α) :
    Lookup (List α) :=
  cells.mapM fun c => return part (← c.lookUp level)

/-- The depth of a cell over these references at a level of theirs. -/
def depthOver? (refs : List Cell) (level : Nat) : Lookup UInt16 :=
  refs.foldlM (fun depth c => do Lookup.of (deepen depth (← c.lookUp level).depth)) 0

/-- The message whose digest is the hash at a level, over the hash below if there is one. -/
def message? (kind : Kind) (bits : Bits) (refs : List Cell) (mask : LevelMask)
    (below : Option Digest) (level : Nat) : Lookup (List UInt8) := do
  let body := match below with
    | some hash => hash.bytes
    | none => bits.toTaggedBytes
  let childLevel := level + kind.levelOffset
  let depths ← lookUpAll refs childLevel fun f => Octets.ofNat 2 f.depth.toNat
  let hashes ← lookUpAll refs childLevel fun f => f.hash.bytes
  return [refsDescriptor refs.length kind.isExotic (mask.apply level), lengthDescriptor bits] ++
    body ++ depths.flatten ++ hashes.flatten

/-- The fingerprints at some levels, from the lowest up, over the hash below them. -/
def fingerprintsAt? (kind : Kind) (bits : Bits) (refs : List Cell) (mask : LevelMask) :
    (levels : List Nat) → (below : Option Digest) → Lookup (List Fingerprint)
  | [], _ => return []
  | level :: levels, below => do
    let depth ← depthOver? refs (level + kind.levelOffset)
    let hash := Digest.of (← message? kind bits refs mask below level)
    let rest ← fingerprintsAt? kind bits refs mask levels (some hash)
    return ⟨hash, depth⟩ :: rest

/-- A cell with these bits and references, if they are right. An exotic cell is compared with its
references at level zero. -/
def finalize? (bits : Bits) (refs : List Cell) (exotic : Bool) : Lookup Cell := do
  if maxRefs < refs.length then throw (.capacity .refs refs.length maxRefs)
  if exotic then discard (lookUpAll refs 0 id)
  let kind ← Lookup.of (if exotic then Kind.parse bits refs else pure .ordinary)
  let mask := maskOver kind refs
  let own ← fingerprintsAt? kind bits refs mask (ownLevels kind mask) none
  return mk kind bits refs mask own

end CellBag.Cell
