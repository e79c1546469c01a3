import CellBag.Bits.Basic
import CellBag.Digest
import CellBag.LevelMask

/-!
# Cells

A cell holds bits and references to at most four other cells. It keeps what is computed when it is
made: its kind, its level mask and a fingerprint, that is a hash and a depth, for each level at
which they differ. Cells are made by `Cell.finalize` alone.
-/

namespace CellBag

/-- The hash of a cell at some level, and the length of the longest path of references there. -/
@[ext]
structure Fingerprint where
  hash : Digest
  depth : UInt16
deriving DecidableEq, Inhabited

/-- What a cell stands for, with the data that exotic cells embed. -/
inductive Kind where
  | ordinary
  /-- stands in for a subtree, of which it keeps the fingerprints at lower levels -/
  | pruned (mask : LevelMask) (stored : List Fingerprint)
  /-- refers to a library cell by its hash -/
  | library (hash : Digest)
  | merkleProof (root : Fingerprint)
  | merkleUpdate (old new : Fingerprint)
deriving DecidableEq, Inhabited

namespace Kind

/-- Whether a cell of this kind is exotic. -/
def isExotic : Kind → Bool
  | .ordinary => false
  | _ => true

/-- Whether a cell of this kind is a Merkle proof or a Merkle update. -/
def isMerkle : Kind → Bool
  | .merkleProof _ | .merkleUpdate _ _ => true
  | _ => false

/-- Whether a cell of this kind is a pruned branch. -/
def isPruned : Kind → Bool
  | .pruned _ _ => true
  | _ => false

/-- How many levels higher a cell of this kind looks at its references. -/
def levelOffset (k : Kind) : Nat :=
  if k.isMerkle then 1 else 0

end Kind

/-- A tree of cells. -/
inductive Cell where
  | mk (kind : Kind) (bits : Bits) (refs : List Cell) (mask : LevelMask) (own : List Fingerprint)
deriving Inhabited

namespace Cell

/-- The largest number of references. -/
def maxRefs : Nat := 4

/-- The highest level. -/
def maxLevel : Nat := 3

/-- What the cell stands for. -/
def kind : Cell → Kind
  | mk kind _ _ _ _ => kind

/-- The data of the cell. -/
def bits : Cell → Bits
  | mk _ bits _ _ _ => bits

/-- The cells that the cell refers to. -/
def refs : Cell → List Cell
  | mk _ _ refs _ _ => refs

/-- The levels at which the cell has a hash of its own. -/
def mask : Cell → LevelMask
  | mk _ _ _ mask _ => mask

/-- The fingerprints that were computed for the cell, from the lowest level up. -/
def own : Cell → List Fingerprint
  | mk _ _ _ _ own => own

/-- Whether the cell is exotic. -/
def isExotic (c : Cell) : Bool := c.kind.isExotic

/-- The level of the cell: the number of levels in its mask. -/
def level (c : Cell) : Nat := c.mask.level

/-- The fingerprint of the cell at a level. A pruned branch answers for the lower levels with what
it has stored, and with its own fingerprint otherwise. -/
def fingerprint (c : Cell) (level : Nat) : Fingerprint :=
  match c.kind with
  | .pruned _ stored => stored.getD (c.mask.hashIndex level) (c.own.getD 0 default)
  | _ => c.own.getD (c.mask.hashIndex level) default

/-- The hash of the cell at a level. -/
def hashAt (c : Cell) (level : Nat) : Digest := (c.fingerprint level).hash

/-- The depth of the cell at a level. -/
def depthAt (c : Cell) (level : Nat) : UInt16 := (c.fingerprint level).depth

/-- The representation hash. -/
def hash (c : Cell) : Digest := c.hashAt maxLevel

/-- The depth. -/
def depth (c : Cell) : UInt16 := c.depthAt maxLevel

/-- Cells are compared by their representation hash. -/
instance : BEq Cell := ⟨fun a b => a.hash == b.hash⟩

end Cell

end CellBag
