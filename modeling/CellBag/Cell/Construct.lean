import CellBag.Bits.Write
import CellBag.Cell.Finalize

/-!
# Constructing cells

The empty cell, leaves, and exotic cells that are laid out from what they stand for.
-/

namespace CellBag.Cell

/-- The cell without bits and references. -/
def empty : Cell :=
  mk .ordinary .empty [] .empty
    [⟨Digest.of (message .ordinary .empty [] .empty none 0), 0⟩]

/-- An ordinary leaf with the first `count` bits of some bytes. -/
def leaf (bytes : List UInt8) (count : Nat) : Except Error Cell := do
  let bits ← Bits.ofBytes bytes count
  finalize bits [] false

/-- An exotic cell of a kind, over references. -/
def ofKind (kind : Kind) (refs : List Cell) : Except Error Cell := do
  let bits ← Bits.empty.append kind.layout
  finalize bits refs true

/-- A pruned branch that stands in for a cell at a Merkle depth. -/
def prunedBranch (c : Cell) (merkleDepth : Nat) : Except Error Cell :=
  if maxLevel ≤ merkleDepth ∨ 1 <<< merkleDepth ≤ c.mask.toByte.toNat then
    .error (.exotic .prunedDepth)
  else
    let mask := c.mask.union ⟨1 <<< merkleDepth⟩
    let levels := (List.range (maxLevel + 1)).filter c.mask.isSignificant
    ofKind (.pruned mask (levels.map c.fingerprint)) []

/-- A reference to the library cell with a hash. -/
def library (hash : Digest) : Except Error Cell :=
  ofKind (.library hash) []

/-- A Merkle proof over a cell. -/
def merkleProof (c : Cell) : Except Error Cell :=
  ofKind (.merkleProof (c.fingerprint 0)) [c]

/-- A Merkle update from one cell to another. -/
def merkleUpdate (old new : Cell) : Except Error Cell :=
  ofKind (.merkleUpdate (old.fingerprint 0) (new.fingerprint 0)) [old, new]

end CellBag.Cell
