import CellBag.Bag.Record
import Std.Data.HashMap
import Std.Data.HashSet

/-!
# Tables

The different cells below some roots, each one once and before those that it refers to. Cells are
told apart by their hash.
-/

namespace CellBag.Bag

namespace Table

/-- The hashes of the cells that have been met, and those of them that are complete. -/
structure Visit where
  seen : Std.HashSet Digest
  cells : List Cell

mutual

/-- Visits a cell: unless it has been met, those below it come first, and then it is put in front.
-/
def visit (c : Cell) (v : Visit) : Visit :=
  match c with
  | .mk kind bits refs mask own =>
    let hash := Cell.hash (.mk kind bits refs mask own)
    if v.seen.contains hash then v
    else
      let below := visitAll refs ⟨v.seen.insert hash, v.cells⟩
      ⟨below.seen, .mk kind bits refs mask own :: below.cells⟩

/-- Visits cells from the first to the last. -/
def visitAll (cs : List Cell) (v : Visit) : Visit :=
  match cs with
  | [] => v
  | c :: rest => visitAll rest (visit c v)

end

/-- The table of the cells below some roots. The last root is visited first. -/
def ofRoots (roots : List Cell) : List Cell :=
  (visitAll roots.reverse ⟨∅, []⟩).cells

/-- Where the cells of a table stand, by their hash. -/
def positions (cells : List Cell) : Std.HashMap Digest Nat :=
  cells.zipIdx.foldl (fun map e => map.insert e.1.hash e.2) ∅

/-- Where a cell stands. -/
def find (positions : Std.HashMap Digest Nat) (c : Cell) : Except BagFault Nat :=
  match positions[c.hash]? with
  | some index => .ok index
  | none => .error .missingReference

/-- The record of a cell. -/
def record (positions : Std.HashMap Digest Nat) (c : Cell) : Except BagFault Record := do
  return ⟨c.bits, c.isExotic, c.mask, ← c.refs.mapM (find positions)⟩

/-- The cells of a table from its last record on, over those that come after it. -/
def addCell (cells : Array Cell) (entry : Record × Nat) : Except BagFault (Array Cell) := do
  let (record, index) := entry
  let refs ← record.refs.mapM fun child =>
    match (if index < child ∧ child - index ≤ cells.size then cells[cells.size - (child - index)]?
      else none) with
    | some c => .ok c
    | none => .error (.invalidRef index child)
  match Cell.finalize record.bits refs record.exotic with
  | .error _ => throw (.invalidCell index .cell)
  | .ok c =>
    if c.mask = record.mask then return cells.push c
    else throw (.invalidCell index .levelMask)

/-- The cells of a table, the last one first. -/
def cells (records : List Record) : Except BagFault (Array Cell) :=
  records.zipIdx.reverse.foldlM addCell #[]

end Table

end CellBag.Bag
