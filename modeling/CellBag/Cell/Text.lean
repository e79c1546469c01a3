import CellBag.Bits.Text
import CellBag.Cell.Basic

/-!
# Text of cells

A tree of cells is printed with one line for each cell, indented by its depth in the tree.
-/

namespace CellBag

/-- The name of an exotic kind. -/
def Kind.name? : Kind → Option String
  | .ordinary => none
  | .pruned _ _ => some "PrunedBranch"
  | .library _ => some "LibraryReference"
  | .merkleProof _ => some "MerkleProof"
  | .merkleUpdate _ _ => some "MerkleUpdate"

/-- A cell of a tree as it is printed: how many references it stands below the root, whether it is
exotic, and its bits. -/
structure Row where
  indent : Nat
  exotic : Bool
  bits : Bits
deriving DecidableEq

/-- The line of one cell: `x` or, for an exotic cell, `s`, and its bits. -/
def Row.line (r : Row) : List Char :=
  List.replicate r.indent ' ' ++ (if r.exotic then 's' else 'x') :: '\x7b' :: r.bits.hexDigits ++
    ['\x7d', '\n']

namespace Cell

mutual

/-- The rows of a tree: a cell stands before what is below it. -/
def rows (indent : Nat) : Cell → List Row
  | mk kind bits refs _ _ => ⟨indent, kind.isExotic, bits⟩ :: rowsOfAll (indent + 1) refs

/-- The rows of several trees. -/
def rowsOfAll (indent : Nat) : List Cell → List Row
  | [] => []
  | c :: cs => rows indent c ++ rowsOfAll indent cs

end

/-- The text of a tree. -/
def tree (c : Cell) : String :=
  String.ofList ((c.rows 0).flatMap Row.line)

/-- A one-line description of a cell. -/
def describe (c : Cell) : String :=
  let kind := match c.kind.name? with
    | none => "None"
    | some name => s!"Some({name})"
  s!"Cell \x7b kind: {kind}, bits: {c.bits.describe}, references: {c.refs.length}, hash: \"" ++
    c.hash.text ++ "\" \x7d"

end Cell

end CellBag
