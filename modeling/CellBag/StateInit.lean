import CellBag.Dictionary.Basic

/-!
# Initial states

The state that a contract begins with: its code, its data and its libraries. The address of the
contract is the hash of the cell that stores it.
-/

namespace CellBag

/-- Whether a special contract is called at the beginning and at the end of each block. -/
structure TickTock where
  tick : Bool
  tock : Bool
deriving DecidableEq

/-- The initial state of a contract. -/
structure StateInit where
  splitDepth : Option UInt8 := none
  special : Option TickTock := none
  code : Option Cell := none
  data : Option Cell := none
  library : Dictionary := .empty 256

namespace StateInit

/-- The width of the keys of libraries. -/
def libraryKeyWidth : Nat := 256

/-- The largest split depth. -/
def maxSplitDepth : Nat := 30

instance : BEq StateInit where
  beq a b := a.splitDepth == b.splitDepth && a.special == b.special && a.code == b.code &&
    a.data == b.data && a.library == b.library

end StateInit

namespace Store

/-- Stores an initial state. What comes before a part that fails stays in the builder. -/
def stateInit (s : StateInit) : Store Unit := do
  match s.splitDepth with
  | some depth =>
    if StateInit.maxSplitDepth < depth.toNat then throw (.intOverflow 5)
    bit true
    nat depth.toNat 5
  | none => bit false
  match s.special with
  | some flags =>
    bit true
    bit flags.tick
    bit flags.tock
  | none => bit false
  maybeRef s.code
  maybeRef s.data
  dictionary (some s.library)

end Store

namespace Load

/-- Loads an optional value behind a bit that says whether it is there. -/
def optional {α : Type} (action : Load α) : Load (Option α) := do
  if ← bit then return some (← action) else return none

/-- Loads the flags of a special contract. -/
def tickTock : Load TickTock := do
  let tick ← bit
  let tock ← bit
  return ⟨tick, tock⟩

/-- Loads an initial state. What comes before a part that fails counts as read. -/
def stateInit : Load StateInit := do
  let splitDepth ← optional (word 5)
  let special ← optional tickTock
  let code ← maybeRef
  let data ← maybeRef
  let library ← dictionary StateInit.libraryKeyWidth Dictionary.defaultLimit
  return ⟨splitDepth.map fun depth => ⟨depth.setWidth 8⟩, special, code, data, library⟩

end Load

namespace StateInit

/-- The cell that stores an initial state. -/
def toCell (s : StateInit) : Except Error Cell :=
  Store.toCell (Store.stateInit s)

/-- The initial state that a cell stores, and nothing else. -/
def ofCell (c : Cell) : Except Error StateInit :=
  Load.fromCell (do
    let s ← Load.stateInit
    Load.finish
    return s) c

/-- The address of the contract that begins with a state. -/
def address (s : StateInit) (workchain : Int8) : Except Error Address := do
  let cell ← s.toCell
  return { workchain, account := cell.hash }

end StateInit

end CellBag
