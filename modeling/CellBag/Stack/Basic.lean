import CellBag.Stack.Value

/-!
# Stacks

A stack of values, and how cells store it: a depth of 24 bits, and then a chain of cells with one
value each, in which every cell refers to the one below it.
-/

namespace CellBag

/-- Values, the top one first. -/
structure Stack where
  values : List Value

namespace Stack

/-- The stack without values. -/
def empty : Stack := ⟨[]⟩

/-- The number of values. -/
def size (s : Stack) : Nat := s.values.length

/-- Whether there are no values. -/
def isEmpty (s : Stack) : Bool := s.values.isEmpty

/-- The stack with one more value on top. -/
def push (s : Stack) (v : Value) : Stack := ⟨v :: s.values⟩

/-- The value on top, if there is one, and the stack below it. -/
def pop (s : Stack) : Option Value × Stack := (s.values.head?, ⟨s.values.tail⟩)

/-- The value at a position, counted from the bottom. -/
def get? (s : Stack) (index : Nat) : Option Value := s.values.reverse[index]?

/-- Stacks are equal when they hold equal values. -/
instance : BEq Stack := ⟨fun a b => a.values == b.values⟩

/-- The width of the depth of a stack. -/
def depthWidth : Nat := 24

/-- The cell that stores some values, the top one first. -/
def listCell : List Value → Except Error Cell
  | [] => .ok .empty
  | top :: below => do
    let rest ← listCell below
    Store.toCell do
      Store.ref rest
      Store.value top

/-- The cell that stores a stack. -/
def toCell (s : Stack) : Except Error Cell :=
  if 1 <<< depthWidth ≤ s.size then .error (.intOverflow depthWidth)
  else
    match s.values with
    | [] => Store.toCell (Store.nat 0 depthWidth)
    | top :: below => do
      let rest ← listCell below
      Store.toCell do
        Store.nat s.size depthWidth
        Store.ref rest
        Store.value top

/-- The values of a chain of cells that begins with what is left of a slice. -/
def loadValues : (depth : Nat) → Slice → Except Error (List Value)
  | 0, s =>
    match Load.finish s with
    | .ok _ _ => .ok []
    | .error e _ => .error e
  | depth + 1, s =>
    let action : Load (Cell × Value) := do
      let rest ← Load.ref
      let top ← Load.value
      Load.finish
      return (rest, top)
    match action s with
    | .ok (rest, top) _ => do
      let below ← loadValues depth (Slice.ofCell rest)
      return top :: below
    | .error e _ => .error e

/-- The stack that a cell stores. -/
def ofCell (c : Cell) : Except Error Stack :=
  match Load.word depthWidth (Slice.ofCell c) with
  | .ok depth s => do return ⟨← loadValues depth.toNat s⟩
  | .error e _ => .error e

end Stack

end CellBag
