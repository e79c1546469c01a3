import CellBag.Address.Stored
import CellBag.Snake

/-!
# Values

The values that a stack holds, and how cells store them: a tag byte and what belongs to it. A tuple
is a chain of cells, in which each one refers to the items before and to one more item.
-/

namespace CellBag

/-- A value of a stack. -/
inductive Value where
  | null
  | int (i : Int)
  | nan
  | cell (c : Cell)
  | slice (s : Slice)
  /-- what a builder held, as a cell -/
  | builder (c : Cell)
  | tuple (items : List Value)
deriving Inhabited

namespace Value

mutual

/-- Whether two values are equal: cells by their hash, slices also by what has been read. -/
def beq : Value → Value → Bool
  | null, null => true
  | int a, int b => a == b
  | nan, nan => true
  | cell a, cell b => a == b
  | slice a, slice b => a == b
  | builder a, builder b => a == b
  | tuple as, tuple bs => beqAll as bs
  | _, _ => false

/-- Whether two lists hold equal values. -/
def beqAll : List Value → List Value → Bool
  | [], [] => true
  | a :: as, b :: bs => beq a b && beqAll as bs
  | _, _ => false

end

instance : BEq Value := ⟨beq⟩

/-- The integer, if the value is one. -/
def int? : Value → Option Int
  | int i => some i
  | _ => none

/-- The cell, if the value is one. -/
def cell? : Value → Option Cell
  | cell c => some c
  | _ => none

/-- The slice, if the value is one. -/
def slice? : Value → Option Slice
  | slice s => some s
  | _ => none

/-- The items, if the value is a tuple. -/
def items? : Value → Option (List Value)
  | tuple items => some items
  | _ => none

/-- The account address that a slice or a cell begins with. -/
def address (v : Value) : Except Error (Option Address) :=
  let read := fun s : Slice => match Load.address s with
    | .ok a _ => .ok a
    | .error e _ => .error e
  match v with
  | slice s => read s
  | cell c => read (Slice.ofCell c)
  | _ => .error (.unexpectedValue .notSlice)

/-- Whether an integer is stored in 64 bits. -/
def isTiny (i : Int) : Bool :=
  (BitVec.ofInt 64 i).toInt == i

end Value

namespace Store

/-- Stores a slice as its cell and the bounds of what is left. -/
def window (s : Slice) : Store Unit := do
  ref s.cell
  nat s.bitPosition 10
  nat s.cell.bits.length 10
  nat s.refPosition 3
  nat s.cell.refs.length 3

mutual

/-- Stores a value. What comes before a part that fails stays in the builder. -/
def value : Value → Store Unit
  | .null => nat 0 8
  | .int i =>
    if Value.isTiny i then do
      nat 1 8
      signedWord (BitVec.ofInt 64 i) 64
    else do
      nat 0x100 15
      int i 257
  | .nan => nat 0x2FF 16
  | .cell c => do
    nat 3 8
    ref c
  | .slice s => do
    nat 4 8
    window s
  | .builder c => do
    nat 5 8
    ref c
  | .tuple items => do
    if 65536 ≤ items.length then throw (.intOverflow 16)
    nat 7 8
    nat items.length 16
    tupleItems none items

/-- Stores the items of a tuple, of which those before are in a cell already. -/
def tupleItems (before : Option Cell) : List Value → Store Unit
  | [] => pure ()
  | [last] => do
    match before with
    | none => pure ()
    | some head => ref head
    let tail ← ofExcept (toCell (value last))
    ref tail
  | item :: items => do
    let here ← ofExcept (toCell (value item))
    match before with
    | none => tupleItems (some here) items
    | some head =>
      let more ← ofExcept (toCell do
        ref head
        ref here)
      tupleItems (some more) items

end

end Store

namespace Load

/-- Loads a slice from its cell and the bounds of what is left. A part that does not reach to the
end of the cell is copied. -/
def window : Load Slice := do
  let cell ← ref
  let firstBit := (← word 10).toNat
  let endBit := (← word 10).toNat
  let firstRef := (← word 3).toNat
  let endRef := (← word 3).toNat
  if endBit < firstBit ∨ cell.bits.length < endBit then
    throw (.underrun .bits endBit cell.bits.length)
  if endRef < firstRef ∨ cell.refs.length < endRef then
    throw (.underrun .refs endRef cell.refs.length)
  if endBit = cell.bits.length ∧ endRef = cell.refs.length then
    return ⟨cell, firstBit, firstRef⟩
  let bits ← ofExcept (cell.bits.substring firstBit (endBit - firstBit))
  let copy ← ofExcept (Store.toCell do
    Store.bitString bits
    Store.appendRefs ((cell.refs.drop firstRef).take (endRef - firstRef)))
  return Slice.ofCell copy

/-- Loads a reference, of which only its position is given. -/
def refIndex : Load Nat := do
  let index := (← get).refPosition
  let _ ← ref
  return index

/-- Loads the items of a tuple, the last one first. The items are in the cells that the references
at some position stand for: one of them alone (`item`) or several (`items`). -/
def tupleWith (item : Nat → Except Error Value) (items : Nat → Nat → Except Error (List Value)) :
    (count : Nat) → Load (List Value)
  | 0 => return []
  | 1 => do
    let last ← ofExcept (item (← refIndex))
    return [last]
  | 2 => do
    let first ← ofExcept (item (← refIndex))
    let last ← ofExcept (item (← refIndex))
    return [last, first]
  | count + 1 => do
    let before ← ofExcept (items (← refIndex) count)
    let last ← ofExcept (item (← refIndex))
    return last :: before

/-- Loads a value, given what the references stand for. -/
def valueWith (item : Nat → Except Error Value) (items : Nat → Nat → Except Error (List Value)) :
    Load Value := do
  match (← word 8).toNat with
  | 0 => return .null
  | 1 => return .int (← signedWord 64).toInt
  | 2 =>
    match (← word 7).toNat with
    | 0 => return .int (← int 257)
    | 127 => if ← bit then return .nan else throw .invalidTag
    | _ => throw .invalidTag
  | 3 => return .cell (← ref)
  | 4 => return .slice (← window)
  | 5 => return .builder (← ref)
  | 6 => throw (.unexpectedValue .continuation)
  | 7 =>
    let count ← word 16
    let items ← tupleWith item items count.toNat
    return .tuple items.reverse
  | _ => throw .invalidTag

end Load

namespace Value

/-- What an action reads from a whole cell, with nothing left. -/
def wholeCell {α : Type} (action : Load α) (c : Cell) : Except Error α :=
  Load.fromCell (do
    let a ← action
    Load.finish
    return a) c

mutual

/-- The value that a cell stores, and nothing else. -/
def ofCell : Cell → Except Error Value
  | .mk kind bits refs mask own =>
    wholeCell (Load.valueWith (fun i => ofNth refs i) (fun i count => itemsOfNth refs i count))
      (.mk kind bits refs mask own)

/-- The items of a tuple that a cell stores, and nothing else, the last one first. -/
def itemsOfCell (count : Nat) : Cell → Except Error (List Value)
  | .mk kind bits refs mask own =>
    wholeCell
      (Load.tupleWith (fun i => ofNth refs i) (fun i count => itemsOfNth refs i count) count)
      (.mk kind bits refs mask own)

/-- The value that one of several cells stores. -/
def ofNth : List Cell → Nat → Except Error Value
  | [], _ => .error (.underrun .refs 1 0)
  | c :: _, 0 => ofCell c
  | _ :: cs, i + 1 => ofNth cs i

/-- The items of a tuple that one of several cells stores. -/
def itemsOfNth : List Cell → Nat → Nat → Except Error (List Value)
  | [], _, _ => .error (.underrun .refs 1 0)
  | c :: _, 0, count => itemsOfCell count c
  | _ :: cs, i + 1, count => itemsOfNth cs i count

end

/-- The cell that stores a value. -/
def toCell (v : Value) : Except Error Cell :=
  Store.toCell (Store.value v)

end Value

namespace Load

/-- Loads a value. What comes before a part that fails counts as read. -/
def value : Load Value := do
  let refs := (← get).cell.refs
  valueWith (Value.ofNth refs) (Value.itemsOfNth refs)

end Load

end CellBag
