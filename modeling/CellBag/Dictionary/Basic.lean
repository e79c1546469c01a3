import CellBag.Dictionary.Key
import CellBag.Dictionary.Trie

/-!
# Dictionaries

A dictionary maps keys of a fixed width to cells. Its entries stand in the order of their keys, so
that it shows nothing of how it was made.
-/

namespace CellBag

/-- Keys of `keyWidth` bits and their values, in the order of the keys. -/
structure Dictionary where
  keyWidth : Nat
  entries : List (Key × Cell)

namespace Dictionary

/-- The dictionary without entries. -/
def empty (keyWidth : Nat) : Dictionary := ⟨keyWidth, []⟩

/-- The number of entries. -/
def size (d : Dictionary) : Nat := d.entries.length

/-- Whether there are no entries. -/
def isEmpty (d : Dictionary) : Bool := d.entries.isEmpty

/-- Two dictionaries are equal when they have equal cells under the same keys. -/
instance : BEq Dictionary where
  beq a b := a.keyWidth == b.keyWidth && a.entries == b.entries

/-- The value under a key. -/
def get? (d : Dictionary) (key : Key) : Option Cell :=
  (d.entries.find? fun e => e.1 = key).map (·.2)

/-- Entries with a value under a key, in place of the one that was there. -/
def insertEntry (key : Key) (value : Cell) : List (Key × Cell) → List (Key × Cell)
  | [] => [(key, value)]
  | e :: rest =>
    match Key.compare key e.1 with
    | .lt => (key, value) :: e :: rest
    | .eq => (key, value) :: rest
    | .gt => e :: insertEntry key value rest

/-- The dictionary with a value under a key of the right width. -/
def insert (d : Dictionary) (key : Key) (value : Cell) : Except Error Dictionary :=
  if key.length = d.keyWidth then .ok { d with entries := insertEntry key value d.entries }
  else .error (.dictionary .keyWidth)

/-- The dictionary without a key. -/
def erase (d : Dictionary) (key : Key) : Dictionary :=
  { d with entries := d.entries.filter fun e => e.1 ≠ key }

/-- The dictionary with an unsigned word, in `width` bits, under the key for another. -/
def insertWord (d : Dictionary) (key value : BitVec 64) (width : Nat) :
    Except Error Dictionary := do
  let key ← Key.ofWord key d.keyWidth
  let cell ← Store.toCell (Store.word value width)
  d.insert key cell

/-- The unsigned word of `width` bits that stands under the key for another. -/
def getWord? (d : Dictionary) (key : BitVec 64) (width : Nat) :
    Except Error (Option (BitVec 64)) := do
  let key ← Key.ofWord key d.keyWidth
  match d.get? key with
  | none => return none
  | some cell => return some (← Load.fromCell (Load.word width) cell)

/-- The trie of a dictionary that has entries. -/
def toTrie (d : Dictionary) : Except Error (Trie Cell) :=
  Trie.ofEntries d.keyWidth (d.entries.map fun e => (e.1.toList, e.2))

/-- The root of the tree of cells, unless there are no entries. -/
def toRoot (d : Dictionary) : Except Error (Option Cell) :=
  if d.isEmpty then .ok none
  else do
    let trie ← d.toTrie
    return some (← trie.toCell d.keyWidth)

/-- How many entries are read at most unless another limit is given. -/
def defaultLimit : Nat := 262144

/-- The entry of a leaf: its key, and what its cell holds behind the label as an ordinary cell. -/
def entryOfLeaf (leaf : List Bool × Slice) : Except Error (Key × Cell) := do
  let key ← Bits.empty.append leaf.1
  let value ← Load.remainderOf leaf.2
  return (key, value)

/-- The dictionary of at most `limit` entries with a root. -/
def ofRoot (root : Cell) (keyWidth limit : Nat) : Except Error Dictionary := do
  let trie ← Trie.ofCell root 0 keyWidth limit
  return ⟨keyWidth, ← trie.entries.mapM entryOfLeaf⟩

end Dictionary

namespace Store

/-- Stores a dictionary: a bit that says whether there are entries, and the root if there are. -/
def dictionary : Option Dictionary → Store Unit
  | none => maybeRef none
  | some d => do
    let root ← ofExcept d.toRoot
    maybeRef root

end Store

namespace Load

/-- Loads a dictionary of at most `limit` entries. -/
def dictionary (keyWidth limit : Nat) : Load Dictionary := atomically do
  match ← maybeRef with
  | some root => ofExcept (Dictionary.ofRoot root keyWidth limit)
  | none => return .empty keyWidth

end Load

end CellBag
