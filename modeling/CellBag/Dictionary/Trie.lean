import CellBag.Dictionary.Label

/-!
# Tries

The tree of the keys of a dictionary: a leaf carries a value, and a fork goes on with a zero to the
left and with a one to the right. In front of each stands the label that all keys below share.
A trie is made from sorted entries, and it is stored as a tree of cells with one cell for each node.
-/

namespace CellBag

/-- A binary tree with labels on its edges. -/
inductive Trie (α : Type) where
  | leaf (label : List Bool) (value : α)
  | fork (label : List Bool) (left right : Trie α)

namespace Trie

/-- The keys of a trie with their values, in the order of the keys. -/
def entries {α : Type} : Trie α → List (List Bool × α)
  | leaf label value => [(label, value)]
  | fork label left right =>
    left.entries.map (fun e => (label ++ false :: e.1, e.2)) ++
      right.entries.map fun e => (label ++ true :: e.1, e.2)

/-- The number of leaves. -/
def size {α : Type} : Trie α → Nat
  | leaf _ _ => 1
  | fork _ left right => left.size + right.size

/-- The longest list that two lists of bits begin with. -/
def commonPrefix : List Bool → List Bool → List Bool
  | a :: as, b :: bs => if a = b then a :: commonPrefix as bs else []
  | _, _ => []

/-- The trie of sorted entries whose keys have the same length; `forks` bounds how many forks lie
above one another, which are no more than the bits of a key. -/
def ofEntries {α : Type} : (forks : Nat) → List (List Bool × α) → Except Error (Trie α)
  | _, [] => .error (.dictionary .emptySubtree)
  | _, [(key, value)] => .ok (leaf key value)
  | 0, _ => .error (.dictionary .duplicateKeys)
  | forks + 1, first :: second :: more => do
    let last := (second :: more).getLast (List.cons_ne_nil _ _)
    let label := commonPrefix first.1 last.1
    let size := label.length
    if first.1.length ≤ size then throw (.dictionary .duplicateKeys)
    let all := first :: second :: more
    let isLeft := fun e : List Bool × α => e.1[size]?.getD false == false
    let below := fun e : List Bool × α => (e.1.drop (size + 1), e.2)
    let left ← ofEntries forks ((all.takeWhile isLeft).map below)
    let right ← ofEntries forks ((all.dropWhile isLeft).map below)
    return fork label left right

/-- The tree of cells of a trie whose keys have `width` bits. -/
def toCell : Trie Cell → (width : Nat) → Except Error Cell
  | leaf label value, width => Store.toCell do
    Store.label label width
    Store.cell value
  | fork label left right, width => do
    let leftCell ← left.toCell (width - label.length - 1)
    let rightCell ← right.toCell (width - label.length - 1)
    Store.toCell do
      Store.label label width
      Store.ref leftCell
      Store.ref rightCell

/-- Fails unless there is room for `count` more bits behind `used` bits of a key. -/
def ensureKeyRoom (used count : Nat) : Except Error Unit :=
  if count ≤ Bits.capacity - used then .ok ()
  else .error (.capacity .bits count (Bits.capacity - used))

/-- The trie that a tree of cells stores, with what each leaf cell holds behind its label as its
value. `used` bits of the key are known and `width` bits are not; there may be at most `room`
leaves. -/
def ofCell : Cell → (used width room : Nat) → Except Error (Trie Slice)
  | .mk kind bits refs mask own, used, width, room => do
    if kind.isExotic then throw (.dictionary .exoticCell)
    match Load.label width (Slice.ofCell (.mk kind bits refs mask own)) with
    | .error e _ => throw e
    | .ok label rest =>
      ensureKeyRoom used label.length
      let used := used + label.length
      if width ≤ label.length then
        if room = 0 then throw (.dictionary .tooManyEntries)
        return leaf label.toList rest
      match refs with
      | [left, right] =>
        if rest.bitsLeft ≠ 0 then throw (.dictionary .forkNode)
        ensureKeyRoom used 1
        let below := width - label.length - 1
        let leftTrie ← ofCell left (used + 1) below room
        let rightTrie ← ofCell right (used + 1) below (room - leftTrie.size)
        return fork label.toList leftTrie rightTrie
      | _ => throw (.dictionary .forkNode)

end Trie

end CellBag
