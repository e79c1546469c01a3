import CellBag.Slice.Load

/-!
# Snakes

Bytes that do not fit into one cell go on in the first reference of it, and so on: a chain of cells,
each full but the last. Reading takes all whole bytes along such a chain.
-/

namespace CellBag

namespace Snake

/-- How many whole bytes a cell holds. -/
def chunkSize : Nat := 127

/-- The first `count` chunks of some bytes. -/
def chunks : (count : Nat) → List UInt8 → List (List UInt8)
  | 0, _ => []
  | count + 1, bytes => bytes.take chunkSize :: chunks count (bytes.drop chunkSize)

/-- The chain of cells that hold some chunks. -/
def chain : List (List UInt8) → Except Error Cell
  | [] => .ok .empty
  | [last] => (Store.bytes last).toCell
  | chunk :: more => do
    let next ← chain more
    Store.toCell do
      Store.bytes chunk
      Store.ref next

/-- The chain of cells that hold some bytes. -/
def ofBytes (bytes : List UInt8) : Except Error Cell :=
  chain (chunks ((bytes.length + (chunkSize - 1)) / chunkSize) bytes)

/-- The bytes of a cell from a bit on, if they are whole. -/
def wholeBytes (bits : List Bool) : Except Error (List UInt8) :=
  if bits.length % 8 = 0 then .ok (Octets.pack bits) else .error (.encoding .unaligned)

/-- The bytes of a chain of cells. -/
def toBytes : Cell → Except Error (List UInt8)
  | .mk _ bits [] _ _ => wholeBytes bits.toList
  | .mk _ bits (next :: _) _ _ => do
    let here ← wholeBytes bits.toList
    let rest ← toBytes next
    return here ++ rest

end Snake

namespace Store

/-- Stores bytes: as many as fit here, and the others in a chain of cells. -/
def snake (value : List UInt8) : Store Unit := do
  let room := (← get).availableBytes
  if value.length ≤ room then bytes value
  else do
    ensureRefs 1
    let tail ← ofExcept (Snake.ofBytes (value.drop room))
    bytes (value.take room)
    ref tail

/-- Stores text as a chain of cells, with a zero byte in front of it if it is to be marked. -/
def snakeText (value : String) (marked : Bool) : Store Unit :=
  snake (if marked then 0 :: Text.utf8 value else Text.utf8 value)

end Store

namespace Load

/-- Loads the bytes that are left here and in the chain of cells behind. -/
def snake : Load (List UInt8) := atomically do
  let s ← get
  let here ← ofExcept (Snake.wholeBytes s.remainingBits)
  advance s.bitsLeft 0
  match s.remainingRefs with
  | [] => return here
  | next :: _ =>
    advance 0 1
    let rest ← ofExcept (Snake.toBytes next)
    return here ++ rest

/-- Loads the text that is left here and in the chain of cells behind. The bytes count as read even
when they are no text. -/
def snakeText : Load String := do
  let bytes ← snake
  match Text.ofUtf8? bytes with
  | some s => return s
  | none => throw .invalidUtf8

end Load

end CellBag
