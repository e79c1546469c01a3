import CellBag.Bag.Basic

/-!
# Scanning bytes

Reads from the front of bytes, which fail when the bytes end too early. The number of bytes that
have been read is kept.
-/

namespace CellBag.Bag

/-- The bytes that are left, and the number of those before them. -/
structure Cursor where
  rest : List UInt8
  position : Nat

/-- An action that reads from the front of bytes. -/
abbrev Scan := StateT Cursor (Except BagFault)

namespace Scan

/-- Reads bytes. -/
def bytes (count : Nat) : Scan (List UInt8) := fun c =>
  let taken := c.rest.take count
  if taken.length = count then .ok (taken, ⟨c.rest.drop count, c.position + count⟩)
  else .error .unexpectedEnd

/-- Reads a byte. -/
def byte : Scan UInt8 := do
  return (← bytes 1).headD 0

/-- Reads a number of `size` bytes. -/
def nat (size : Nat) : Scan Nat := do
  return Octets.toNat (← bytes size)

/-- Reads `count` numbers of `size` bytes. -/
def nats (size : Nat) : (count : Nat) → Scan (List Nat)
  | 0 => return []
  | count + 1 => do
    let n ← nat size
    return n :: (← nats size count)

/-- The number of bytes that have been read. -/
def position : Scan Nat := do
  return (← get).position

/-- Fails unless `count` bytes are left. -/
def ensure (count : Nat) : Scan Unit := fun c =>
  if count ≤ c.rest.length then .ok ((), c) else .error .unexpectedEnd

/-- Fails unless no bytes are left. -/
def finish : Scan Unit := fun c =>
  if c.rest.isEmpty then .ok ((), c) else .error (.trailingBytes c.rest.length)

end Scan

end CellBag.Bag
