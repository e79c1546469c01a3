import CellBag.Binary

/-!
# Octets

Bytes as groups of eight bits, the first bit being the most significant, and natural numbers as
bytes, the most significant byte first.
-/

namespace CellBag.Octets

/-- The byte with these bits; missing bits at the end are zero. -/
def byte (bits : List Bool) : UInt8 :=
  UInt8.ofNat (Binary.toNat (bits ++ List.replicate (8 - bits.length) false))

/-- Bits grouped into bytes, the last byte filled up with zeros. -/
def pack : List Bool → List UInt8
  | [] => []
  | a :: b :: c :: d :: e :: f :: g :: h :: rest => byte [a, b, c, d, e, f, g, h] :: pack rest
  | short => [byte short]

/-- The bits of bytes. -/
def unpack (bytes : List UInt8) : List Bool :=
  bytes.flatMap fun b => Binary.ofNat 8 b.toNat

/-- The `size` low bytes of a natural number. -/
def ofNat : (size n : Nat) → List UInt8
  | 0, _ => []
  | size + 1, n => UInt8.ofNat (n >>> (8 * size)) :: ofNat size n

/-- A number in so many bytes has these bytes. -/
@[simp]
theorem length_ofNat (size n : Nat) : (ofNat size n).length = size := by
  induction size with
  | zero => rfl
  | succ size ih => simp [ofNat, ih]

/-- The natural number that bytes denote. -/
def toNat (bytes : List UInt8) : Nat :=
  bytes.foldl (fun n b => 256 * n + b.toNat) 0

end CellBag.Octets
