import CellBag.Address.Stored

/-!
# Dictionary keys

A key is a bit string. Keys are ordered bit by bit, a zero before a one and a shorter key before
those that it begins.
-/

namespace CellBag

/-- A key of a dictionary. -/
abbrev Key := Bits

namespace Key

/-- Compares lists of bits from the front. -/
def compareBits : List Bool → List Bool → Ordering
  | [], [] => .eq
  | [], _ :: _ => .lt
  | _ :: _, [] => .gt
  | a :: as, b :: bs => if a = b then compareBits as bs else if b then .lt else .gt

/-- The order of keys. -/
def compare (a b : Key) : Ordering :=
  compareBits a.toList b.toList

/-- The key for an unsigned word in `width` bits. -/
def ofWord (value : BitVec 64) (width : Nat) : Except Error Key :=
  Bits.empty.writeWord value width

/-- The key for a signed word in `width` bits. -/
def ofSignedWord (value : BitVec 64) (width : Nat) : Except Error Key :=
  Bits.empty.writeSignedWord value width

/-- The key for a natural number in `width` bits. -/
def ofNat (value width : Nat) : Except Error Key :=
  Bits.empty.writeNat value width

/-- The key for a digest. -/
def ofDigest (value : Digest) : Except Error Key :=
  Bits.ofWholeBytes value.bytes

/-- The key for an account address. -/
def ofAddress (value : Address) : Except Error Key :=
  Bits.empty.writeAddress (some value)

/-- The unsigned word that a key of at most 64 bits denotes. -/
def toWord (k : Key) : Except Error (BitVec 64) :=
  k.wordAt 64 0 k.length

/-- The signed word that a key of at most 64 bits denotes. -/
def toSignedWord (k : Key) : Except Error (BitVec 64) :=
  k.signedWordAt 64 0 k.length

/-- The natural number that a key denotes. -/
def toNat (k : Key) : Except Error Nat :=
  k.natAt 0 k.length

/-- The account address that a key holds. -/
def toAddress (k : Key) : Except Error Address := do
  let cell ← Store.toCell (Store.bitString k)
  Load.fromCell (do
    match ← Load.address with
    | some a =>
      Load.finish
      return a
    | none => throw (.dictionary .keyIsNone)) cell

end Key

end CellBag
