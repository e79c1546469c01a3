import CellBag.Bits.Write
import CellBag.Digest

/-!
# Account addresses

An address names an account by its workchain and a digest. Two flags go with it that only say how
the address is written for people: they take no part in comparisons and are not stored in cells.
-/

namespace CellBag

/-- A workchain, an account in it, and how the address is to be written. -/
structure Address where
  workchain : Int8
  account : Digest
  bounceable : Bool := true
  testOnly : Bool := false
deriving DecidableEq

namespace Address

/-- Addresses are compared without their flags. -/
instance : BEq Address := ⟨fun a b => a.workchain == b.workchain && a.account == b.account⟩

/-- The bits of an address: a tag of two bits, no anycast prefix, the workchain and the account. -/
def bits (a : Address) : List Bool :=
  [true, false] ++ [false] ++ Binary.ofWord a.workchain.toBitVec ++ a.account.bits

/-- The number of bits of an address. -/
def width : Nat := 267

/-- The bits of the absent address. -/
def noneBits : List Bool := [false, false]

end Address

/-- Appends an address, or the absent one. -/
def Bits.writeAddress (b : Bits) : Option Address → Except Error Bits
  | none => b.append Address.noneBits
  | some a => b.append a.bits

end CellBag
