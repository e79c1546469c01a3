import CellBag.Address.Basic
import CellBag.Bits.Text

/-!
# Addresses of messages

A message names its two ends by an account address, by an external address of up to 511 bits, or not
at all.
-/

namespace CellBag

/-- An address outside of the chain: any bits whose number fits into nine bits. -/
structure ExternalAddress where
  bits : Bits
  length_le : bits.length ≤ 511
deriving DecidableEq

namespace ExternalAddress

/-- The largest number of bits. -/
def maxWidth : Nat := 511

/-- An external address with these bits, unless they are too many. -/
def ofBits (bits : Bits) : Except AddressFault ExternalAddress :=
  if h : bits.length ≤ maxWidth then .ok ⟨bits, h⟩ else .error (.invalidLength bits.length)

/-- An external address with the first `count` bits of some bytes. -/
def ofBytes (bytes : List UInt8) (count : Nat) : Except AddressFault ExternalAddress :=
  match Bits.ofBytes bytes count with
  | .ok bits => ofBits bits
  | .error _ => .error (.invalidLength count)

/-- Reads an external address in hexadecimal. -/
def ofHex (text : List UInt8) : Except AddressFault ExternalAddress :=
  match Text.Hex.decode text with
  | .ok bytes => ofBytes bytes (8 * bytes.length)
  | .error _ => .error .badFormat

/-- The text of an external address. -/
def text (a : ExternalAddress) : String :=
  if a.bits.isEmpty then "ExternalAddress<null>"
  else s!"ExternalAddress<x\x7b{a.bits.hex}\x7d>"

/-- The stored form: a tag of two bits, the number of bits in nine bits, and the bits. -/
def encoding (a : ExternalAddress) : List Bool :=
  [false, true] ++ Binary.ofNat 9 a.bits.length ++ a.bits.toList

end ExternalAddress

/-- One end of a message. -/
inductive MessageAddress where
  | none
  | account (address : Address)
  | external (address : ExternalAddress)
deriving DecidableEq

namespace MessageAddress

/-- Accounts are compared without their flags. -/
instance : BEq MessageAddress where
  beq
    | .none, .none => true
    | .account a, .account b => a == b
    | .external a, .external b => a == b
    | _, _ => false

/-- The number of bits of the stored form. -/
def width : MessageAddress → Nat
  | .none => 2
  | .account _ => Address.width
  | .external a => 2 + 9 + a.bits.length

/-- The account address, if it is one. -/
def account? : MessageAddress → Option Address
  | .account a => some a
  | _ => Option.none

end MessageAddress

end CellBag
