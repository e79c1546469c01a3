import CellBag.Address.Message
import CellBag.Slice.Load

/-!
# Addresses in cells

A tag of two bits tells the absent address, an external one and an account apart. An account can
have an anycast prefix, which is skipped.
-/

namespace CellBag

namespace Store

/-- Stores an account address, or the absent one. -/
def address (value : Option Address) : Store Unit :=
  write (·.writeAddress value)

/-- Stores an external address. -/
def externalAddress (value : ExternalAddress) : Store Unit :=
  write (·.append value.encoding)

/-- Stores the address of one end of a message. -/
def messageAddress : MessageAddress → Store Unit
  | .none => address none
  | .account a => address (some a)
  | .external a => externalAddress a

end Store

namespace Load

/-- Skips an anycast prefix: a bit that says whether it is there, its length and its bits. -/
def skipAnycast : Load Unit := do
  if ← bit then
    let depth ← word 5
    if 1 ≤ depth.toNat ∧ depth.toNat ≤ 30 then skipBits depth.toNat else throw .invalidTag

/-- Loads an account address behind its tag. -/
def accountBody : Load Address := do
  skipAnycast
  let workchain ← signedWord 8
  let hash ← bits (8 * 32)
  match Digest.ofBytes? hash with
  | some account => return { workchain := ⟨⟨workchain.setWidth 8⟩⟩, account }
  | none => throw (.address (.invalidLength hash.length))

/-- Loads an account address, or the absent one. -/
def address : Load (Option Address) := atomically do
  match (← word 2).toNat with
  | 0 => return none
  | 2 => return some (← accountBody)
  | _ => throw (.address .unsupported)

/-- Loads the address of one end of a message. -/
def messageAddress : Load MessageAddress := atomically do
  match (← word 2).toNat with
  | 0 => return .none
  | 2 => return .account (← accountBody)
  | 1 =>
    let length ← word 9
    let value ← bitString length.toNat
    match ExternalAddress.ofBits value with
    | .ok a => return .external a
    | .error fault => throw (.address fault)
  | _ => throw (.address .unsupported)

end Load

end CellBag
