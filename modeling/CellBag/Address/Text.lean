import CellBag.Address.Basic
import CellBag.Checksum.Crc16
import CellBag.Text.Base64
import CellBag.Text.Decimal

/-!
# Text of addresses

The raw form is the workchain in decimal, a colon and the account in hexadecimal. The user-friendly
form is base 64 of 36 bytes: a tag for the flags, the workchain, the account and a checksum.
-/

namespace CellBag.Address

/-- The raw form. -/
def raw (a : Address) : String :=
  Text.Decimal.render a.workchain.toInt ++ ":" ++ a.account.text

/-- The workchain that text spells, if it is in range. -/
def workchain? (text : List Char) : Option Int8 := do
  let i ← Text.Decimal.int? text
  if -128 ≤ i ∧ i ≤ 127 then some (Int8.ofInt i) else none

/-- The account that 64 hexadecimal digits spell. -/
def account? (text : List Char) : Option Digest :=
  match Text.Hex.decode (Text.utf8 (String.ofList text)) with
  | .ok bytes => Digest.ofBytes? bytes
  | .error _ => none

/-- Reads the raw form. -/
def ofRaw (text : List Char) : Except AddressFault Address :=
  match text.dropWhile (· ≠ ':') with
  | [] => .error .badFormat
  | _ :: rest =>
    match workchain? (text.takeWhile (· ≠ ':')) with
    | none => .error .invalidWorkchain
    | some workchain =>
      match account? rest with
      | none => .error .invalidAccountId
      | some account => .ok { workchain, account }

/-- The tag byte for the flags of an address. -/
def tag (bounceable testOnly : Bool) : UInt8 :=
  (if bounceable then 0x11 else 0x51) ||| (if testOnly then 0x80 else 0)

/-- The bytes that the checksum covers. -/
def payload (a : Address) (bounceable testOnly : Bool) : List UInt8 :=
  tag bounceable testOnly :: a.workchain.toUInt8 :: a.account.bytes

/-- A checksum as two bytes, the most significant first. -/
def checksumBytes (bytes : List UInt8) : List UInt8 :=
  Octets.ofNat 2 (Crc16.checksum bytes).toNat

/-- The URL-safe form has no padding, the standard one has. -/
def form (urlSafe : Bool) : Text.Base64.Form :=
  if urlSafe then ⟨.urlSafe, false⟩ else ⟨.standard, true⟩

/-- The user-friendly form, in either alphabet and with any flags. -/
def friendlyWith (a : Address) (urlSafe bounceable testOnly : Bool) : String :=
  let bytes := a.payload bounceable testOnly
  String.ofList (Text.Base64.encode (form urlSafe) (bytes ++ checksumBytes bytes))

/-- The user-friendly form in the URL-safe alphabet with the flags of the address. -/
def friendly (a : Address) : String :=
  a.friendlyWith true a.bounceable a.testOnly

/-- Reads the bytes of the user-friendly form. -/
def ofFriendlyBytes (bytes : List UInt8) : Except AddressFault Address :=
  if bytes.length ≠ 36 then .error (.invalidLength bytes.length)
  else if checksumBytes (bytes.take 34) ≠ bytes.drop 34 then .error .invalidChecksum
  else
    match bytes with
    | first :: workchain :: rest =>
      let flags := first &&& 0x7F
      if flags = 0x11 ∨ flags = 0x51 then
        match Digest.ofBytes? (rest.take 32) with
        | some account =>
          .ok ⟨workchain.toInt8, account, flags = 0x11, first &&& 0x80 ≠ 0⟩
        | none => .error (.invalidLength bytes.length)
      else .error (.invalidTag first)
    | _ => .error (.invalidLength bytes.length)

/-- Reads the user-friendly form in either alphabet. -/
def ofFriendly (text : List Char) : Except AddressFault Address :=
  match Text.Base64.decode (form true) text with
  | some bytes => ofFriendlyBytes bytes
  | none =>
    match Text.Base64.decode (form false) text with
    | some bytes => ofFriendlyBytes bytes
    | none => .error .badFormat

/-- Reads either form: text with a colon is raw. -/
def ofText (text : List Char) : Except AddressFault Address :=
  if text.isEmpty then .error .empty
  else if text.contains ':' then ofRaw text
  else ofFriendly text

end CellBag.Address
