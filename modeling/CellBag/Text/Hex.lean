/-!
# Hexadecimal text

Bytes as two digits each. Writing uses lower-case digits unless asked otherwise; reading takes
both cases and says where the first character that is no digit stands.
-/

namespace CellBag.Text.Hex

/-- The digit for a value below sixteen. -/
def digit (upper : Bool) (n : Nat) : Char :=
  if n < 10 then Char.ofNat (48 + n) else Char.ofNat ((if upper then 55 else 87) + n)

/-- The value of a digit in either case. -/
def value? (code : UInt8) : Option Nat :=
  if 48 ≤ code ∧ code ≤ 57 then some (code.toNat - 48)
  else if 65 ≤ code ∧ code ≤ 70 then some (code.toNat - 55)
  else if 97 ≤ code ∧ code ≤ 102 then some (code.toNat - 87)
  else none

/-- Two digits for each byte. -/
def encode (upper : Bool) (bytes : List UInt8) : List Char :=
  bytes.flatMap fun b => [digit upper (b.toNat / 16), digit upper (b.toNat % 16)]

/-- Lower-case hexadecimal text. -/
def lower (bytes : List UInt8) : String :=
  String.ofList (encode false bytes)

/-- What is wrong with hexadecimal text: a byte of it that is no digit, and its position. -/
inductive Fault where
  | oddLength
  | notDigit (code : UInt8) (position : Nat)
deriving DecidableEq

/-- Reads digits two by two from a position on. -/
def decodeFrom : Nat → List UInt8 → Except Fault (List UInt8)
  | _, [] => .ok []
  | _, [_] => .error .oddLength
  | position, high :: low :: rest =>
    match value? high, value? low with
    | none, _ => .error (.notDigit high position)
    | _, none => .error (.notDigit low (position + 1))
    | some h, some l => (decodeFrom (position + 2) rest).map (UInt8.ofNat (16 * h + l) :: ·)

/-- Reads hexadecimal text, given as its UTF-8 bytes. An odd length is reported before any
character. -/
def decode (text : List UInt8) : Except Fault (List UInt8) :=
  if text.length % 2 = 1 then .error .oddLength else decodeFrom 0 text

/-- A byte shown as a quoted character: control characters and the other codes without a visible
form are escaped. -/
def quote (code : UInt8) : String :=
  let shown :=
    if code = 0 then "\\0"
    else if code = 9 then "\\t"
    else if code = 10 then "\\n"
    else if code = 13 then "\\r"
    else if code = 39 then "\\'"
    else if code = 92 then "\\\\"
    else if code < 32 ∨ 127 ≤ code ∧ code ≤ 160 ∨ code = 173 then
      "\\u\x7b" ++ String.ofList (Nat.toDigits 16 code.toNat) ++ "\x7d"
    else String.singleton (Char.ofNat code.toNat)
  "'" ++ shown ++ "'"

/-- The text of a fault. -/
def Fault.message : Fault → String
  | .oddLength => "Odd number of digits"
  | .notDigit code position => s!"Invalid character {quote code} at position {position}"

end CellBag.Text.Hex
