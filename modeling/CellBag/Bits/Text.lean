import CellBag.Bits.Basic
import CellBag.Text.Hex

/-!
# Text of bit strings

Bits as hexadecimal digits. When the bits do not fill whole digits, a one and zeros fill the last
digit and an underscore follows, so that different bit strings have different texts.
-/

namespace CellBag.Bits

/-- Bits in groups of four, the last group filled up with zeros. -/
def nibbles : List Bool → List Nat
  | [] => []
  | a :: b :: c :: d :: rest => Binary.toNat [a, b, c, d] :: nibbles rest
  | short => [Binary.toNat (short ++ List.replicate (4 - short.length) false)]

/-- Upper-case hexadecimal digits of the bits. -/
def hexDigits (b : Bits) : List Char :=
  if b.length % 4 = 0 then (nibbles b.toList).map (Text.Hex.digit true)
  else (nibbles (b.toList ++ [true])).map (Text.Hex.digit true) ++ ['_']

/-- The hexadecimal text of the bits. -/
def hex (b : Bits) : String :=
  String.ofList b.hexDigits

/-- The bits as zeros and ones. -/
def binary (b : Bits) : String :=
  String.ofList (b.toList.map fun bit => if bit then '1' else '0')

/-- The length and the hexadecimal text of the bits. -/
def describe (b : Bits) : String :=
  s!"BitString({b.length}, x\x7b{b.hex}\x7d)"

end CellBag.Bits
