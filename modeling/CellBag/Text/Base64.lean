import CellBag.Octets
import CellBag.Text.Blank

/-!
# Base 64

Bytes as characters of six bits each, in the standard and in the URL-safe alphabet, with or without
padding. Reading is strict: padding is there exactly when it is asked for, and the bits that fill
the last character are zero, so that each byte string has one text in each form.
-/

namespace CellBag.Text.Base64

/-- The two alphabets: they differ in the last two characters. -/
inductive Alphabet where
  | standard
  | urlSafe
deriving DecidableEq

/-- The character for a value below sixty-four. -/
def Alphabet.digit (alphabet : Alphabet) (n : Nat) : Char :=
  if n < 26 then Char.ofNat (65 + n)
  else if n < 52 then Char.ofNat (71 + n)
  else if n < 62 then Char.ofNat (n - 4)
  else match alphabet with
    | .standard => if n = 62 then '+' else '/'
    | .urlSafe => if n = 62 then '-' else '_'

/-- The value of a character of the alphabet. -/
def Alphabet.value? (alphabet : Alphabet) (c : Char) : Option Nat :=
  let n := c.toNat
  if 65 ≤ n ∧ n ≤ 90 then some (n - 65)
  else if 97 ≤ n ∧ n ≤ 122 then some (n - 71)
  else if 48 ≤ n ∧ n ≤ 57 then some (n + 4)
  else if c = alphabet.digit 62 then some 62
  else if c = alphabet.digit 63 then some 63
  else none

/-- An alphabet, and whether the text is padded to a multiple of four characters. -/
structure Form where
  alphabet : Alphabet
  padded : Bool
deriving DecidableEq

/-- Bits in groups of six, the last group filled up with zeros. -/
def sextets : List Bool → List Nat
  | [] => []
  | a :: b :: c :: d :: e :: f :: rest => Binary.toNat [a, b, c, d, e, f] :: sextets rest
  | short => [Binary.toNat (short ++ List.replicate (6 - short.length) false)]

/-- The padding that completes a number of characters to a multiple of four. -/
def padding (size : Nat) : List Char :=
  List.replicate ((4 - size % 4) % 4) '='

/-- Bytes in base 64. -/
def encode (form : Form) (bytes : List UInt8) : List Char :=
  let digits := (sextets (Octets.unpack bytes)).map form.alphabet.digit
  if form.padded then digits ++ padding digits.length else digits

/-- Reads characters without padding. -/
def decodeDigits (alphabet : Alphabet) (text : List Char) : Option (List UInt8) := do
  let values ← text.mapM alphabet.value?
  let bits := values.flatMap (Binary.ofNat 6)
  let whole := bits.length / 8 * 8
  let filler := bits.drop whole
  if filler.length < 6 ∧ filler.all (!·) then some (Octets.pack (bits.take whole)) else none

/-- Text without at most `count` padding characters at its end. -/
def dropPadding (count : Nat) (text : List Char) : List Char :=
  let tail := text.reverse
  let pads := min count (tail.takeWhile (· = '=')).length
  (tail.drop pads).reverse

/-- Reads bytes in base 64. -/
def decode (form : Form) (text : List Char) : Option (List UInt8) :=
  if form.padded then
    if text.length % 4 = 0 then decodeDigits form.alphabet (dropPadding 2 text) else none
  else decodeDigits form.alphabet text

/-- The form that text seems to be in: a dash or an underscore tells the URL-safe alphabet, and an
equals sign at the end tells padding. -/
def formOf (text : List Char) : Form :=
  ⟨if text.any (fun c => c = '-' || c = '_') then .urlSafe else .standard,
    text.getLast? = some '='⟩

/-- Reads bytes in any form of base 64, with blanks around them. -/
def decodeAny (text : List Char) : Option (List UInt8) :=
  decode (formOf (trim text)) (trim text)

end CellBag.Text.Base64
