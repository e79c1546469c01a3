import CellBag.Bag.Decode
import CellBag.Text.Base64

/-!
# Text of bags

A bag with one root as hexadecimal text, in which blanks do not matter, or in base 64.
-/

namespace CellBag.Bag

/-- Text without its blanks. -/
def compact (text : List Char) : List Char :=
  text.filter fun c => !Text.isBlank c

/-- Bytes in hexadecimal text without blanks. -/
def bytesOfHex (text : List Char) : Except Error (List UInt8) :=
  match Text.Hex.decode (Text.utf8 (String.ofList text)) with
  | .ok bytes => .ok bytes
  | .error fault => .error (.encoding (.hex fault))

/-- Bytes in base 64 of any form. -/
def bytesOfBase64 (text : List Char) : Except Error (List UInt8) :=
  match Text.Base64.decodeAny text with
  | some bytes => .ok bytes
  | none => .error (.encoding .base64)

/-- The only root of a bag within the usual limits. -/
def rootOfBytes (bytes : List UInt8) : Except Error Cell :=
  (decodeOne bytes {}).mapError Error.bag

/-- The only root of a bag in hexadecimal text. -/
def ofHex (text : List Char) : Except Error Cell := do
  rootOfBytes (← bytesOfHex (compact text))

/-- The only root of a bag in base 64. -/
def ofBase64 (text : List Char) : Except Error Cell := do
  rootOfBytes (← bytesOfBase64 text)

end CellBag.Bag
