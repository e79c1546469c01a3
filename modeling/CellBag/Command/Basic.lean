import CellBag.Bag.Text

/-!
# Commands

What the command line can be asked to do.
-/

namespace CellBag.Command

/-- How the text of a bag is to be read. -/
inductive Format where
  /-- hexadecimal if it has only digits in pairs, base 64 otherwise -/
  | auto
  | hex
  | base64
deriving DecidableEq

/-- The format with a name. -/
def Format.ofName? : String → Option Format
  | "auto" => some .auto
  | "hex" => some .hex
  | "base64" => some .base64
  | _ => none

/-- What is to be done. -/
inductive Action where
  /-- prints the tree of cells below each root of a bag -/
  | decode (bag : String)
  /-- prints the hash of each root of a bag -/
  | hash (bag : String)
  /-- writes a bag anew -/
  | encode (bag : String) (checksum : Option Bool) (index base64 : Bool)
  /-- prints the forms of an address -/
  | address (text : String) (bounceable testOnly : Bool)
  /-- prints the number of a method -/
  | methodId (name : String)
deriving DecidableEq

/-- A whole command line. -/
structure Invocation where
  config : Option String
  format : Format
  action : Action
deriving DecidableEq

end CellBag.Command
