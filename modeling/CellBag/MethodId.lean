import CellBag.Checksum.Crc16
import CellBag.Text.Blank

/-!
# Method identifiers

A method that can be called by name has the checksum of that name, with bit 16 set, for a number.
-/

namespace CellBag.MethodId

/-- The number of the method with a name. -/
def ofName (name : String) : Nat :=
  (Crc16.checksum (Text.utf8 name)).toNat ||| 0x10000

end CellBag.MethodId
