/-!
# CRC-32

The cyclic redundancy check of 32 bits with the reflected polynomial 0xEDB88320, least significant
bit first, complemented before and after. It protects a serialized bag of cells.
-/

namespace CellBag.Crc32

/-- One step of the division: shifts the remainder and subtracts the polynomial when a one falls
out. -/
def shift (crc : UInt32) : UInt32 :=
  if crc &&& 1 = 0 then crc >>> 1 else (crc >>> 1) ^^^ 0xEDB88320

/-- `n` steps of the division. -/
def shifts : Nat → UInt32 → UInt32
  | 0, crc => crc
  | n + 1, crc => shifts n (shift crc)

/-- The remainder after one more byte. -/
def step (crc : UInt32) (byte : UInt8) : UInt32 :=
  shifts 8 (crc ^^^ byte.toUInt32)

/-- The remainder after more bytes. -/
def update (crc : UInt32) (bytes : List UInt8) : UInt32 :=
  bytes.foldl step crc

/-- Reading bytes in two parts gives the same remainder. -/
theorem update_append (crc : UInt32) (xs ys : List UInt8) :
    update crc (xs ++ ys) = update (update crc xs) ys :=
  List.foldl_append

/-- The checksum of bytes. -/
def checksum (bytes : List UInt8) : UInt32 :=
  update 0xFFFFFFFF bytes ^^^ 0xFFFFFFFF

end CellBag.Crc32
