/-!
# CRC-16

The cyclic redundancy check of 16 bits with the polynomial 0x1021, most significant bit first,
starting from zero. It protects the text form of an address and names methods.
-/

namespace CellBag.Crc16

/-- One step of the division: shifts the remainder and subtracts the polynomial when a one falls
out. -/
def shift (crc : UInt16) : UInt16 :=
  if crc &&& 0x8000 = 0 then crc <<< 1 else (crc <<< 1) ^^^ 0x1021

/-- `n` steps of the division. -/
def shifts : Nat → UInt16 → UInt16
  | 0, crc => crc
  | n + 1, crc => shifts n (shift crc)

/-- The remainder after one more byte. -/
def step (crc : UInt16) (byte : UInt8) : UInt16 :=
  shifts 8 (crc ^^^ (byte.toUInt16 <<< 8))

/-- The remainder after more bytes. -/
def update (crc : UInt16) (bytes : List UInt8) : UInt16 :=
  bytes.foldl step crc

/-- Reading bytes in two parts gives the same remainder. -/
theorem update_append (crc : UInt16) (xs ys : List UInt8) :
    update crc (xs ++ ys) = update (update crc xs) ys :=
  List.foldl_append

/-- The checksum of bytes. -/
def checksum (bytes : List UInt8) : UInt16 :=
  update 0 bytes

end CellBag.Crc16
