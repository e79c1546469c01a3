import CellBag.Proofs.Outcome
import CellBag.Proofs.TwosComplement
import Mathlib

/-!
# Read bits

What the positional readers of numbers give for a range of bits: the number that it denotes, in
two's complement for signed ones (`Bits.natAt_of_le`, `Bits.intAt_of_le`, `Bits.signedWordAt_of_le`).
-/

namespace CellBag

/-- Zeros behind a numeral move its number up. -/
lemma Binary.toNat_append_zeros (bits : List Bool) (k : Nat) :
    toNat (bits ++ List.replicate k false) = toNat bits * 2 ^ k := by
  have zeros : toNat (List.replicate k false) = 0 := by
    induction k with
    | zero => rfl
    | succ k ih => rw [List.replicate_succ, toNat_cons, ih, Bool.toNat_false, Nat.zero_mul]
  rw [toNat_append, zeros, List.length_replicate, Nat.add_zero]

/-- Bytes denote the number of their bits. -/
lemma Octets.toNat_eq (bytes : List UInt8) : toNat bytes = Binary.toNat (unpack bytes) := by
  induction bytes with
  | nil => rfl
  | cons b bytes ih =>
    have octet : Binary.toNat (Binary.ofNat 8 b.toNat) = b.toNat := by
      rw [Binary.toNat_ofNat, Nat.mod_eq_of_lt b.toNat_lt]
    rw [toNat_cons, ih, unpack_cons, Binary.toNat_append, octet, length_unpack, Nat.pow_mul]

namespace Bits
variable {b : Bits} {offset width : Nat}

/-- The number of the packed bits, without the zeros that fill up the last byte. -/
lemma toNat_pack_shift (bits : List Bool) :
    Octets.toNat (Octets.pack bits) >>> (8 * (Octets.pack bits).length - bits.length) =
      Binary.toNat bits := by
  rw [Octets.toNat_eq, Octets.unpack_pack, Octets.length_pack, Binary.toNat_append_zeros,
    Nat.shiftRight_eq_div_pow]
  exact Nat.mul_div_cancel _ (Nat.two_pow_pos _)

/-- A natural number is read from the range where its bits are. -/
lemma natAt_of_le (within : offset ≤ b.length) (le : width ≤ b.length - offset) :
    b.natAt offset width = .ok (Binary.toNat (b.range offset width)) := by
  have shifted := toNat_pack_shift (b.range offset width)
  rw [length_range le] at shifted
  rw [natAt, bytesAt_of_le within le, Outcome.ok_bind, shifted]
  rfl

/-- An integer is read from the range where its bits are. -/
lemma intAt_of_le (within : offset ≤ b.length) (le : width ≤ b.length - offset) :
    b.intAt offset width = .ok (Binary.toInt (b.range offset width)) := by
  rw [intAt, natAt_of_le within le, Outcome.ok_bind, Binary.toInt_eq, length_range le]
  rfl

/-- A signed word is read from the range where its bits are. -/
lemma signedWordAt_of_le {w : Nat} (fits : width ≤ w) (le : width ≤ b.length - offset) :
    b.signedWordAt w offset width = .ok (BitVec.ofInt w (Binary.toInt (b.range offset width))) := by
  have len := length_range le
  have extended := toInt_extendSign (len.le.trans fits)
  rw [len] at extended
  rw [signedWordAt, wordAt_of_le fits le, Outcome.ok_bind, ← extended, BitVec.ofInt_toInt]
  rfl

end Bits

end CellBag
