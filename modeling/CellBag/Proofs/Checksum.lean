import CellBag.Checksum.Crc32
import Mathlib

/-!
# Checksums of changed bytes

Each step of the division can be undone (`Crc32.shift_injective`), and so can the reading of bytes.
Bytes that differ in one byte have different checksums, therefore (`Crc32.checksum_change`).
-/

namespace CellBag.Crc32

/-- The last bit of a checksum is a zero if a mask leaves nothing. -/
lemma and_one_eq_zero {crc : UInt32} : crc &&& 1 = 0 ↔ crc.toBitVec.getLsbD 0 = false := by
  have low : (crc &&& 1).toBitVec = (BitVec.ofBool (crc.toBitVec.getLsbD 0)).setWidth 32 := by
    rw [UInt32.toBitVec_and]
    exact BitVec.and_one_eq_setWidth_ofBool_getLsbD
  rw [← UInt32.toBitVec_inj, low]
  cases crc.toBitVec.getLsbD 0 with
  | false => exact ⟨fun _ => rfl, fun _ => rfl⟩
  | true => exact ⟨fun e => absurd e (by decide), by rintro ⟨⟩⟩

/-- A bit of a shifted remainder is the one above it, changed by the polynomial if a one falls
out. -/
lemma getLsbD_shift (crc : UInt32) (i : Nat) :
    (shift crc).toBitVec.getLsbD i = (crc.toBitVec.getLsbD (i + 1) ^^
      (crc.toBitVec.getLsbD 0 && (0xEDB88320 : BitVec 32).getLsbD i)) := by
  rw [shift]
  split
  case isTrue even =>
    rw [and_one_eq_zero.1 even]
    simp [BitVec.getLsbD_ushiftRight, Nat.add_comm]
  case isFalse odd =>
    rw [and_one_eq_zero, Bool.not_eq_false] at odd
    rw [odd]
    simp [BitVec.getLsbD_ushiftRight, Nat.add_comm]

/-- Checksums that differ still do after a shift. -/
lemma shift_injective : Function.Injective shift := by
  intro a b e
  have bits (i : Nat) := congrArg (fun crc : UInt32 => crc.toBitVec.getLsbD i) e
  simp only [getLsbD_shift] at bits
  -- nothing but the polynomial reaches the highest bit, so that this bit says what has fallen out
  have low : a.toBitVec.getLsbD 0 = b.toBitVec.getLsbD 0 := by
    have top := bits 31
    rw [BitVec.getLsbD_of_ge a.toBitVec 32 (Nat.le_refl _),
      BitVec.getLsbD_of_ge b.toBitVec 32 (Nat.le_refl _)] at top
    simpa using top
  apply UInt32.toBitVec_inj.1
  apply BitVec.eq_of_getLsbD_eq
  intro i _
  cases i with
  | zero => exact low
  | succ i =>
    have here := bits i
    rw [low] at here
    exact Bool.xor_left_inj.1 here

/-- Checksums that differ still do after any number of shifts. -/
lemma shifts_injective (n : Nat) : Function.Injective (shifts n) := by
  induction n with
  | zero => exact fun _ _ e => e
  | succ n ih => exact ih.comp shift_injective

/-- Checksums that differ still do behind the same bytes. -/
lemma update_injective (bytes : List UInt8) : Function.Injective (update · bytes) := by
  induction bytes with
  | nil => exact fun _ _ e => e
  | cons b bytes ih =>
    intro x y e
    have e : step x b = step y b := ih e
    exact (UInt32.xor_left_inj _).1 (shifts_injective 8 e)

/-- Bytes that differ are told apart behind the same checksum. -/
lemma step_injective (crc : UInt32) : Function.Injective (step crc) := by
  intro a b e
  have e := (UInt32.xor_right_inj _).1 (shifts_injective 8 e)
  have e := congrArg UInt32.toNat e
  rw [UInt8.toNat_toUInt32, UInt8.toNat_toUInt32] at e
  exact UInt8.toNat_inj.1 e

/-- A change of one byte changes the checksum. -/
theorem checksum_change {pre post : List UInt8} {a b : UInt8} :
    checksum (pre ++ a :: post) = checksum (pre ++ b :: post) ↔ a = b := by
  constructor
  · intro e
    rw [checksum, checksum, update_append, update_append] at e
    have e := (UInt32.xor_left_inj _).1 e
    exact step_injective _ (update_injective post e)
  · rintro rfl
    rfl

end CellBag.Crc32
