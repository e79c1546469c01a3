import CellBag.Checksum.Crc16
import CellBag.Proofs.Bits.Buffer
import CellBag.Proofs.Bits.Read
import Mathlib

/-!
# Bursts

The remainder of sixteen bits is fed bit by bit (`Crc16.update_eq`), and up to sixteen bits can be
told from what they do to it (`Crc16.foldl_push_inj`). So bytes that carry their checksum behind
them are not damaged within sixteen bits in a row without a trace (`Crc16.burst`).
-/

namespace CellBag.Crc16

/-- The word in which only the first bit can be set. -/
def top (bit : Bool) : UInt16 :=
  if bit then 0x8000 else 0

/-- The remainder after one more bit. -/
def push (crc : UInt16) (bit : Bool) : UInt16 :=
  shift (crc ^^^ top bit)

/-- The word that begins with these bits, with zeros behind them. -/
def leading : List Bool → UInt16
  | [] => 0
  | bit :: bits => top bit ^^^ leading bits >>> 1

section Shift

/-- The first bit of a checksum is a zero if a mask leaves nothing. -/
lemma and_top_eq_zero {crc : UInt16} : crc &&& 0x8000 = 0 ↔ crc.toBitVec.getMsbD 0 = false := by
  have high : (crc &&& 0x8000).toBitVec =
      if crc.toBitVec.getLsbD 15 = true then BitVec.twoPow 16 15 else 0 := by
    rw [UInt16.toBitVec_and]
    exact BitVec.and_twoPow crc.toBitVec 15
  have bit : crc.toBitVec.getMsbD 0 = crc.toBitVec.getLsbD 15 := BitVec.getMsbD_eq_getLsbD _ 0
  rw [← UInt16.toBitVec_inj, high, bit]
  cases crc.toBitVec.getLsbD 15 with
  | false => exact ⟨fun _ => rfl, fun _ => rfl⟩
  | true => exact ⟨fun e => absurd e (by decide), by rintro ⟨⟩⟩

/-- A bit of a shifted remainder is the one behind it, changed by the polynomial if a one falls
out. -/
lemma getMsbD_shift (crc : UInt16) (i : Nat) :
    (shift crc).toBitVec.getMsbD i = (crc.toBitVec.getMsbD (i + 1) ^^
      (crc.toBitVec.getMsbD 0 && (0x1021 : BitVec 16).getMsbD i)) := by
  have moved : (crc <<< 1).toBitVec.getMsbD i = crc.toBitVec.getMsbD (i + 1) :=
    BitVec.getMsbD_shiftLeft crc.toBitVec 1
  rw [shift]
  split
  case isTrue clear =>
    rw [and_top_eq_zero.1 clear, moved, Bool.false_and, Bool.xor_false]
  case isFalse set =>
    rw [and_top_eq_zero, Bool.not_eq_false] at set
    rw [set, UInt16.toBitVec_xor, BitVec.getMsbD_xor, moved, Bool.true_and]
    rfl

/-- Checksums that differ still do after a shift. -/
lemma shift_injective : Function.Injective shift := by
  intro a b e
  have bits (i : Nat) := congrArg (fun crc : UInt16 => crc.toBitVec.getMsbD i) e
  simp only [getMsbD_shift] at bits
  -- nothing but the polynomial reaches the last bit, so that this bit says what has fallen out
  have first : a.toBitVec.getMsbD 0 = b.toBitVec.getMsbD 0 := by
    have last := bits 15
    rw [BitVec.getMsbD_of_ge a.toBitVec 16 (Nat.le_refl _),
      BitVec.getMsbD_of_ge b.toBitVec 16 (Nat.le_refl _)] at last
    simpa using last
  apply UInt16.toBitVec_inj.1
  apply BitVec.eq_of_getMsbD_eq
  intro i _
  cases i with
  | zero => exact first
  | succ i =>
    have here := bits i
    rw [first] at here
    exact Bool.xor_left_inj.1 here

/-- Checksums that differ still do after any number of shifts. -/
lemma shifts_injective (n : Nat) : Function.Injective (shifts n) := by
  induction n with
  | zero => exact fun _ _ e => e
  | succ n ih => exact ih.comp shift_injective

/-- A checksum of zero stays zero. -/
lemma shifts_zero (n : Nat) : shifts n 0 = 0 := by
  induction n with
  | zero => rfl
  | succ n ih => exact ih

/-- Half of a word has its bits one place further back. -/
lemma getMsbD_half (word : UInt16) (i : Nat) :
    (word >>> 1).toBitVec.getMsbD i =
      (decide (i < 16) && (!decide (i < 1) && word.toBitVec.getMsbD (i - 1))) :=
  BitVec.getMsbD_ushiftRight

/-- A word that waits behind the first bit of the remainder moves up unchanged, if it ends with a
zero. -/
lemma shift_xor_half {crc word : UInt16} (even : word.toBitVec.getMsbD 15 = false) :
    shift (crc ^^^ word >>> 1) = shift crc ^^^ word := by
  apply UInt16.toBitVec_inj.1
  apply BitVec.eq_of_getMsbD_eq
  intro i lt
  rw [UInt16.toBitVec_xor, BitVec.getMsbD_xor, getMsbD_shift, getMsbD_shift, UInt16.toBitVec_xor,
    BitVec.getMsbD_xor, BitVec.getMsbD_xor, getMsbD_half, getMsbD_half]
  have behind : (decide (i + 1 < 16) && word.toBitVec.getMsbD i) = word.toBitVec.getMsbD i := by
    by_cases last : i + 1 < 16
    · rw [decide_eq_true last, Bool.true_and]
    · have here : i = 15 := by omega
      rw [here, even, Bool.and_false]
  simp only [Nat.add_sub_cancel, Nat.not_lt_of_le (Nat.le_add_left 1 i), decide_false,
    Bool.not_false, Bool.true_and, Nat.lt_one_iff, decide_true, Bool.not_true, Bool.false_and,
    Bool.and_false, Bool.xor_false, Bool.xor_assoc, behind]
  rw [Bool.xor_comm (word.toBitVec.getMsbD i)]

end Shift

section Leading
variable {bits bits' : List Bool}

/-- Only the first bit of a word with a bit at its top may be a one. -/
lemma getMsbD_top (bit : Bool) (i : Nat) :
    (top bit).toBitVec.getMsbD i = (decide (i = 0) && bit) := by
  have one : (0x8000 : BitVec 16).getMsbD i = decide (i = 0) := by
    rw [BitVec.getMsbD_eq_getLsbD, show (0x8000 : BitVec 16) = BitVec.twoPow 16 15 from rfl,
      BitVec.getLsbD_twoPow]
    by_cases h : i = 0
    · rw [h]
      rfl
    · by_cases lt : i < 16
      · simp [h]
        omega
      · simp [h, lt]
  cases bit with
  | false => rw [Bool.and_false]; exact BitVec.getMsbD_zero
  | true => rw [Bool.and_true]; exact one

/-- A word has the bits that it leads with, and zeros behind them. -/
lemma getMsbD_leading (few : bits.length ≤ 16) (i : Nat) :
    (leading bits).toBitVec.getMsbD i = bits.getD i false := by
  induction bits generalizing i with
  | nil => exact BitVec.getMsbD_zero
  | cons bit bits ih =>
    rw [leading, UInt16.toBitVec_xor, BitVec.getMsbD_xor, getMsbD_top, getMsbD_half]
    rw [List.length_cons] at few
    cases i with
    | zero => simp
    | succ i =>
      rw [Nat.add_sub_cancel, ih (by omega), List.getD_cons_succ]
      by_cases lt : i + 1 < 16
      · simp [lt]
      · rw [List.getD_eq_default _ _ (by omega)]
        simp

/-- As many bits as the word has are told apart by it. -/
lemma leading_inj (len : bits.length = bits'.length) (few : bits.length ≤ 16)
    (e : leading bits = leading bits') : bits = bits' := by
  apply List.ext_getElem len
  intro i lt lt'
  have here := getMsbD_leading few i
  rw [e, getMsbD_leading (len ▸ few) i, List.getD_eq_getElem _ _ lt, List.getD_eq_getElem _ _ lt']
    at here
  exact here.symm

/-- A word begins with its own bits. -/
lemma leading_ofNat (word : UInt16) : leading (Binary.ofNat 16 word.toNat) = word := by
  apply UInt16.toBitVec_inj.1
  apply BitVec.eq_of_getMsbD_eq
  intro i lt
  rw [getMsbD_leading (Binary.length_ofNat ..).le, Binary.getD_ofNat lt, BitVec.getMsbD_eq_getLsbD,
    decide_eq_true lt]
  rfl

/-- A word that leads with the bits of a byte has it as its high byte. -/
lemma leading_byte (byte : UInt8) :
    leading (Binary.ofNat 8 byte.toNat) = byte.toUInt16 <<< 8 := by
  have all : ∀ byte : UInt8, leading (Binary.ofNat 8 byte.toNat) = byte.toUInt16 <<< 8 := by
    decide +kernel
  exact all byte

end Leading

section Feed
variable {bits bits' : List Bool}

/-- Up to sixteen bits may be added to the remainder at once. -/
lemma foldl_push (crc : UInt16) (few : bits.length ≤ 16) :
    bits.foldl push crc = shifts bits.length (crc ^^^ leading bits) := by
  induction bits generalizing crc with
  | nil => rw [leading, UInt16.xor_zero]; rfl
  | cons bit bits ih =>
    rw [List.length_cons] at few
    -- the last bit of the word is not reached by the bits that are left
    have even : (leading bits).toBitVec.getMsbD 15 = false := by
      rw [getMsbD_leading (by omega), List.getD_eq_default _ _ (by omega)]
    rw [List.foldl_cons, ih _ (by omega), List.length_cons, shifts, leading, ← UInt16.xor_assoc,
      shift_xor_half even, push]

/-- Up to sixteen bits are told apart by the remainder after them. -/
lemma foldl_push_inj {crc : UInt16} (len : bits.length = bits'.length) (few : bits.length ≤ 16)
    (e : bits.foldl push crc = bits'.foldl push crc) : bits = bits' := by
  rw [foldl_push crc few, foldl_push crc (len ▸ few), len] at e
  exact leading_inj len few ((UInt16.xor_right_inj _).1 (shifts_injective _ e))

/-- The remainder after some bits tells apart those before them. -/
lemma foldl_push_injective (bits : List Bool) : Function.Injective (bits.foldl push ·) := by
  induction bits with
  | nil => exact fun _ _ e => e
  | cons bit bits ih =>
    intro x y e
    have e : push x bit = push y bit := ih e
    exact (UInt16.xor_left_inj _).1 (shift_injective e)

/-- Bytes are fed bit by bit. -/
lemma update_eq (crc : UInt16) (bytes : List UInt8) :
    update crc bytes = (Octets.unpack bytes).foldl push crc := by
  induction bytes generalizing crc with
  | nil => rfl
  | cons byte bytes ih =>
    have first : (Binary.ofNat 8 byte.toNat).foldl push crc = step crc byte := by
      rw [foldl_push crc (by rw [Binary.length_ofNat]; decide), Binary.length_ofNat, leading_byte]
      rfl
    rw [Octets.unpack_cons, List.foldl_append, first, ← ih]
    rfl

end Feed

section Checked

/-- The two bytes of a word have its bits. -/
lemma unpack_ofNat (word : UInt16) :
    Octets.unpack (Octets.ofNat 2 word.toNat) = Binary.ofNat 16 word.toNat := by
  have number := Octets.toNat_eq (Octets.ofNat 2 word.toNat)
  have bits := Binary.ofNat_toNat (Octets.unpack (Octets.ofNat 2 word.toNat))
  rw [Octets.length_unpack, Octets.length_ofNat, ← number,
    Octets.toNat_ofNat_of_lt word.toNat_lt] at bits
  exact bits.symm

/-- Nothing remains of a remainder that is fed to itself. -/
lemma update_self (crc : UInt16) : update crc (Octets.ofNat 2 crc.toNat) = 0 := by
  rw [update_eq, unpack_ofNat, foldl_push crc (Binary.length_ofNat ..).le, leading_ofNat,
    UInt16.xor_self, shifts_zero]

/-- Bytes leave no remainder when their checksum stands behind them. -/
lemma checksum_append_self (bytes : List UInt8) :
    checksum (bytes ++ Octets.ofNat 2 (checksum bytes).toNat) = 0 := by
  rw [checksum, update_append, ← checksum, update_self]

/-- Bytes with one checksum that differ within sixteen bits in a row are the same. -/
theorem burst {xs ys : List UInt8} {front back burst burst' : List Bool}
    (same : checksum xs = checksum ys) (hx : Octets.unpack xs = front ++ burst ++ back)
    (hy : Octets.unpack ys = front ++ burst' ++ back) (len : burst.length = burst'.length)
    (few : burst.length ≤ 16) : xs = ys := by
  rw [checksum, checksum, update_eq, update_eq, hx, hy, List.foldl_append, List.foldl_append,
    List.foldl_append, List.foldl_append] at same
  have bits := foldl_push_inj len few (foldl_push_injective back same)
  rw [← bits, ← hx] at hy
  rw [← Octets.pack_unpack xs, ← hy, Octets.pack_unpack]

end Checked

end CellBag.Crc16
