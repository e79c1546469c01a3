import CellBag.Proofs.Bits
import Mathlib

/-!
# Two's complement

The integer that a numeral denotes in two's complement, `Binary.toInt`, and the numerals of the
integers in range determine each other (`Binary.toInt_ofInt`, `Binary.ofInt_toInt`). What is checked
before an integer or a word is written is that it is in range (`Bits.fitsInt_iff`,
`Bits.fitsSigned_iff`), and a word whose sign is extended after it was read denotes the integer of
its numeral (`Bits.toInt_extendSign`).
-/

namespace CellBag

namespace Binary

/-- The integer that a list of bits denotes in two's complement: the first bit counts below zero. -/
def toInt : List Bool → Int
  | [] => 0
  | sign :: bits => toNat bits - sign.toNat * 2 ^ bits.length

/-- The integers that have a numeral of this width in two's complement. -/
def InRange (i : Int) (width : Nat) : Prop :=
  -2 ^ width ≤ 2 * i ∧ 2 * i < 2 ^ width

variable {i : Int} {width w : Nat}

/-- An integer in the range of a width is in those of all larger ones. -/
lemma InRange.mono (h : InRange i width) (le : width ≤ w) : InRange i w := by
  have le : (2 : Int) ^ width ≤ 2 ^ w := pow_le_pow_right₀ (by decide) le
  obtain ⟨low, high⟩ := h
  exact ⟨by omega, by omega⟩

/-- A signed word is in the range of its width. -/
lemma inRange_toInt_word (word : BitVec w) : InRange word.toInt w :=
  ⟨BitVec.le_two_mul_toInt, BitVec.two_mul_toInt_lt⟩

/-- The integers in range are those that nothing is cut off. -/
lemma inRange_iff_bmod : InRange i width ↔ i.bmod (2 ^ width) = i := by
  constructor
  · intro h
    obtain ⟨low, high⟩ := h
    apply Int.bmod_eq_of_le_mul_two
    · push_cast
      omega
    · push_cast
      omega
  · intro e
    have word := inRange_toInt_word (BitVec.ofInt width i)
    rwa [BitVec.toInt_ofInt, e] at word

/-- A numeral denotes the same integer as the word that is made of it. -/
lemma toInt_eq (bits : List Bool) :
    toInt bits = (BitVec.ofNat bits.length (toNat bits)).toInt := by
  have lt := toNat_lt bits
  rw [BitVec.toInt_eq_toNat_cond, BitVec.toNat_ofNat, Nat.mod_eq_of_lt lt]
  cases bits with
  | nil => rfl
  | cons sign bits =>
    have below := toNat_lt bits
    rw [toInt, toNat_cons, List.length_cons, Nat.pow_succ]
    cases sign with
    | false =>
      rw [Bool.toNat_false, if_pos (by omega)]
      push_cast
      omega
    | true =>
      rw [Bool.toNat_true, if_neg (by omega)]
      push_cast
      omega

/-- The bits of a signed word denote its integer. -/
@[simp]
lemma toInt_ofWord (word : BitVec w) : toInt (ofWord word) = word.toInt := by
  rw [toInt_eq, ofWord, toNat_ofNat, length_ofNat, Nat.mod_eq_of_lt word.isLt, BitVec.ofNat_toNat,
    BitVec.setWidth_eq]

/-- An integer in range is the one that its numeral denotes. -/
theorem toInt_ofInt (range : InRange i width) : toInt (ofInt width i) = i := by
  have word : ofInt width i = ofWord (BitVec.ofInt width i) := rfl
  rw [word, toInt_ofWord, BitVec.toInt_ofInt]
  exact inRange_iff_bmod.1 range

/-- Each numeral is that of the integer which it denotes. -/
theorem ofInt_toInt (bits : List Bool) : ofInt bits.length (toInt bits) = bits := by
  rw [toInt_eq, ofInt, BitVec.ofInt_toInt, BitVec.toNat_ofNat, Nat.mod_eq_of_lt (toNat_lt bits),
    ofNat_toNat]

/-- Bits denote an integer in the range of their number. -/
lemma inRange_toInt (bits : List Bool) : InRange (toInt bits) bits.length := by
  rw [toInt_eq]
  exact inRange_toInt_word _

end Binary

namespace Bits
open Binary
variable {i : Int} {width w : Nat}

/-- An integer can be written in a width if it is in range. -/
lemma fitsInt_iff : fitsInt i width = true ↔ InRange i width := by
  cases width with
  | zero =>
    rw [fitsInt, decide_eq_true_iff, InRange]
    omega
  | succ width =>
    rw [fitsInt, decide_eq_true_iff, width_le_iff, InRange, ← Nat.cast_lt (α := Int)]
    push_cast
    rw [Int.pow_succ]
    cases i with
    | ofNat n =>
      rw [magnitude, Int.ofNat_eq_natCast]
      omega
    | negSucc n =>
      rw [magnitude, Int.negSucc_eq]
      omega

/-- A signed word can be written in a width if the integer that it denotes is in range. -/
lemma fitsSigned_iff (word : BitVec 64) :
    fitsSigned word width = true ↔ InRange word.toInt width := by
  cases width with
  | zero =>
    have zero : (0 : BitVec 64).toInt = 0 := rfl
    rw [fitsSigned, beq_iff_eq, ← BitVec.toInt_inj, zero, InRange]
    omega
  | succ width =>
    rw [fitsSigned]
    split
    case isTrue narrow =>
      have small : (2 : Int) ^ width ≤ 2 ^ 62 := pow_le_pow_right₀ (by decide) (by omega)
      have pos : (0 : Int) < 2 ^ width := Int.pow_pos (by decide)
      have bound : ((1 : BitVec 64) <<< width).toInt = 2 ^ width := by
        have one : (1 : BitVec 64).toNat = 1 := rfl
        rw [BitVec.toInt_shiftLeft, one, Nat.one_shiftLeft]
        push_cast
        exact Int.bmod_eq_of_le_mul_two (by omega) (by omega)
      have bound' : (-((1 : BitVec 64) <<< width)).toInt = -2 ^ width := by
        rw [BitVec.toInt_neg, bound]
        exact Int.bmod_eq_of_le_mul_two (by omega) (by omega)
      rw [Bool.and_eq_true, BitVec.sle_iff_toInt_le, BitVec.slt_iff_toInt_lt, bound, bound',
        InRange, Int.pow_succ]
      omega
    case isFalse wide =>
      exact iff_of_true rfl ((inRange_toInt_word word).mono (Nat.not_lt.1 wide))

/-- An integer in range is written as a natural number, to which the power of two of the width is
added below zero. -/
lemma ofInt_eq_ofNat (range : InRange i width) :
    (if i < 0 then ((1 <<< width : Nat) + i).natAbs else i.natAbs) < 2 ^ width ∧
      ofInt width i =
        ofNat width (if i < 0 then ((1 <<< width : Nat) + i).natAbs else i.natAbs) := by
  obtain ⟨low, high⟩ := range
  have pos : (0 : Int) < 2 ^ width := Int.pow_pos (by decide)
  have power : ((1 <<< width : Nat) : Int) = 2 ^ width := by
    rw [Nat.one_shiftLeft]
    push_cast
    rfl
  have number : (BitVec.ofInt width i).toNat =
      if i < 0 then ((1 <<< width : Nat) + i).natAbs else i.natAbs := by
    rw [BitVec.toNat_ofInt, power]
    push_cast
    split
    case isTrue below =>
      rw [← Int.add_emod_left, Int.emod_eq_of_lt (by omega) (by omega)]
      omega
    case isFalse =>
      rw [Int.emod_eq_of_lt (by omega) (by omega)]
      omega
  rw [← number, ofInt]
  exact ⟨(BitVec.ofInt width i).isLt, rfl⟩

/-- The bits of a word behind its numeral become copies of the sign. -/
lemma extendSign_ofNat {bits : List Bool} (fits : bits.length ≤ w) :
    extendSign (BitVec.ofNat w (toNat bits)) bits.length =
      (BitVec.ofNat bits.length (toNat bits)).signExtend w := by
  have lt := toNat_lt bits
  rw [extendSign]
  split
  case isTrue whole =>
    cases whole with
    | inl none =>
      rw [List.eq_nil_of_length_eq_zero none]
      rfl
    | inr full =>
      subst full
      rw [BitVec.signExtend_eq_setWidth_of_le _ (Nat.le_refl _), BitVec.setWidth_eq]
  case isFalse part =>
    apply BitVec.eq_of_getLsbD_eq
    intro k within
    have high (k : Nat) (le : bits.length ≤ k) : (toNat bits).testBit k = false :=
      Nat.testBit_lt_two_pow (Nat.lt_of_lt_of_le lt (Nat.pow_le_pow_right (by decide) le))
    have last : bits.length - 1 < bits.length := by omega
    have last' : bits.length - 1 < w := by omega
    rw [BitVec.getLsbD_signExtend, BitVec.msb_eq_getLsbD_last]
    simp only [BitVec.getLsbD_ofNat, last, last', within, decide_true, Bool.true_and]
    have copies : (BitVec.allOnes w <<< bits.length).getLsbD k = !decide (k < bits.length) := by
      simp [within]
    cases (toNat bits).testBit (bits.length - 1) with
    | false =>
      rw [if_neg Bool.false_ne_true, BitVec.getLsbD_ofNat, decide_eq_true within, Bool.true_and]
      split
      case isTrue low => rw [decide_eq_true low, Bool.true_and]
      case isFalse above => exact high k (Nat.not_lt.1 above)
    | true =>
      rw [if_pos rfl, BitVec.getLsbD_or, copies, BitVec.getLsbD_ofNat, decide_eq_true within,
        Bool.true_and]
      split
      case isTrue low => simp only [low, decide_true, Bool.not_true, Bool.or_false, Bool.true_and]
      case isFalse above => rw [decide_eq_false above, Bool.not_false, Bool.or_true]

/-- A word denotes the integer of its numeral after its sign was extended. -/
lemma toInt_extendSign {bits : List Bool} (fits : bits.length ≤ w) :
    (extendSign (BitVec.ofNat w (toNat bits)) bits.length).toInt = toInt bits := by
  rw [extendSign_ofNat fits, BitVec.toInt_signExtend_of_le fits, toInt_eq]

end Bits

end CellBag
