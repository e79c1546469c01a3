import CellBag.Proofs.Bits.Read
import CellBag.Proofs.Bits.Write
import Mathlib

/-!
# Words and numbers

A word is checked by its bits and read bit by bit, and a number of any width is checked by its
magnitude and read from bytes. Where both are possible they have the same outcome: what is written
(`Bits.Write.spelling_word`, `Bits.Write.spelling_wide`, `Bits.Write.spelling_signedWord`), what is
read (`Bits.map_wordAt`, `Bits.map_signedWordAt`), and the error otherwise (`Bits.words_agree`).
-/

namespace CellBag.Bits

namespace Write

/-- The numeral of a word is that of its number, in any width. -/
lemma numeralOf_eq {w : Nat} (x : BitVec w) (width : Nat) :
    numeralOf x width = (nat x.toNat width).spelling := by
  rw [numeralOf, spelling, Binary.ofWord_setWidth]
  rcases Nat.lt_or_ge x.toNat (2 ^ width) with lt | ge
  · have narrow : ¬ width < Binary.width x.toNat := Nat.not_lt.2 (Binary.width_le lt)
    rw [if_neg ((fitsWord_iff x width).2 lt), if_neg narrow]
  · have wide : width < Binary.width x.toNat := by
      rw [← Nat.not_le, Binary.width_le_iff]
      exact Nat.not_lt.2 ge
    have cut : width < w ∧ x >>> width ≠ 0 := by
      by_contra fits
      exact Nat.not_lt.2 ge ((fitsWord_iff x width).1 fits)
    rw [if_pos cut, if_pos wide]

/-- A word is spelled as the natural number that it denotes. -/
lemma spelling_word (x : BitVec 64) (width : Nat) :
    (word x width).spelling = (nat x.toNat width).spelling :=
  numeralOf_eq x width

/-- A wide word is spelled as the natural number that it denotes. -/
lemma spelling_wide (x : BitVec 128) (width : Nat) :
    (wide x width).spelling = (nat x.toNat width).spelling :=
  numeralOf_eq x width

/-- A signed word is spelled as the integer that it denotes, in any width. -/
lemma spelling_signedWord (x : BitVec 64) (width : Nat) :
    (signedWord x width).spelling = (int x.toInt width).spelling := by
  have fits : fitsSigned x width = fitsInt x.toInt width := by
    rw [Bool.eq_iff_iff, fitsSigned_iff, fitsInt_iff]
  -- a word is extended by its sign to the word with the same integer
  have extended : Binary.ofWord (x.signExtend width) = Binary.ofInt width x.toInt := rfl
  rw [spelling, spelling, fits, extended]

/-- Writes with the same spelling have the same outcome. -/
lemma run_congr {v v' : Write} (same : v.spelling = v'.spelling) (b : Bits) : v.run b = v'.run b := by
  rw [run_eq, run_eq, same]

end Write

section Reading
variable {b : Bits} {offset width w : Nat}

/-- A natural number cannot be read when fewer bits are left. -/
lemma natAt_of_lt (h : b.length - offset < width) :
    b.natAt offset width = .error (.underrun .bits width (b.length - offset)) := by
  rw [natAt, bytesAt_of_lt h]
  rfl

/-- An integer cannot be read when fewer bits are left. -/
lemma intAt_of_lt (h : b.length - offset < width) :
    b.intAt offset width = .error (.underrun .bits width (b.length - offset)) := by
  rw [intAt, natAt_of_lt h]
  rfl

/-- A signed word cannot be read when fewer bits are left. -/
lemma signedWordAt_of_lt (fits : width ≤ w) (h : b.length - offset < width) :
    b.signedWordAt w offset width = .error (.underrun .bits width (b.length - offset)) := by
  rw [signedWordAt, wordAt_of_lt fits h]
  rfl

/-- A word that is wide enough is read as a natural number is. -/
lemma map_wordAt (fits : width ≤ w) (within : offset ≤ b.length) :
    (b.wordAt w offset width).map BitVec.toNat = b.natAt offset width := by
  rcases Nat.lt_or_ge (b.length - offset) width with lt | le
  · rw [wordAt_of_lt fits lt, natAt_of_lt lt]
    rfl
  · have small := Binary.toNat_lt (b.range offset width)
    rw [length_range le] at small
    have below : Binary.toNat (b.range offset width) < 2 ^ w :=
      Nat.lt_of_lt_of_le small (Nat.pow_le_pow_right (by decide) fits)
    rw [wordAt_of_le fits le, natAt_of_le within le, Except.map, BitVec.toNat_ofNat,
      Nat.mod_eq_of_lt below]

/-- A signed word that is wide enough is read as an integer is. -/
lemma map_signedWordAt (fits : width ≤ w) (within : offset ≤ b.length) :
    (b.signedWordAt w offset width).map BitVec.toInt = b.intAt offset width := by
  rcases Nat.lt_or_ge (b.length - offset) width with lt | le
  · rw [signedWordAt_of_lt fits lt, intAt_of_lt lt]
    rfl
  · have range := Binary.inRange_toInt (b.range offset width)
    rw [length_range le] at range
    rw [signedWordAt_of_le fits le, intAt_of_le within le, Except.map, BitVec.toInt_ofInt,
      Binary.inRange_iff_bmod.1 (range.mono fits)]

end Reading

/-- A word is written in any width as the number that it denotes is, also after it has been made one
of 128 bits, and a signed word as its integer is. Words of at most 64 bits are read as numbers are.
The errors are the same ones. -/
theorem words_agree (b : Bits) :
    (∀ (x : BitVec 64) (width : Nat),
      b.writeWord x width = b.writeNat x.toNat width ∧
      b.writeWide (x.setWidth 128) width = b.writeNat x.toNat width) ∧
    (∀ (x : BitVec 64) (width : Nat), b.writeSignedWord x width = b.writeInt x.toInt width) ∧
    ∀ offset width : Nat, offset ≤ b.length → width ≤ 64 →
      (b.wordAt 64 offset width).map BitVec.toNat = b.natAt offset width ∧
      (b.wordAt 128 offset width).map BitVec.toNat = b.natAt offset width ∧
      (b.signedWordAt 64 offset width).map BitVec.toInt = b.intAt offset width := by
  refine ⟨fun x width => ⟨?_, ?_⟩, fun x width => ?_, fun offset width within narrow => ?_⟩
  · exact Write.run_congr (Write.spelling_word x width) b
  · have same : (x.setWidth 128).toNat = x.toNat := BitVec.toNat_setWidth_of_le (by decide)
    rw [← same]
    exact Write.run_congr (Write.spelling_wide (x.setWidth 128) width) b
  · exact Write.run_congr (Write.spelling_signedWord x width) b
  · have wider : width ≤ 128 := Nat.le_trans narrow (by decide)
    exact ⟨map_wordAt narrow within, map_wordAt wider within, map_signedWordAt narrow within⟩

/-- All 64 bits of the least word behind a one, and no bits behind the last one. -/
theorem words_agree_least :
    ∃ b : Bits, b.toList = true :: true :: List.replicate 63 false ∧ 1 ≤ b.length ∧ 65 ≤ b.length ∧
      b.intAt 1 64 = .ok (-2 ^ 63) ∧
      (b.signedWordAt 64 1 64).map BitVec.toInt = b.intAt 1 64 ∧
      (b.wordAt 128 65 0).map BitVec.toNat = b.natAt 65 0 := by
  let b : Bits := ⟨true :: true :: List.replicate 63 false, by decide⟩
  have first : 1 ≤ b.length := by decide
  have last : 65 ≤ b.length := by decide
  exact ⟨b, rfl, first, last, by decide +kernel, ((words_agree b).2.2 1 64 first (by decide)).2.2,
    ((words_agree b).2.2 65 0 last (by decide)).2.1⟩

end CellBag.Bits
