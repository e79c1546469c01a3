import CellBag.Proofs.Bits.Lookup
import Mathlib

/-!
# Parts of a buffer

The bytes of a range hold what is read bit by bit and zeros behind it (`Buffer.Extracts`), and the
parts of a buffer that follow each other make up the buffer again when they are written one after
the other (`Buffer.Joins`), both at every offset up to the end (`Buffer.bytes_agree_with_bits`).
-/

namespace CellBag.Buffer
open Octets

/-- These bytes hold the bits of a range, which are read one by one, and zeros behind them. -/
structure Extracts (b : Buffer) (offset width : Nat) (bytes : List UInt8) : Prop where
  length_eq : bytes.length = Binary.octetsFor width
  bit_eq : ∀ i < width, b.usedBitAt (offset + i) = .ok ((unpack bytes).getD i false)
  padding_eq : ∀ i, width ≤ i → (unpack bytes).getD i false = false

/-- A buffer as the step that writes all its bits at the end of another. -/
def writing (b : Buffer) : Tape.Step := .write (.bits b.bytes b.length)

/-- Two buffers written behind a first one make this buffer. -/
def Joins (front middle back b : Buffer) : Prop :=
  ∃ joined, middle.writing.onBuffer front = .ok () joined ∧
    back.writing.onBuffer joined = .ok () b

section Parts
variable {t : Tape} {offset width : Nat}

/-- Packed, a range of a tape holds what is read there bit by bit. -/
lemma extracts_pack (inside : offset + width ≤ t.bits.length) :
    t.pack.Extracts offset width (pack (t.bits.range offset width)) := by
  have len : (t.bits.range offset width).length = width :=
    Bits.length_range (Nat.le_sub_of_add_le' inside)
  refine ⟨by rw [length_pack, len], ?_, ?_⟩
  · intro i lt
    have used : offset + i < t.bits.toList.length :=
      Nat.lt_of_lt_of_le (Nat.add_lt_add_left lt offset) inside
    have here : i < (t.bits.range offset width).length := len.symm ▸ lt
    rw [usedBitAt_pack, Bits.bitAt, List.getElem?_eq_getElem used, unpack_pack,
      List.getD_append _ _ _ _ here, List.getD_eq_getElem _ _ here]
    simp only [Bits.range, List.getElem_take, List.getElem_drop]
  · intro i le
    rw [unpack_pack, List.getD_append_right _ _ _ _ (len.symm ▸ le), List.getD_eq_getElem?_getD,
      List.getElem?_replicate]
    split
    · rfl
    · rfl

/-- Bits are written behind others out of the bytes that hold them. -/
lemma writing_pack {xs ys joined : Bits} (e : joined.toList = xs.toList ++ ys.toList) :
    (Tape.ofBits ys).pack.writing.onBuffer (Tape.ofBits xs).pack =
      .ok () (Tape.ofBits joined).pack := by
  have room : (Bits.Write.all ys).run (Tape.ofBits xs).bits = .ok joined :=
    Bits.Write.append_eq_ok.2 e
  have run : Tape.write (Bits.Write.run (.all ys)) (Tape.ofBits xs) = .ok () (Tape.ofBits joined) := by
    rw [Tape.write, room]
    rfl
  have within : (Tape.ofBits xs).position ≤ (Tape.ofBits xs).bits.length := Nat.zero_le _
  have step := (Tape.Step.write (.all ys)).onBuffer_pack within
  exact step.trans (congrArg Tape.packOutcome run)

/-- The parts before a range, in it and behind it make up the buffer. -/
lemma joins_pack (t : Tape) {part : Bits} (inside : offset + width ≤ t.bits.length)
    (bits : part.toList = t.bits.range offset width) :
    ∃ front back, t.pack.substring 0 offset = .ok front ∧
      t.pack.substring (offset + width) (t.bits.length - offset - width) = .ok back ∧
      Joins front (Tape.ofBits part).pack back { t.pack with position := 0 } := by
  have before : offset ≤ t.bits.length - 0 := Nat.le_of_add_right_le inside
  have behind : t.bits.length - offset - width ≤ t.bits.length - (offset + width) :=
    (Nat.sub_sub _ _ _).le
  obtain ⟨front, first, frontBits⟩ := Bits.exists_substring (Nat.zero_le _) before
  obtain ⟨back, last, backBits⟩ := Bits.exists_substring inside behind
  have two : t.bits.range 0 (offset + width) = front.toList ++ part.toList := by
    rw [Bits.range_add, Nat.zero_add, frontBits, bits]
  have all : t.bits.toList = t.bits.range 0 (offset + width) ++ back.toList := by
    have total : offset + width + (t.bits.length - offset - width) = t.bits.length := by omega
    have ranges := Bits.range_add t.bits 0 (offset + width) (t.bits.length - offset - width)
    rwa [total, Bits.range_length, Nat.zero_add, ← backBits] at ranges
  have few : (t.bits.range 0 (offset + width)).length ≤ 1023 := by
    rw [Bits.length_range inside]
    exact inside.trans t.bits.length_le
  refine ⟨(Tape.ofBits front).pack, (Tape.ofBits back).pack, ?_, ?_,
    (Tape.ofBits ⟨t.bits.range 0 (offset + width), few⟩).pack, writing_pack two, ?_⟩
  · rw [substring_pack, first]
    rfl
  · rw [substring_pack, last]
    rfl
  · exact writing_pack all

end Parts

/-- At every offset up to the end of a buffer a range either is refused, or its bytes hold what is
read bit by bit, by the way of single bits as well as by that of whole bytes. Then the range is a
buffer of its own with these bits, and the parts before it and behind it make up the whole together
with it. -/
theorem bytes_agree_with_bits {b : Buffer} (h : Reachable b) {offset : Nat} (width : Nat)
    (within : offset ≤ b.length) :
    (b.length - offset < width →
      b.bytesAt offset width = .error (.underrun .bits width (b.length - offset)) ∧
      b.substring offset width = .error (.underrun .bits width (b.length - offset))) ∧
    (width ≤ b.length - offset → ∃ bytes part front back,
      b.bytesAt offset width = .ok bytes ∧ b.Extracts offset width bytes ∧
      b.packBytes offset width = .ok bytes ∧
      (offset % 8 = 0 → b.copyBytes offset width = .ok bytes) ∧
      b.substring offset width = .ok part ∧ Reachable part ∧
      part.bits = (b.bits.drop offset).take width ∧
      b.substring 0 offset = .ok front ∧
      b.substring (offset + width) (b.length - offset - width) = .ok back ∧
      Joins front part back { b with position := 0 }) ∧
    ∃ t : Tape, t.pack = b ∧ b.bytesAt offset width = t.bits.bytesAt offset width ∧
      b.substring offset width =
        (t.bits.substring offset width).map fun bits => (Tape.ofBits bits).pack := by
  obtain ⟨t, _, rfl⟩ := h.exists_tape
  refine ⟨fun lt => ?_, fun le => ?_, t, rfl, bytesAt_pack t _ _, substring_pack t _ _⟩
  · have short := Bits.bytesAt_of_lt lt
    rw [← bytesAt_pack] at short
    refine ⟨short, ?_⟩
    rw [substring, short]
    rfl
  · have inside : offset + width ≤ t.bits.length := Nat.add_le_of_le_sub' within le
    have there := inside.trans (length_pack_le t)
    obtain ⟨part, run, bits⟩ := Bits.exists_substring within le
    obtain ⟨front, back, first, last, joins⟩ := joins_pack t inside bits
    have copied : t.pack.substring offset width = .ok (Tape.ofBits part).pack := by
      rw [substring_pack, run]
      rfl
    obtain ⟨bytes, _, made⟩ := Outcome.bind_eq_ok.1 copied
    refine ⟨_, _, front, back, (bytesAt_pack t _ _).trans (Bits.bytesAt_of_le within le),
      extracts_pack inside, ?_, ?_, copied, .ofBytes made, ?_, first, last, joins⟩
    · rw [packBytes_eq there, rangeAt_pack le]
    · intro whole
      rw [copyBytes_eq whole there, rangeAt_pack le]
    · rw [bits_pack, bits_pack]
      exact bits

/-- Six bits across two bytes, three bits before them and three behind them, of which the last ones
are copied as a byte. -/
theorem bytes_agree_with_bits_shifted :
    ∃ b, Reachable b ∧ b.bytes = [0xAB, 0xC0] ∧ b.length = 12 ∧ 3 ≤ b.length ∧ 6 ≤ b.length - 3 ∧
      b.bytesAt 3 6 = .ok [0x5C] ∧ b.Extracts 3 6 [0x5C] ∧ b.bytesAt 8 3 = .ok [0xC0] ∧
      Joins ⟨[0xA0], 3, 0⟩ ⟨[0x5C], 6, 0⟩ ⟨[0x80], 3, 0⟩ b := by
  have made : ofBytes [0xAB, 0xCD] 12 = .ok ⟨[0xAB, 0xC0], 12, 0⟩ := rfl
  have reachable := Reachable.ofBytes made
  obtain ⟨bytes, part, front, back, run, extracts, _, _, middle, _, _, first, last, joins⟩ :=
    (bytes_agree_with_bits reachable 6 (by decide : 3 ≤ 12)).2.1 (by decide)
  have run' : bytesAt ⟨[0xAB, 0xC0], 12, 0⟩ 3 6 = .ok [0x5C] := by rfl
  have middle' : substring ⟨[0xAB, 0xC0], 12, 0⟩ 3 6 = .ok ⟨[0x5C], 6, 0⟩ := by rfl
  have first' : substring ⟨[0xAB, 0xC0], 12, 0⟩ 0 3 = .ok ⟨[0xA0], 3, 0⟩ := by rfl
  have last' : substring ⟨[0xAB, 0xC0], 12, 0⟩ (3 + 6) (12 - 3 - 6) = .ok ⟨[0x80], 3, 0⟩ := by rfl
  cases run.symm.trans run'
  cases middle.symm.trans middle'
  cases first.symm.trans first'
  cases last.symm.trans last'
  exact ⟨_, reachable, rfl, rfl, by decide, by decide, run', extracts, rfl, joins⟩

end CellBag.Buffer
