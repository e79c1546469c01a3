import CellBag.Bits.Lookup
import CellBag.Proofs.Bits.Tape
import Mathlib

/-!
# Looked up bytes

A range of bits is taken out of a buffer either by copying whole bytes or by setting the ones among
its bits. Where the bytes are there both give the bits of the range, packed (`Buffer.copyBytes_eq`,
`Buffer.packBytes_eq`). So the bytes of a range are taken out of the bytes of a buffer as they are
out of its bits (`Buffer.bytesAt_pack`), errors included.
-/

namespace CellBag

namespace Octets

/-- Without the first bytes there are no bits of theirs. -/
lemma unpack_drop (k : Nat) (bytes : List UInt8) :
    unpack (bytes.drop k) = (unpack bytes).drop (8 * k) := by
  induction k generalizing bytes with
  | zero => rfl
  | succ k ih =>
    cases bytes with
    | nil => exact List.drop_nil.symm
    | cons b bytes =>
      have octet := Binary.length_ofNat 8 b.toNat
      rw [List.drop_succ_cons, ih, unpack_cons, Nat.mul_succ, Nat.add_comm, ← List.drop_drop,
        List.drop_left' octet]

/-- The bits of zero bytes are zeros. -/
lemma unpack_zeros (count : Nat) :
    unpack (List.replicate count 0) = List.replicate (8 * count) false := by
  induction count with
  | zero => rfl
  | succ count ih =>
    rw [List.replicate_succ, unpack_cons, ih, Nat.mul_succ, Nat.add_comm, List.replicate_add]
    rfl

/-- A bit of a byte is set by the power of two of its place. -/
lemma ofNat_set (b : UInt8) {i : Nat} (lt : i < 8) :
    Binary.ofNat 8 (b ||| (1 <<< UInt8.ofNat (7 - i))).toNat =
      (Binary.ofNat 8 b.toNat).set i true := by
  have below : 7 - i < 8 := by omega
  apply List.ext_getElem
  · rw [List.length_set, Binary.length_ofNat, Binary.length_ofNat]
  · intro j here here'
    have lt' : j < 8 := by rwa [Binary.length_ofNat] at here
    rw [← List.getD_eq_getElem _ false here, Binary.getD_ofNat lt', UInt8.toNat_or,
      toNat_one_shiftLeft below, Nat.testBit_or, Nat.testBit_two_pow, List.getElem_set]
    rw [List.length_set] at here'
    split
    case isTrue same => rw [same, decide_eq_true rfl, Bool.or_true]
    case isFalse other =>
      rw [decide_eq_false (by omega), Bool.or_false, ← Binary.getD_ofNat lt',
        List.getD_eq_getElem _ _ here']

/-- A bit of bytes is set in the byte in which it stands. -/
lemma unpack_modify (bytes : List UInt8) (i : Nat) :
    unpack (bytes.modify (i / 8) (· ||| (1 <<< UInt8.ofNat (7 - i % 8)))) =
      (unpack bytes).set i true := by
  induction bytes generalizing i with
  | nil =>
    rw [List.modify_nil]
    rfl
  | cons b bytes ih =>
    have octet := Binary.length_ofNat 8 b.toNat
    rcases Nat.lt_or_ge i 8 with here | later
    · rw [Nat.div_eq_of_lt here, Nat.mod_eq_of_lt here, List.modify_zero_cons, unpack_cons,
        unpack_cons, ofNat_set b here, List.set_append_left _ _ (octet.symm ▸ here)]
    · obtain ⟨j, rfl⟩ := Nat.exists_eq_add_of_le later
      rw [Nat.add_mod_left, Nat.add_div_left j (by decide), List.modify_succ_cons, unpack_cons, ih,
        unpack_cons, List.set_append_right _ _ (octet.symm ▸ later), octet, Nat.add_sub_cancel_left]

/-- Bits are packed into the bytes that they fill together with zeros behind them. -/
lemma pack_filled (bits : List Bool) :
    pack (bits ++ List.replicate (8 * Binary.octetsFor bits.length - bits.length) false) =
      pack bits := by
  rw [← unpack_pack, pack_unpack]

end Octets

namespace Buffer
open Octets

section Ranges
variable {b : Buffer} {offset width i : Nat}

/-- The bits of the bytes from an offset on, in use or not. -/
def rangeAt (b : Buffer) (offset width : Nat) : List Bool :=
  (List.range' offset width).map b.bitAt

/-- So many places have so many bits. -/
lemma length_rangeAt : (b.rangeAt offset width).length = width := by
  rw [rangeAt, List.length_map, List.length_range']

/-- A bit is found when its byte is there. -/
lemma lookUp_of_lt (inside : i < 8 * b.bytes.length) : b.lookUp i = .ok (b.bitAt i) := by
  have there : i / 8 < b.bytes.length := by omega
  rw [lookUp, byteAt, List.getElem?_eq_getElem there, bitAt, List.getD_eq_getElem _ _ there]
  rfl

/-- The bits at the places of a range are this range of the unpacked bytes. -/
lemma rangeAt_eq (inside : offset + width ≤ 8 * b.bytes.length) :
    b.rangeAt offset width = ((unpack b.bytes).drop offset).take width := by
  rw [← length_unpack] at inside
  rw [rangeAt, funext b.bitAt_eq]
  exact map_getD _ inside

/-- A range that begins with a whole byte is copied out of the bytes. -/
theorem copyBytes_eq (whole : offset % 8 = 0) (inside : offset + width ≤ 8 * b.bytes.length) :
    b.copyBytes offset width = .ok (pack (b.rangeAt offset width)) := by
  have there : offset / 8 + Binary.octetsFor width ≤ b.bytes.length := by
    rw [Binary.octetsFor]
    omega
  have start : 8 * (offset / 8) = offset := by omega
  have count : min width (8 * Binary.octetsFor width) = width := by
    rw [Binary.octetsFor]
    omega
  have len : ((b.bytes.drop (offset / 8)).take (Binary.octetsFor width)).length =
      Binary.octetsFor width := by
    rw [List.length_take, List.length_drop]
    omega
  have bits : (unpack ((b.bytes.drop (offset / 8)).take (Binary.octetsFor width))).take width =
      b.rangeAt offset width := by
    rw [rangeAt_eq inside, unpack_take, unpack_drop, start, List.take_take, count]
  rw [← bits, pack_take len, copyBytes, sliceAt, if_pos there, Outcome.ok_bind]
  split
  · rfl
  · rfl

/-- A bit is set in bytes that hold others. -/
lemma setBit_pack {front back : List Bool} (whole : (front ++ false :: back).length % 8 = 0) :
    setBit (pack (front ++ false :: back)) front.length = .ok (pack (front ++ true :: back)) := by
  have there : front.length / 8 < (pack (front ++ false :: back)).length := by
    rw [length_pack, Binary.octetsFor]
    rw [List.length_append, List.length_cons] at whole ⊢
    omega
  rw [setBit, if_pos there]
  congr 1
  rw [← pack_unpack (List.modify _ _ _), unpack_modify, unpack_pack_of_whole whole,
    List.set_append_right _ _ (Nat.le_refl _), Nat.sub_self, List.set_cons_zero]

/-- After some bits the bytes hold these, and zeros behind them. -/
lemma foldlM_setBit {count : Nat} (le : width ≤ 8 * count)
    (inside : offset + width ≤ 8 * b.bytes.length) :
    (List.range width).foldlM
        (fun bytes i => do if ← b.lookUp (offset + i) then setBit bytes i else return bytes)
        (List.replicate count 0) =
      .ok (pack (b.rangeAt offset width ++ List.replicate (8 * count - width) false)) := by
  induction width with
  | zero =>
    show Except.ok _ = _
    rw [rangeAt, List.range'_zero, List.map_nil, List.nil_append, Nat.sub_zero, ← unpack_zeros,
      pack_unpack]
  | succ width ih =>
    have one_less : 8 * count - width = 8 * count - (width + 1) + 1 := by omega
    have next : b.rangeAt offset (width + 1) =
        b.rangeAt offset width ++ [b.bitAt (offset + width)] := by
      rw [rangeAt, List.range'_1_concat, List.map_append]
      rfl
    have found : b.lookUp (offset + width) = .ok (b.bitAt (offset + width)) :=
      lookUp_of_lt (by omega)
    rw [List.range_succ, List.foldlM_append, ih (by omega) (by omega), Outcome.ok_bind,
      List.foldlM_cons, found, Outcome.ok_bind, one_less, List.replicate_succ, next,
      List.append_assoc, List.singleton_append]
    cases b.bitAt (offset + width) with
    | false => rfl
    | true =>
      have whole : (b.rangeAt offset width ++
          false :: List.replicate (8 * count - (width + 1)) false).length % 8 = 0 := by
        rw [List.length_append, length_rangeAt, List.length_cons, List.length_replicate]
        omega
      have set := setBit_pack whole
      rw [length_rangeAt] at set
      rw [if_pos rfl, set]
      rfl

/-- The bits of any range are packed one by one. -/
theorem packBytes_eq (inside : offset + width ≤ 8 * b.bytes.length) :
    b.packBytes offset width = .ok (pack (b.rangeAt offset width)) := by
  have le : width ≤ 8 * Binary.octetsFor width := by
    rw [Binary.octetsFor]
    omega
  have filled := pack_filled (b.rangeAt offset width)
  rw [length_rangeAt] at filled
  rw [packBytes, foldlM_setBit le inside, filled]

end Ranges

section Pack
variable {t : Tape} {offset width : Nat}

/-- A packed tape has as many bits behind an offset as the tape. -/
lemma ensureRange_pack (t : Tape) (offset count : Nat) :
    t.pack.ensureRange offset count = t.bits.ensureReadable offset count := rfl

/-- The bits in use have bytes. -/
lemma length_pack_le (t : Tape) : t.pack.length ≤ 8 * t.pack.bytes.length := by
  show t.bits.length ≤ 8 * t.bits.toBytes.length
  rw [Bits.toBytes, length_pack, Bits.length, Binary.octetsFor]
  omega

/-- The bits at the places of a range that is in use are this range of the tape. -/
lemma rangeAt_pack (left : width ≤ t.bits.length - offset) :
    t.pack.rangeAt offset width = t.bits.range offset width := by
  rcases Nat.le_total offset t.bits.length with within | behind
  · rw [rangeAt, funext (bitAt_pack t)]
    exact map_getD _ (Nat.add_le_of_le_sub' within left)
  · rw [Nat.sub_eq_zero_of_le behind] at left
    obtain rfl := Nat.eq_zero_of_le_zero left
    rfl

/-- A bit in use is looked up in a byte that is there. -/
lemma lookUp_pack {i : Nat} (used : i < t.bits.length) : t.pack.lookUp i = .ok (t.pack.bitAt i) :=
  lookUp_of_lt (Nat.lt_of_lt_of_le used (length_pack_le t))

/-- A bit of a packed tape is read as that of the tape is. -/
lemma usedBitAt_pack (t : Tape) (offset : Nat) :
    t.pack.usedBitAt offset = t.bits.bitAt offset := by
  rw [usedBitAt, ensureRange_pack, bitAt_eq_ensureReadable]
  cases run : t.bits.ensureReadable offset 1 with
  | error => rfl
  | ok =>
    have left : 1 ≤ t.bits.length - offset := (Outcome.check_eq_ok.1 run).1
    have used : offset < t.bits.length := Nat.lt_of_sub_pos left
    rw [Outcome.ok_bind, Outcome.ok_bind, lookUp_pack used, bitAt_pack]
    rfl

/-- An empty range is taken at any offset, but a copy of whole bytes has to begin within the bytes or
at their end. -/
lemma bytesAt_pack_zero (t : Tape) (offset : Nat) :
    t.pack.bytesAt offset 0 = t.bits.bytesAt offset 0 := by
  have nothing : t.pack.packBytes offset 0 = .ok [] := rfl
  have range : t.bits.range offset 0 = [] := rfl
  have readable : t.bits.ensureReadable offset 0 = .ok () := if_pos (Nat.zero_le _)
  rw [bytesAt, Bits.bytesAt, ensureRange_pack, readable, Outcome.ok_bind, Outcome.ok_bind, nothing,
    range]
  by_cases whole : offset % 8 = 0
  case neg =>
    rw [if_neg whole, if_neg fun h => whole h.1]
    rfl
  case pos =>
    rw [if_pos whole, copyBytes, sliceAt]
    by_cases there : offset / 8 + Binary.octetsFor 0 ≤ t.pack.bytes.length
    case neg =>
      rw [if_neg there, if_pos ⟨whole, Nat.not_le.1 there⟩]
      rfl
    case pos =>
      rw [if_pos there, if_neg fun h => Nat.not_lt.2 there h.2]
      rfl

/-- The bytes of a range are taken out of the bytes as they are out of the bits. -/
theorem bytesAt_pack (t : Tape) (offset width : Nat) :
    t.pack.bytesAt offset width = t.bits.bytesAt offset width := by
  rcases Nat.lt_or_ge (t.bits.length - offset) width with lt | le
  · have short : t.pack.ensureRange offset width =
        .error (.underrun .bits width (t.bits.length - offset)) := if_neg (Nat.not_le.2 lt)
    rw [Bits.bytesAt_of_lt lt, bytesAt, short]
    rfl
  · rcases Nat.lt_or_ge offset t.bits.length with before | behind
    · have within := Nat.le_of_lt before
      have inside : offset + width ≤ t.bits.length := Nat.add_le_of_le_sub' within le
      have there := inside.trans (length_pack_le t)
      have readable : t.pack.ensureRange offset width = .ok () := if_pos le
      rw [Bits.bytesAt_of_le within le, bytesAt, readable, Outcome.ok_bind, ← rangeAt_pack le]
      split
      case isTrue whole => exact copyBytes_eq whole there
      case isFalse => exact packBytes_eq there
    · rw [Nat.sub_eq_zero_of_le behind] at le
      obtain rfl := Nat.eq_zero_of_le_zero le
      exact bytesAt_pack_zero t offset

/-- A part of a packed tape is that of the tape, packed. -/
lemma substring_pack (t : Tape) (offset width : Nat) :
    t.pack.substring offset width =
      (t.bits.substring offset width).map fun bits => (Tape.ofBits bits).pack := by
  rw [substring, Bits.substring, bytesAt_pack]
  cases t.bits.bytesAt offset width with
  | error => rfl
  | ok bytes => exact ofBytes_eq bytes width

end Pack

end Buffer

end CellBag
