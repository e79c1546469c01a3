import CellBag.Bits.Buffer
import CellBag.Bits.Tape
import CellBag.Proofs.Bits.Read
import CellBag.Proofs.Bits.Write
import Mathlib

/-!
# Packed bits

`Tape.pack` is the buffer with the bits of a tape and zeros behind them. Such buffers are made from
bytes (`Buffer.ofBytes_eq`, `Buffer.ofTaggedBytes_eq`) and remain so when bits are pushed
(`Buffer.follow_pack`), and what is read from their bytes is what is read from the bits
(`Buffer.bit_pack`, `Buffer.word_pack`, `Buffer.signedWord_pack`).
-/

namespace CellBag

namespace Binary

/-- The bits of a numeral are those of the number, the highest one first. -/
lemma getD_ofNat {w n i : Nat} (lt : i < w) : (ofNat w n).getD i false = n.testBit (w - 1 - i) := by
  induction w generalizing i with
  | zero => exact absurd lt (Nat.not_lt_zero i)
  | succ w ih =>
    cases i with
    | zero => rfl
    | succ i =>
      rw [ofNat, List.getD_cons_succ, ih (Nat.lt_of_succ_lt_succ lt)]
      congr 1
      omega

/-- The first bits of a numeral are the number without the low bits. -/
lemma toNat_take (bits : List Bool) (count : Nat) :
    toNat (bits.take count) = toNat bits / 2 ^ (bits.length - count) := by
  have lt := toNat_lt (bits.drop count)
  have parts := congrArg toNat (List.take_append_drop count bits)
  rw [toNat_append, List.length_drop, Nat.mul_comm] at parts
  rw [List.length_drop] at lt
  rw [← parts, Nat.mul_add_div (Nat.two_pow_pos _), Nat.div_eq_of_lt lt, Nat.add_zero]

end Binary

namespace Octets

/-- A shift by fewer than eight places is one by so many places. -/
lemma toNat_ofNat_mod {k : Nat} (lt : k < 8) : (UInt8.ofNat k).toNat % 8 = k := by
  rw [UInt8.toNat_ofNat', Nat.mod_eq_of_lt (by omega : k < 2 ^ 8), Nat.mod_eq_of_lt lt]

/-- A one that is moved to some place of a byte. -/
lemma toNat_one_shiftLeft {k : Nat} (lt : k < 8) : (1 <<< UInt8.ofNat k : UInt8).toNat = 2 ^ k := by
  have small : 2 ^ k < 2 ^ 8 := Nat.pow_lt_pow_right (by decide) lt
  rw [UInt8.toNat_shiftLeft, toNat_ofNat_mod lt, UInt8.toNat_one, Nat.one_shiftLeft,
    Nat.mod_eq_of_lt small]

/-- A byte denotes its bits, moved up to the most significant place. -/
lemma toNat_byte {bits : List Bool} (few : bits.length ≤ 8) :
    (byte bits).toNat = Binary.toNat bits * 2 ^ (8 - bits.length) := by
  rw [byte, UInt8.toNat_ofNat', Nat.mod_eq_of_lt (Binary.toNat_filled_lt few),
    Binary.toNat_append_zeros]

/-- A byte that is not full takes one more bit. -/
lemma byte_push {bits : List Bool} (few : bits.length < 8) (bit : Bool) :
    (if bit then byte bits ||| (1 <<< UInt8.ofNat (7 - bits.length)) else byte bits) =
      byte (bits ++ [bit]) := by
  have longer : (bits ++ [bit]).length = bits.length + 1 := List.length_append
  have place : 8 - bits.length = 7 - bits.length + 1 := by omega
  have rest : 8 - (bits.length + 1) = 7 - bits.length := by omega
  have below : 7 - bits.length < 8 := by omega
  apply UInt8.toNat_inj.1
  rw [toNat_byte (longer ▸ few), longer, rest, Binary.toNat_append, List.length_singleton]
  generalize 7 - bits.length = k at place below
  cases bit with
  | false =>
    rw [if_neg Bool.false_ne_true, toNat_byte (Nat.le_of_lt few), place, Nat.pow_succ']
    exact (Nat.mul_assoc _ _ _).symm
  | true =>
    -- the place of the bit is behind all those of the byte
    have lt : 2 ^ k < 2 ^ (k + 1) := Nat.pow_lt_pow_succ (by decide)
    rw [if_pos rfl, UInt8.toNat_or, toNat_byte (Nat.le_of_lt few), place,
      toNat_one_shiftLeft below, Nat.mul_comm, ← Nat.two_pow_add_eq_or_of_lt lt, Nat.pow_succ']
    show _ = (_ * 2 ^ 1 + 1) * _
    ring

/-- What is left of a byte under a mask for its bits above some place. -/
lemma and_mask {n : Nat} (lt : n < 2 ^ 8) (k : Nat) :
    n &&& (255 <<< k % 2 ^ 8) = n / 2 ^ k * 2 ^ k := by
  apply Nat.eq_of_testBit_eq
  intro i
  rw [Nat.testBit_and, Nat.testBit_mod_two_pow, Nat.testBit_shiftLeft, Nat.testBit_mul_two_pow,
    Nat.testBit_div_two_pow]
  rcases Nat.lt_or_ge i k with behind | front
  · have cleared : decide (i ≥ k) = false := decide_eq_false (Nat.not_le.2 behind)
    rw [cleared, Bool.false_and, Bool.and_false, Bool.and_false, Bool.false_and]
  · rw [decide_eq_true front, Bool.true_and, Bool.true_and, Nat.sub_add_cancel front]
    rcases Nat.lt_or_ge i 8 with inside | outside
    · have ones : Nat.testBit 255 (i - k) = true := by
        rw [show 255 = 2 ^ 8 - 1 from rfl, Nat.testBit_two_pow_sub_one]
        exact decide_eq_true (by omega)
      rw [ones, decide_eq_true inside, Bool.and_true, Bool.and_true]
    · have le : 2 ^ 8 ≤ 2 ^ i := Nat.pow_le_pow_right (by decide) outside
      rw [Nat.testBit_lt_two_pow (Nat.lt_of_lt_of_le lt le), Bool.false_and]

/-- A byte is cleared behind its first bits. -/
lemma byte_take (b : UInt8) {count : Nat} (pos : 0 < count) (few : count < 8) :
    b &&& (0xFF <<< UInt8.ofNat (8 - count)) = byte ((Binary.ofNat 8 b.toNat).take count) := by
  have front : ((Binary.ofNat 8 b.toNat).take count).length = count := by
    rw [List.length_take, Binary.length_ofNat]
    omega
  have mask : (0xFF <<< UInt8.ofNat (8 - count) : UInt8).toNat = 255 <<< (8 - count) % 2 ^ 8 := by
    rw [UInt8.toNat_shiftLeft, toNat_ofNat_mod (by omega)]
    rfl
  apply UInt8.toNat_inj.1
  rw [toNat_byte (by omega), front, Binary.toNat_take, Binary.toNat_ofNat, Binary.length_ofNat,
    Nat.mod_eq_of_lt b.toNat_lt, UInt8.toNat_and, mask, and_mask b.toNat_lt]

/-- A change at the length of what stands in front is one of what follows it. -/
lemma modify_last {α : Type} (front : List α) (last : α) (f : α → α) :
    (front ++ [last]).modify front.length f = front ++ [f last] := by
  rw [List.modify_eq_take_drop, List.take_left, List.drop_left]
  rfl

/-- The first bits of bytes are packed into the same bytes, the last one cleared behind them. -/
lemma pack_take {bytes : List UInt8} {count : Nat} (len : bytes.length = Binary.octetsFor count) :
    pack ((unpack bytes).take count) =
      if count % 8 = 0 then bytes
      else bytes.modify (count / 8) (· &&& (0xFF <<< UInt8.ofNat (8 - count % 8))) := by
  rw [Binary.octetsFor] at len
  split
  case isTrue whole =>
    have all : (unpack bytes).length ≤ count := by
      rw [length_unpack, len]
      omega
    rw [List.take_of_length_le all, pack_unpack]
  case isFalse part =>
    have ne : bytes ≠ [] := List.ne_nil_of_length_pos (by omega)
    obtain ⟨front, last, rfl⟩ := (List.eq_nil_or_concat' bytes).resolve_left ne
    rw [List.length_append, List.length_singleton] at len
    have place : count / 8 = front.length := by omega
    have part : count = (unpack front).length + count % 8 := by
      rw [length_unpack]
      omega
    have whole : (unpack front).length % 8 = 0 := by
      rw [length_unpack]
      exact Nat.mul_mod_right 8 _
    have few : count % 8 < 8 := Nat.mod_lt _ (by decide)
    have first : ((unpack [last]).take (count % 8)).length = count % 8 := by
      rw [List.length_take, length_unpack, List.length_singleton]
      omega
    have cleared : pack ((unpack [last]).take (count % 8)) =
        [last &&& (0xFF <<< UInt8.ofNat (8 - count % 8))] := by
      rw [pack_of_le (by omega) (by omega), byte_take last (by omega) few, unpack_cons]
      rfl
    rw [place, modify_last, unpack_append]
    conv_lhs => rw [part]
    rw [List.take_length_add_append, pack_append_of_whole whole, pack_unpack, cleared]

/-- A list of bits is some whole octets and fewer than eight bits. -/
lemma exists_octets (bits : List Bool) :
    ∃ front back, bits = front ++ back ∧ front.length % 8 = 0 ∧ back.length < 8 := by
  refine ⟨_, _, (List.take_append_drop (8 * (bits.length / 8)) bits).symm, ?_, ?_⟩
  · rw [List.length_take]
    omega
  · rw [List.length_drop]
    omega

/-- Bytes have room for one more bit after a zero was added if all were full. -/
lemma pack_room {front back : List Bool} (whole : front.length % 8 = 0) (few : back.length < 8) :
    (if (pack front).length < (pack (front ++ back)).length then pack (front ++ back)
      else pack (front ++ back) ++ [0]) = pack front ++ [byte back] := by
  rw [pack_append_of_whole whole]
  cases back with
  | nil =>
    rw [pack, List.append_nil, if_neg (Nat.lt_irrefl _)]
    rfl
  | cons a back =>
    have last : pack (a :: back) = [byte (a :: back)] :=
      pack_of_le (Nat.zero_lt_succ _) (Nat.le_of_lt few)
    have more : (pack front ++ [byte (a :: back)]).length = (pack front).length + 1 :=
      List.length_append
    rw [last, more, if_pos (Nat.lt_succ_self _)]

/-- The bit of a byte at some place, shifted down. -/
lemma shiftRight_and_one (b : UInt8) {k : Nat} (lt : k < 8) :
    ((b >>> UInt8.ofNat k) &&& 1 == 1) = b.toNat.testBit k := by
  have shifted : ((b >>> UInt8.ofNat k) &&& 1).toNat = b.toNat / 2 ^ k % 2 := by
    rw [UInt8.toNat_and, UInt8.toNat_shiftRight, toNat_ofNat_mod lt, Nat.shiftRight_eq_div_pow]
    exact Nat.and_one_is_mod _
  rw [Nat.testBit_eq_decide_div_mod_eq, ← shifted, Bool.beq_eq_decide_eq]
  apply decide_eq_decide.2
  rw [← UInt8.toNat_inj]
  rfl

/-- The bits of bytes stand in them one after the other, the most significant one first. -/
lemma getD_unpack (bytes : List UInt8) (i : Nat) :
    (unpack bytes).getD i false = (bytes.getD (i / 8) 0).toNat.testBit (7 - i % 8) := by
  induction bytes generalizing i with
  | nil =>
    rw [List.getD_nil, UInt8.toNat_zero, Nat.zero_testBit]
    rfl
  | cons b bytes ih =>
    have len := Binary.length_ofNat 8 b.toNat
    rw [unpack_cons]
    rcases Nat.lt_or_ge i 8 with here | later
    · rw [List.getD_append _ _ _ _ (len.symm ▸ here), Binary.getD_ofNat here, Nat.mod_eq_of_lt here,
        Nat.div_eq_of_lt here, List.getD_cons_zero]
    · obtain ⟨j, rfl⟩ := Nat.exists_eq_add_of_le later
      rw [List.getD_append_right _ _ _ _ (len.symm ▸ later), len, Nat.add_sub_cancel_left, ih,
        Nat.add_mod_left, Nat.add_div_left j (by decide), List.getD_cons_succ]

end Octets

/-- The buffer that holds the bits of a tape, with zeros behind them. -/
def Tape.pack (t : Tape) : Buffer :=
  ⟨t.bits.toBytes, t.bits.length, t.position⟩

namespace Buffer
open Octets
variable {t : Tape}

/-- A bit that is added to packed bits is packed behind them. -/
lemma push_pack (xs : List Bool) (bit : Bool) (position : Nat) :
    push ⟨pack xs, xs.length, position⟩ bit = ⟨pack (xs ++ [bit]), xs.length + 1, position⟩ := by
  obtain ⟨front, back, rfl, whole, few⟩ := exists_octets xs
  have count : (front ++ back).length / 8 = (pack front).length := by
    rw [length_pack, List.length_append, Binary.octetsFor]
    omega
  have place : (front ++ back).length % 8 = back.length := by
    rw [List.length_append]
    omega
  have longer : (back ++ [bit]).length = back.length + 1 := List.length_append
  have last : pack (back ++ [bit]) = [byte (back ++ [bit])] :=
    pack_of_le (longer ▸ Nat.succ_pos _) (longer ▸ few)
  rw [List.append_assoc, pack_append_of_whole whole (back ++ [bit]), last, ← byte_push few, push]
  dsimp only
  rw [count, place, pack_room whole few, modify_last]
  cases bit with
  | false => rfl
  | true => rfl

/-- Bits that are added one by one are packed behind those that are there. -/
lemma foldl_push (xs ys : List Bool) (position : Nat) :
    ys.foldl push ⟨pack xs, xs.length, position⟩ =
      ⟨pack (xs ++ ys), (xs ++ ys).length, position⟩ := by
  induction ys generalizing xs with
  | nil => rw [List.append_nil, List.foldl_nil]
  | cons y ys ih =>
    have len : (xs ++ [y]).length = xs.length + 1 := List.length_append
    rw [List.foldl_cons, push_pack, ← len, ih, ← List.append_cons]

/-- A buffer follows a plan as the bits that it packs do, if the plan asks for enough room. -/
lemma follow_pack {plan : Except Error Bits.Plan}
    (sound : ∀ p, plan = .ok p → (p.bits ()).length ≤ p.room) (t : Tape) :
    follow plan t.pack =
      match t.bits.follow plan with
      | .ok bits => .ok () (Tape.pack ⟨bits, t.position⟩)
      | .error e => .error e t.pack := by
  cases plan with
  | error => rfl
  | ok p =>
    have left : Bits.capacity - t.pack.length = t.bits.available := rfl
    rw [follow, Bits.follow, Outcome.ok_bind, left, Bits.ensure]
    split
    case isTrue fits =>
      have room := (sound p rfl).trans fits
      rw [Outcome.ok_bind, Bits.append, dif_pos room, Tape.pack, Bits.toBytes, Bits.length,
        foldl_push]
      rfl
    case isFalse => rfl

/-- A buffer is made from bytes as its bits are. -/
theorem ofBytes_eq (bytes : List UInt8) (count : Nat) :
    ofBytes bytes count =
      (Bits.ofBytes bytes count).map fun bits => (Tape.ofBits bits).pack := by
  rw [ofBytes, Bits.ofBytes, Bits.capacity]
  by_cases few : count ≤ 1023
  case neg =>
    rw [if_pos (Nat.not_le.1 few), dif_neg few]
    rfl
  case pos =>
    rw [if_neg (Nat.not_lt.2 few), dif_pos few]
    by_cases held : count ≤ 8 * bytes.length
    case neg =>
      rw [if_pos (Nat.not_le.1 held), if_neg held]
      rfl
    case pos =>
      have kept : (bytes.take (Binary.octetsFor count)).length = Binary.octetsFor count := by
        rw [List.length_take, Binary.octetsFor]
        omega
      have used : ((unpack (bytes.take (Binary.octetsFor count))).take count).length = count := by
        rw [List.length_take, length_unpack, kept, Binary.octetsFor]
        omega
      rw [if_neg (Nat.not_lt.2 held), if_pos held, Except.map, Tape.ofBits, Tape.pack, Bits.toBytes,
        Bits.length, used, pack_take kept]
      split
      · rfl
      · rfl

/-- The bit at an index is one of the unpacked bits, or a zero behind them. -/
lemma bitAt_eq (b : Buffer) (i : Nat) : b.bitAt i = (unpack b.bytes).getD i false := by
  rw [getD_unpack, bitAt, shiftRight_and_one _ (by omega)]

/-- A packed tape has its own bits, and zeros behind them. -/
lemma bitAt_pack (t : Tape) (i : Nat) : t.pack.bitAt i = t.bits.toList.getD i false := by
  rw [bitAt_eq, Tape.pack, Bits.toBytes, unpack_pack]
  rcases Nat.lt_or_ge i t.bits.toList.length with used | behind
  · rw [List.getD_append _ _ _ _ used]
  · rw [List.getD_append_right _ _ _ _ behind, List.getD_eq_default _ _ behind,
      List.getD_eq_getElem?_getD, List.getElem?_replicate]
    split
    · rfl
    · rfl

/-- What stands at the places of a range is the range. -/
lemma map_getD (xs : List Bool) {first count : Nat} (le : first + count ≤ xs.length) :
    (List.range' first count).map (xs.getD · false) = (xs.drop first).take count := by
  apply List.ext_getElem
  · rw [List.length_map, List.length_range', List.length_take, List.length_drop]
    omega
  · intro i here here'
    rw [List.length_map, List.length_range'] at here
    rw [List.getElem_map, List.getElem_range', List.getElem_take, List.getElem_drop, Nat.one_mul,
      List.getD_eq_getElem _ _ (by omega)]

/-- The bits of a packed tape are those of the tape. -/
lemma bits_pack (t : Tape) : t.pack.bits = t.bits.toList := by
  have all : (List.range' 0 t.bits.length).map (t.bits.toList.getD · false) =
      (t.bits.toList.drop 0).take t.bits.length :=
    map_getD t.bits.toList (Nat.le_of_eq (Nat.zero_add _))
  rw [List.drop_zero, Bits.length, List.take_length] at all
  rw [bits, funext (bitAt_pack t), List.range_eq_range']
  exact all

/-- The next bits of a packed tape are those of the tape. -/
lemma next_pack {count : Nat} (le : count ≤ t.bits.length - t.position)
    (within : t.position ≤ t.bits.length) :
    t.pack.next count = t.bits.range t.position count := by
  rw [next, funext (bitAt_pack t)]
  exact map_getD _ (Nat.add_le_of_le_sub' within le)

/-- A buffer is made of bytes with a completion tag as a bit string is. -/
lemma ofTaggedBytes_eq (bytes : List UInt8) (whole : Bool) :
    ofTaggedBytes bytes whole =
      (if whole then Bits.ofWholeBytes bytes else Bits.ofTaggedBytes bytes).map
        fun bits => (Tape.ofBits bits).pack := by
  rw [ofTaggedBytes]
  cases whole with
  | true => exact ofBytes_eq _ _
  | false =>
    rw [if_neg Bool.false_ne_true, if_neg Bool.false_ne_true, Bits.ofTaggedBytes]
    cases bytes.getLast? with
    | none => rfl
    | some last =>
      dsimp only
      split
      · rfl
      · exact ofBytes_eq _ _

/-- A single bit is read as a range of one bit is. -/
lemma bitAt_eq_ensureReadable (b : Bits) (offset : Nat) :
    b.bitAt offset = (do b.ensureReadable offset 1; return b.toList.getD offset false) := by
  rw [Bits.bitAt, Bits.ensureReadable]
  rcases Nat.lt_or_ge offset b.toList.length with used | behind
  · have left : 1 ≤ b.length - offset := Nat.sub_pos_of_lt used
    rw [if_pos left, Outcome.ok_bind, List.getElem?_eq_getElem used, List.getD_eq_getElem _ _ used]
    rfl
  · have none : b.length - offset = 0 := Nat.sub_eq_zero_of_le behind
    rw [none, if_neg (by decide), List.getElem?_eq_none behind]
    rfl

/-- The next bit of a packed tape is that of the tape. -/
lemma bit_pack (t : Tape) : t.pack.bit = t.bits.bitAt t.position := by
  rw [bit, bitAt_eq_ensureReadable, bitAt_pack]
  rfl

/-- The next word of a packed tape is that of the tape. -/
lemma word_pack (within : t.position ≤ t.bits.length) (width : Nat) :
    t.pack.word width = t.bits.wordAt 64 t.position width := by
  have readable : t.pack.ensureReadable width = t.bits.ensureReadable t.position width := rfl
  rw [word, Bits.wordAt, readable, Bits.ensureReadable]
  by_cases left : width ≤ t.bits.length - t.position
  · rw [if_pos left, next_pack left within]
  · rw [if_neg left]
    rfl

/-- The next signed word of a packed tape is that of the tape. -/
lemma signedWord_pack (within : t.position ≤ t.bits.length) (width : Nat) :
    t.pack.signedWord width = t.bits.signedWordAt 64 t.position width := by
  rw [signedWord, Bits.signedWordAt, word_pack within]

end Buffer

end CellBag
