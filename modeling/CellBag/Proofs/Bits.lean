import CellBag.Bits.Read
import CellBag.Bits.Write
import CellBag.Proofs.Binary

/-!
# Ranges and tags

Every positional reader is a function of the range of bits that it covers (`Bits.wordAt_of_le`,
`Bits.bytesAt_of_le`). Bits behind which a completion tag was put are read back from their bytes
(`Bits.ofTaggedBytes_toTaggedBytes`), so that bytes and a length descriptor determine the bits.
-/

namespace CellBag.Bits

/-- A word with one more bit denotes twice the number and this bit. -/
lemma pushBit_ofNat {w : Nat} (n : Nat) (b : Bool) :
    pushBit (BitVec.ofNat w n) b = BitVec.ofNat w (2 * n + b.toNat) := by
  apply BitVec.eq_of_getLsbD_eq
  intro i lt
  simp only [pushBit, BitVec.getLsbD_or, BitVec.getLsbD_shiftLeft, BitVec.getLsbD_setWidth,
    BitVec.getLsbD_ofBool, BitVec.getLsbD_ofNat, lt]
  cases i with
  | zero => cases b <;> simp
  | succ i =>
    have lt2 := b.toNat_lt
    have e : (2 * n + b.toNat) / 2 = n := by omega
    have lt' : i < w := by omega
    simp [Nat.testBit_succ, e, lt']

/-- Bits pushed one after the other into a word denote the number of the numeral. -/
lemma foldl_pushBit {w : Nat} (bits : List Bool) :
    bits.foldl pushBit (0 : BitVec w) = BitVec.ofNat w (Binary.toNat bits) := by
  suffices h : ∀ n, bits.foldl pushBit (BitVec.ofNat w n) =
      BitVec.ofNat w (bits.foldl (fun n b => 2 * n + b.toNat) n) from h 0
  induction bits with
  | nil => exact fun _ => rfl
  | cons b bits ih =>
    intro n
    rw [List.foldl_cons, List.foldl_cons, pushBit_ofNat, ih]

section Range
variable {b : Bits} {offset width : Nat}

/-- A range that is there has its width. -/
lemma length_range (h : width ≤ b.length - offset) : (b.range offset width).length = width := by
  rw [length] at h
  rw [range, List.length_take, List.length_drop]
  omega

/-- A range is no longer than a bit string can be. -/
lemma length_range_le (b : Bits) (offset width : Nat) : (b.range offset width).length ≤ 1023 :=
  ((List.take_sublist _ _).trans (List.drop_sublist _ _)).length_le.trans b.length_le

/-- A range that has its width is there. -/
lemma le_of_length_range (h : (b.range offset width).length = width) :
    width ≤ b.length - offset := by
  rw [range, List.length_take, List.length_drop] at h
  rw [length]
  omega

/-- A range of two widths is one of the first width and one of the second width behind it. -/
lemma range_add (b : Bits) (offset m n : Nat) :
    b.range offset (m + n) = b.range offset m ++ b.range (offset + m) n := by
  rw [range, range, range, List.take_add, List.drop_drop]

/-- The range of all bits is the bit string. -/
lemma range_length (b : Bits) : b.range 0 b.length = b.toList := by
  rw [range, length, List.drop_zero, List.take_length]

/-- A word is read from the range where its bits are. -/
lemma wordAt_of_le {w : Nat} (fits : width ≤ w) (h : width ≤ b.length - offset) :
    b.wordAt w offset width = .ok (BitVec.ofNat w (Binary.toNat (b.range offset width))) := by
  rw [wordAt, if_neg (Nat.not_lt.2 fits), ensureReadable, if_pos h, foldl_pushBit]
  rfl

/-- Bytes are read from a range within the bits by packing it. -/
lemma bytesAt_of_le (within : offset ≤ b.length) (h : width ≤ b.length - offset) :
    b.bytesAt offset width = .ok (Octets.pack (b.range offset width)) := by
  have start : ¬ (offset % 8 = 0 ∧ b.toBytes.length < offset / 8) := by
    rw [toBytes, Octets.length_pack, Binary.octetsFor, ← length]
    omega
  rw [bytesAt, ensureReadable, if_pos h]
  simp only [bind, Except.bind, if_neg start]
  rfl

/-- Bytes cannot be read when fewer bits are left. -/
lemma bytesAt_of_lt (h : b.length - offset < width) :
    b.bytesAt offset width = .error (.underrun .bits width (b.length - offset)) := by
  rw [bytesAt, ensureReadable, if_neg (Nat.not_le.2 h)]
  rfl

/-- Bytes that are read are those of a range that is there, in the bits or without width. -/
lemma bytesAt_eq_ok {bytes : List UInt8} (e : b.bytesAt offset width = .ok bytes) :
    width ≤ b.length - offset ∧ bytes = Octets.pack (b.range offset width) := by
  rcases Nat.lt_or_ge (b.length - offset) width with lt | le
  · rw [bytesAt_of_lt lt] at e
    cases e
  · refine ⟨le, ?_⟩
    rw [bytesAt, ensureReadable, if_pos le] at e
    simp only [bind, Except.bind] at e
    split at e
    · cases e
    · exact (Except.ok.inj e).symm

/-- A word cannot be read when fewer bits are left. -/
lemma wordAt_of_lt {w : Nat} (fits : width ≤ w) (h : b.length - offset < width) :
    b.wordAt w offset width = .error (.underrun .bits width (b.length - offset)) := by
  rw [wordAt, if_neg (Nat.not_lt.2 fits), ensureReadable, if_neg (Nat.not_le.2 h)]
  rfl

/-- The words that are read in some width are those below its power of two whose numeral stands
there. -/
lemma wordAt_eq_ok_iff {w : Nat} {x : BitVec w} (fits : width ≤ w) :
    b.wordAt w offset width = .ok x ↔
      width ≤ b.length - offset ∧ x.toNat < 2 ^ width ∧
        b.range offset width = Binary.ofNat width x.toNat := by
  rcases Nat.lt_or_ge (b.length - offset) width with lt | le
  · rw [wordAt_of_lt fits lt]
    exact ⟨by rintro ⟨⟩, fun h => absurd h.1 (Nat.not_le.2 lt)⟩
  · have len : (b.range offset width).length = width := length_range le
    have lt := Binary.toNat_lt (b.range offset width)
    have numeral := Binary.ofNat_toNat (b.range offset width)
    rw [len] at lt numeral
    have small : 2 ^ width ≤ 2 ^ w := Nat.pow_le_pow_right (by decide) fits
    rw [wordAt_of_le fits le, Except.ok.injEq]
    constructor
    · rintro rfl
      rw [BitVec.toNat_ofNat, Nat.mod_eq_of_lt (Nat.lt_of_lt_of_le lt small)]
      exact ⟨le, lt, numeral.symm⟩
    · rintro ⟨_, bound, e⟩
      rw [e, Binary.toNat_ofNat, Nat.mod_eq_of_lt bound, BitVec.ofNat_toNat, BitVec.setWidth_eq]

/-- A word that is read to its full width is the one with the bits of the range. -/
lemma wordAt_eq_ok {w : Nat} {x : BitVec w} :
    b.wordAt w offset w = .ok x ↔ b.range offset w = Binary.ofWord x := by
  rw [wordAt_eq_ok_iff (Nat.le_refl w), Binary.ofWord]
  refine ⟨fun h => h.2.2, fun e => ⟨le_of_length_range ?_, x.isLt, e⟩⟩
  rw [e, Binary.length_ofNat]

/-- The bits are these when they are as many and the range of so many bits is this. -/
lemma toList_eq {bits : List Bool} {n : Nat} (len : bits.length = n) :
    b.toList = bits ↔ b.length = n ∧ b.range 0 n = bits := by
  constructor
  · intro e
    have h : b.length = n := by rw [length, e, len]
    exact ⟨h, by rw [← h, range_length, e]⟩
  · rintro ⟨h, e⟩
    rw [← e, ← h, range_length]

/-- A range parts where the first of two lists of bits ends. -/
lemma range_add_eq_append {m n : Nat} {xs ys : List Bool} (len : xs.length = m) :
    b.range offset (m + n) = xs ++ ys ↔
      b.range offset m = xs ∧ b.range (offset + m) n = ys := by
  rw [range_add]
  constructor
  · intro e
    have le : m ≤ (b.range offset m).length := by
      have h := congrArg List.length e
      rw [← range_add, List.length_append, range, List.length_take] at h
      rw [range, List.length_take]
      omega
    have ge : (b.range offset m).length ≤ m := List.length_take_le _ _
    exact List.append_inj e (by omega)
  · rintro ⟨rfl, rfl⟩
    rfl

end Range

/-- What is appended to no bits are the bits themselves, if there is room for them. -/
lemma empty_append {bits : List Bool} {b : Bits} : empty.append bits = .ok b ↔ b.toList = bits := by
  have e : empty.available = 1023 := rfl
  rw [append]
  split
  case isTrue h =>
    simp only [Except.ok.injEq, Bits.ext_iff, empty, List.nil_append]
    exact eq_comm
  case isFalse h =>
    refine ⟨by rintro ⟨⟩, fun e' => (h ?_).elim⟩
    rw [← e', e]
    exact b.length_le

/-- A bit string is made of bytes that begin with its bits. -/
lemma ofBytes_of_le {bytes : List UInt8} {b : Bits} (held : b.length ≤ 8 * bytes.length)
    (e : (Octets.unpack bytes).take b.length = b.toList) : ofBytes bytes b.length = .ok b := by
  have le : b.length ≤ 1023 := b.length_le
  have room : min b.length (8 * Binary.octetsFor b.length) = b.length := by
    simp only [Binary.octetsFor]; omega
  simp only [ofBytes, dif_pos le, if_pos held, Except.ok.injEq, Bits.ext_iff]
  rw [Octets.unpack_take, List.take_take, room, e]

/-- Bits that fill whole bytes are read back from them. -/
lemma ofWholeBytes_toTaggedBytes {b : Bits} (whole : b.length % 8 = 0) :
    ofWholeBytes b.toTaggedBytes = .ok b := by
  have e : Octets.unpack b.toTaggedBytes = b.toList := by
    rw [toTaggedBytes, tagged, if_pos (by exact whole), Octets.unpack_pack_of_whole whole]
  have len : 8 * b.toTaggedBytes.length = b.length := by
    rw [← Octets.length_unpack, e, length]
  rw [ofWholeBytes, len]
  exact ofBytes_of_le (Nat.le_of_eq len.symm) (by rw [e, length, List.take_length])

/-- Behind a completion tag there are the zeros that fill up its byte. -/
lemma trailingZeros_tag (bits : List Bool) (k : Nat) :
    trailingZeros (bits ++ true :: List.replicate k false) = k := by
  rw [trailingZeros, List.reverse_append, List.reverse_cons, List.reverse_replicate,
    List.append_assoc, List.takeWhile_append_of_pos]
  · simp
  · intro x mem
    simp [List.eq_of_mem_replicate mem]

/-- Bits that do not fill whole bytes, and the tag behind them, as bytes. The last byte holds at
least one of the bits, then the tag and zeros. -/
lemma toTaggedBytes_eq {b : Bits} (part : b.length % 8 ≠ 0) :
    ∃ init last pre k, b.toTaggedBytes = init ++ [last] ∧ b.toList = Octets.unpack init ++ pre ∧
      0 < pre.length ∧ Binary.ofNat 8 last.toNat = pre ++ true :: List.replicate k false := by
  have split := List.take_append_drop (8 * (b.length / 8)) b.toList
  have whole : (b.toList.take (8 * (b.length / 8))).length = 8 * (b.length / 8) := by
    rw [List.length_take, ← length]; omega
  have rest : (b.toList.drop (8 * (b.length / 8))).length = b.length % 8 := by
    rw [List.length_drop, ← length]; omega
  generalize b.toList.take (8 * (b.length / 8)) = front at split whole
  generalize b.toList.drop (8 * (b.length / 8)) = pre at split rest
  have few : (pre ++ [true]).length ≤ 8 := by
    rw [List.length_append, List.length_singleton]; omega
  refine ⟨Octets.pack front, Octets.byte (pre ++ [true]), pre, 8 - (pre ++ [true]).length, ?_, ?_,
    by omega, ?_⟩
  · rw [toTaggedBytes, tagged, if_neg (by exact part), ← split, List.append_assoc,
      Octets.pack_append_of_whole (by omega), Octets.pack_of_le (by simp) few]
  · rw [Octets.unpack_pack_of_whole (by omega), split]
  · rw [Octets.ofNat_byte_short few, List.append_assoc, List.singleton_append]

/-- Bits that do not fill whole bytes are read back from the bytes that hold them and their tag. -/
lemma ofTaggedBytes_toTaggedBytes {b : Bits} (part : b.length % 8 ≠ 0) :
    ofTaggedBytes b.toTaggedBytes = .ok b := by
  obtain ⟨init, last, pre, k, bytes, bits, pos, octet⟩ := toTaggedBytes_eq part
  have nonzero : last ≠ 0 := by
    rintro rfl
    have mem : true ∈ Binary.ofNat 8 (0 : UInt8).toNat := by rw [octet]; simp
    exact absurd mem (by decide)
  have octetLen := congrArg List.length octet
  rw [Binary.length_ofNat, List.length_append, List.length_cons, List.length_replicate] at octetLen
  have len : b.length = 8 * init.length + pre.length := by
    rw [length, bits, List.length_append, Octets.length_unpack]
  have count : 8 * (init ++ [last]).length - k - 1 = b.length := by
    rw [List.length_append, List.length_singleton, len]; omega
  rw [bytes]
  simp only [ofTaggedBytes, List.getLast?_concat, if_neg nonzero, octet, trailingZeros_tag, count]
  apply ofBytes_of_le
  · rw [List.length_append, List.length_singleton]; omega
  · rw [Octets.unpack_append, Octets.unpack_cons, octet, List.append_assoc, ← List.append_assoc,
      ← bits]
    exact List.take_left' rfl

/-- A byte has a one among its low seven bits unless they are masked to zero. -/
lemma and_127_eq_zero {b : UInt8} : b &&& 0x7F = 0 ↔ true ∉ Binary.ofNat 7 b.toNat := by
  have low : (b &&& 0x7F).toNat = Binary.toNat (Binary.ofNat 7 b.toNat) := by
    rw [Binary.toNat_ofNat, UInt8.toNat_and]
    exact Nat.and_two_pow_sub_one_eq_mod b.toNat 7
  have zero : b &&& 0x7F = 0 ↔ Binary.toNat (Binary.ofNat 7 b.toNat) = 0 := by
    rw [← low, ← UInt8.toNat_inj]
    rfl
  rw [zero]
  constructor
  · intro e one
    have pos := Binary.toNat_pos one
    omega
  · intro none
    have zeros : Binary.ofNat 7 b.toNat = List.replicate 7 false := by
      apply List.eq_replicate_iff.2 ⟨Binary.length_ofNat _ _, fun x mem => ?_⟩
      cases x with
      | false => rfl
      | true => exact absurd mem none
    rw [zeros]
    rfl

/-- Bits with a one among them end with a completion tag. -/
lemma exists_tag {bits : List Bool} (one : true ∈ bits) :
    ∃ pre k, bits = pre ++ true :: List.replicate k false := by
  induction bits with
  | nil => cases one
  | cons b bits ih =>
    by_cases later : true ∈ bits
    · obtain ⟨pre, k, rfl⟩ := ih later
      exact ⟨b :: pre, k, rfl⟩
    · have first : true = b := (List.mem_cons.1 one).resolve_right later
      have zeros : bits = List.replicate bits.length false := by
        refine List.eq_replicate_iff.2 ⟨rfl, fun x mem => ?_⟩
        cases x with
        | false => rfl
        | true => exact absurd mem later
      exact ⟨[], bits.length, by rw [← first, ← zeros]; rfl⟩

/-- A bit string that is made of bytes has the first of their bits. -/
lemma ofBytes_eq_ok {bytes : List UInt8} {count : Nat} {b : Bits}
    (e : ofBytes bytes count = .ok b) : b.toList = (Octets.unpack bytes).take count := by
  rw [ofBytes] at e
  split at e
  · split at e
    · cases e
      have room : min count (8 * Binary.octetsFor count) = count := by
        simp only [Binary.octetsFor]; omega
      show (Octets.unpack (bytes.take (Binary.octetsFor count))).take count = _
      rw [Octets.unpack_take, List.take_take, room]
    · cases e
  · cases e

/-- Bits are made of the bytes into which they are packed. -/
lemma ofBytes_pack {xs : List Bool} (few : xs.length ≤ 1023) :
    ofBytes (Octets.pack xs) xs.length = .ok ⟨xs, few⟩ := by
  refine ofBytes_of_le (b := ⟨xs, few⟩) ?_ ?_
  · rw [Octets.length_pack]
    show xs.length ≤ 8 * Binary.octetsFor xs.length
    rw [Binary.octetsFor]
    omega
  · rw [Octets.unpack_pack]
    exact List.take_left' rfl

/-- A part of a bit string is the range that it covers. -/
lemma substring_eq_ok {b r : Bits} {offset width : Nat} (within : offset ≤ b.length) :
    b.substring offset width = .ok r ↔
      r.length = width ∧ width ≤ b.length - offset ∧ b.range offset width = r.toList := by
  rcases Nat.lt_or_ge (b.length - offset) width with lt | le
  · rw [substring, bytesAt_of_lt lt]
    exact ⟨by rintro ⟨⟩, fun h => absurd h.2.1 (Nat.not_le.2 lt)⟩
  · have len : (b.range offset width).length = width := length_range le
    have few := length_range_le b offset width
    have run : b.substring offset width = .ok ⟨b.range offset width, few⟩ := by
      have packed := ofBytes_pack few
      rw [len] at packed
      rw [substring, bytesAt_of_le within le]
      exact packed
    rw [run, Except.ok.injEq, Bits.ext_iff]
    constructor
    · intro e
      exact ⟨by rw [length, ← e, len], le, e⟩
    · exact fun h => h.2.2

/-- Any range within the bits is a part of them. -/
lemma exists_substring {b : Bits} {offset width : Nat} (within : offset ≤ b.length)
    (le : width ≤ b.length - offset) :
    ∃ r, b.substring offset width = .ok r ∧ r.toList = b.range offset width := by
  have few := length_range_le b offset width
  exact ⟨⟨b.range offset width, few⟩, (substring_eq_ok within).2 ⟨length_range le, le, rfl⟩, rfl⟩

/-- The bytes from which bits that fill whole bytes are read. -/
lemma ofWholeBytes_eq_ok {bytes : List UInt8} {b : Bits} :
    ofWholeBytes bytes = .ok b ↔ bytes = b.toTaggedBytes ∧ b.length % 8 = 0 := by
  constructor
  · intro e
    have bits : b.toList = Octets.unpack bytes := by
      rw [ofBytes_eq_ok e, ← Octets.length_unpack, List.take_length]
    have whole : b.toList.length % 8 = 0 := by
      rw [bits, Octets.length_unpack]
      omega
    refine ⟨?_, whole⟩
    rw [toTaggedBytes, tagged, if_pos whole, bits, Octets.pack_unpack]
  · rintro ⟨rfl, whole⟩
    exact ofWholeBytes_toTaggedBytes whole

/-- Bits that are read from bytes of which the last one holds some of them and the tag fill these
bytes again. -/
lemma toTaggedBytes_of_octet {init : List UInt8} {last : UInt8} {pre : List Bool} {k : Nat} {b : Bits}
    (pos : 0 < pre.length) (octet : Binary.ofNat 8 last.toNat = pre ++ true :: List.replicate k false)
    (e : ofTaggedBytes (init ++ [last]) = .ok b) :
    init ++ [last] = b.toTaggedBytes ∧ b.length % 8 ≠ 0 := by
  have len := congrArg List.length octet
  rw [Binary.length_ofNat, List.length_append, List.length_cons, List.length_replicate] at len
  have count : 8 * (init ++ [last]).length - k - 1 = (Octets.unpack init ++ pre).length := by
    rw [List.length_append, List.length_singleton, List.length_append, Octets.length_unpack]; omega
  have nonzero : last ≠ 0 := by
    rintro rfl
    have mem : true ∈ Binary.ofNat 8 (0 : UInt8).toNat := by rw [octet]; simp
    exact absurd mem (by decide)
  simp only [ofTaggedBytes, List.getLast?_concat, if_neg nonzero, octet, trailingZeros_tag, count] at e
  have bits : b.toList = Octets.unpack init ++ pre := by
    rw [ofBytes_eq_ok e, Octets.unpack_append, Octets.unpack_cons, octet, List.append_assoc,
      ← List.append_assoc]
    exact List.take_left' rfl
  have part : ¬ b.toList.length % 8 = 0 := by
    rw [bits, List.length_append, Octets.length_unpack]; omega
  have few : (pre ++ [true]).length ≤ 8 := by
    rw [List.length_append, List.length_singleton]; omega
  have zeros : 8 - (pre ++ [true]).length = k := by
    rw [List.length_append, List.length_singleton]; omega
  have byte : Octets.byte (pre ++ [true]) = last := by
    rw [← Octets.byte_ofNat (Octets.byte (pre ++ [true])), Octets.ofNat_byte_short few, zeros,
      List.append_assoc, List.singleton_append, ← octet, Octets.byte_ofNat]
  refine ⟨?_, part⟩
  rw [toTaggedBytes, tagged, if_neg part, bits, List.append_assoc, Octets.pack_append_of_whole,
    Octets.pack_unpack, Octets.pack_of_le (by simp) few, byte]
  rw [Octets.length_unpack]
  omega

/-- The bytes from which tagged bits are read, of which the last byte does not hold the tag
alone. -/
lemma ofTaggedBytes_eq_ok {bytes : List UInt8} {b : Bits} :
    (bytes.getLastD 0 &&& 0x7F ≠ 0 ∧ ofTaggedBytes bytes = .ok b) ↔
      bytes = b.toTaggedBytes ∧ b.length % 8 ≠ 0 := by
  constructor
  · rintro ⟨some, e⟩
    rcases List.eq_nil_or_concat bytes with rfl | ⟨init, last, rfl⟩
    · exact absurd rfl some
    rw [List.concat_eq_append] at e some ⊢
    rw [List.getLastD_concat, ne_eq, and_127_eq_zero, Decidable.not_not] at some
    obtain ⟨low, k, tag⟩ := exists_tag some
    have octet : Binary.ofNat 8 last.toNat =
        (last.toNat.testBit 7 :: low) ++ true :: List.replicate k false := by
      rw [List.cons_append, ← tag, Binary.ofNat]
    exact toTaggedBytes_of_octet (List.length_pos_iff.2 (List.cons_ne_nil _ _)) octet e
  · rintro ⟨rfl, part⟩
    refine ⟨?_, ofTaggedBytes_toTaggedBytes part⟩
    obtain ⟨init, last, pre, k, bytes, _, pos, octet⟩ := toTaggedBytes_eq part
    obtain ⟨first, pre, rfl⟩ := List.exists_cons_of_length_pos pos
    rw [bytes, List.getLastD_concat, ne_eq, and_127_eq_zero, Decidable.not_not]
    rw [Binary.ofNat, List.cons_append] at octet
    rw [(List.cons.inj octet).2]
    simp

end CellBag.Bits
