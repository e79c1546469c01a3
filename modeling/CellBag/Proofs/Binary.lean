import CellBag.Octets
import Mathlib

/-!
# Numerals and octets

The numerals of `Binary` and `Octets` and the numbers that they denote determine each other:
`Binary.toNat_ofNat` and `Binary.ofNat_toNat`, and in the same way `Octets.toNat_ofNat`. Packing
bits into bytes and unpacking them again adds nothing but the zeros that fill up the last byte
(`Octets.unpack_pack`), and no byte is lost the other way (`Octets.pack_unpack`).
-/

namespace CellBag

namespace Binary

/-- A numeral that is read behind a number moves this number up. -/
lemma foldl_toNat (n : Nat) (bits : List Bool) :
    bits.foldl (fun n b => 2 * n + b.toNat) n = n * 2 ^ bits.length + toNat bits := by
  induction bits generalizing n with
  | nil => simp [toNat]
  | cons b bits ih =>
    have h0 := ih b.toNat
    simp only [toNat, List.foldl_cons, List.length_cons, ih (2 * n + b.toNat)] at h0 ⊢
    rw [Nat.mul_zero, Nat.zero_add, h0, Nat.pow_succ, Nat.add_mul, Nat.add_assoc]
    congr 1
    rw [Nat.mul_comm 2 n, Nat.mul_assoc, Nat.mul_comm 2]

/-- The first bit counts for the power of two of the number of bits behind it. -/
lemma toNat_cons (b : Bool) (bits : List Bool) :
    toNat (b :: bits) = b.toNat * 2 ^ bits.length + toNat bits := by
  have h := foldl_toNat b.toNat bits
  rw [toNat, List.foldl_cons]
  simpa using h

/-- The number of a numeral that stands in front of another. -/
lemma toNat_append (xs ys : List Bool) : toNat (xs ++ ys) = toNat xs * 2 ^ ys.length + toNat ys := by
  rw [toNat, List.foldl_append]
  exact foldl_toNat _ ys

/-- A numeral denotes a number below the power of two of its length. -/
lemma toNat_lt (bits : List Bool) : toNat bits < 2 ^ bits.length := by
  induction bits with
  | nil => simp [toNat]
  | cons b bits ih =>
    rw [toNat_cons, List.length_cons, Nat.pow_succ]
    cases b with
    | false => simp only [Bool.toNat_false]; omega
    | true => simp only [Bool.toNat_true]; omega

/-- What a numeral leaves out are the multiples of the power of two of its width. -/
@[simp]
lemma toNat_ofNat (w n : Nat) : toNat (ofNat w n) = n % 2 ^ w := by
  induction w with
  | zero => simp [ofNat, toNat, Nat.mod_one]
  | succ w ih =>
    rw [ofNat, toNat_cons, ih, length_ofNat, Nat.mod_pow_succ, Nat.toNat_testBit, Nat.mul_comm,
      Nat.add_comm]

/-- Numbers with the same low bits have the same numeral. -/
lemma ofNat_congr {w n m : Nat} (h : ∀ i < w, n.testBit i = m.testBit i) :
    ofNat w n = ofNat w m := by
  induction w with
  | zero => rfl
  | succ w ih =>
    rw [ofNat, ofNat, h w (Nat.lt_succ_self w), ih fun i hi => h i (Nat.lt_succ_of_lt hi)]

/-- Every list of bits is the numeral of the number that it denotes. -/
@[simp]
lemma ofNat_toNat (bits : List Bool) : ofNat bits.length (toNat bits) = bits := by
  induction bits with
  | nil => rfl
  | cons b bits ih =>
    have lt := toNat_lt bits
    rw [List.length_cons, ofNat, toNat_cons]
    congr 1
    · rw [Nat.mul_comm, Nat.testBit_two_pow_mul_add _ lt]
      cases b <;> simp
    · refine (ofNat_congr fun i hi => ?_).trans ih
      rw [Nat.mul_comm, Nat.testBit_two_pow_mul_add _ lt, if_pos hi]

/-- A numeral lists the bits of its number from the highest place down. -/
lemma map_testBit (w n : Nat) : (List.range w).reverse.map n.testBit = ofNat w n := by
  induction w with
  | zero => rfl
  | succ w ih => rw [List.range_succ, List.reverse_append, List.reverse_singleton,
      List.singleton_append, List.map_cons, ih, ofNat]

/-- A numeral comes apart at every place. -/
lemma ofNat_add (k w n : Nat) : ofNat (k + w) n = ofNat k (n >>> w) ++ ofNat w n := by
  induction k with
  | zero => rw [Nat.zero_add, ofNat, List.nil_append]
  | succ k ih => rw [Nat.succ_add, ofNat, ofNat, ih, List.cons_append, Nat.testBit_shiftRight,
      Nat.add_comm w k]

/-- A numeral in which every place is the same. -/
lemma ofNat_eq_replicate {w n : Nat} {b : Bool} (same : ∀ i < w, n.testBit i = b) :
    ofNat w n = List.replicate w b := by
  induction w with
  | zero => rfl
  | succ w ih =>
    rw [ofNat, same w (Nat.lt_succ_self w), ih fun i lt => same i (Nat.lt_succ_of_lt lt),
      List.replicate_succ]

/-- A number that is small enough has zeros in front of its low bits. -/
lemma ofNat_of_lt {k w n : Nat} (lt : n < 2 ^ w) :
    ofNat (k + w) n = List.replicate k false ++ ofNat w n := by
  rw [ofNat_add, ofNat_eq_replicate]
  intro i _
  rw [Nat.testBit_shiftRight]
  exact Nat.testBit_lt_two_pow (Nat.lt_of_lt_of_le lt (Nat.pow_le_pow_right (by decide) (by omega)))

/-- What is cut off a word is not among its low bits. -/
lemma ofWord_setWidth {w : Nat} (word : BitVec w) (width : Nat) :
    ofWord (word.setWidth width) = ofNat width word.toNat := by
  apply ofNat_congr
  intro i lt
  rw [BitVec.toNat_setWidth, Nat.testBit_mod_two_pow, decide_eq_true lt, Bool.true_and]

/-- A negative word has ones in front of its low bits, any other one zeros. -/
lemma ofWord_signExtend {w : Nat} (word : BitVec w) (k : Nat) :
    ofWord (word.signExtend (k + w)) = List.replicate k word.msb ++ ofWord word := by
  rw [ofWord, ofNat_add, ofNat_eq_replicate]
  · congr 1
    apply ofNat_congr
    intro i lt
    rw [BitVec.testBit_toNat, BitVec.testBit_toNat, BitVec.getLsbD_signExtend, if_pos lt,
      decide_eq_true (by omega), Bool.true_and]
  · intro i lt
    rw [Nat.testBit_shiftRight, BitVec.testBit_toNat, BitVec.getLsbD_signExtend, if_neg (by omega),
      decide_eq_true (by omega), Bool.true_and]

/-- A word that is not made wider is cut off. -/
lemma ofWord_signExtend_of_le {w width : Nat} (word : BitVec w) (le : width ≤ w) :
    ofWord (word.signExtend width) = ofNat width word.toNat := by
  rw [BitVec.signExtend_eq_setWidth_of_le _ le, ofWord_setWidth]

/-- The lowest bit of a word that was shifted down. -/
lemma and_one_of_shift {w : Nat} (word : BitVec (w + 1)) (i : Nat) :
    ((word >>> i) &&& 1 == 1) = word.toNat.testBit i := by
  have one : (1 : BitVec (w + 1)).toNat = 1 := by simp
  rw [Bool.eq_iff_iff, beq_iff_eq, ← BitVec.toNat_inj, BitVec.toNat_and, BitVec.toNat_ushiftRight,
    one, Nat.and_one_is_mod, Nat.testBit_eq_decide_div_mod_eq, decide_eq_true_iff,
    Nat.shiftRight_eq_div_pow]

section Filled
variable {k : Nat} {bits : List Bool}

/-- Bits that are filled up with zeros have the length that they are filled up to. -/
lemma length_filled (few : bits.length ≤ k) :
    (bits ++ List.replicate (k - bits.length) false).length = k := by
  rw [List.length_append, List.length_replicate, Nat.add_sub_cancel' few]

/-- Bits that zeros fill up to a width are a number of this width. -/
lemma toNat_filled_lt (few : bits.length ≤ k) :
    toNat (bits ++ List.replicate (k - bits.length) false) < 2 ^ k := by
  have lt := toNat_lt (bits ++ List.replicate (k - bits.length) false)
  rwa [length_filled few] at lt

/-- Bits that are filled up with zeros are a numeral of this length. -/
lemma ofNat_toNat_filled (few : bits.length ≤ k) :
    ofNat k (toNat (bits ++ List.replicate (k - bits.length) false)) =
      bits ++ List.replicate (k - bits.length) false := by
  have e := ofNat_toNat (bits ++ List.replicate (k - bits.length) false)
  rwa [length_filled few] at e

end Filled

/-- Bits with a one among them do not denote zero. -/
lemma toNat_pos {bits : List Bool} (one : true ∈ bits) : 0 < toNat bits := by
  induction bits with
  | nil => cases one
  | cons b bits ih =>
    rw [toNat_cons]
    cases one with
    | head => have := Nat.two_pow_pos bits.length; simp only [Bool.toNat_true]; omega
    | tail _ one => have := ih one; omega

/-- A number is below the power of two of its width. -/
lemma lt_two_pow_width (n : Nat) : n < 2 ^ width n := by
  rw [width]
  split
  case isTrue zero => rw [zero]; decide
  case isFalse => exact Nat.lt_log2_self

/-- A number below a power of two is no wider than its exponent. -/
lemma width_le {n k : Nat} (lt : n < 2 ^ k) : width n ≤ k := by
  rw [width]
  split
  case isTrue => exact Nat.zero_le k
  case isFalse nonzero => exact (Nat.log2_lt nonzero).2 lt

/-- A number has at most so many bits exactly if it is below their power of two. -/
lemma width_le_iff {n w : Nat} : width n ≤ w ↔ n < 2 ^ w := by
  constructor
  · intro le
    exact Nat.lt_of_lt_of_le (lt_two_pow_width n) (Nat.pow_le_pow_right (by decide) le)
  · exact width_le

/-- A number takes the least number of octets whose bits hold it. -/
lemma octetsFor_width_le_iff {n k : Nat} : octetsFor (width n) ≤ k ↔ n < 2 ^ (8 * k) := by
  rw [← width_le_iff, octetsFor]
  omega

end Binary

namespace Octets

/-- The bits of the byte that is made of fewer bits end with zeros. -/
lemma ofNat_byte_short {bits : List Bool} (len : bits.length ≤ 8) :
    Binary.ofNat 8 (byte bits).toNat = bits ++ List.replicate (8 - bits.length) false := by
  rw [byte, UInt8.toNat_ofNat', Nat.mod_eq_of_lt (Binary.toNat_filled_lt len),
    Binary.ofNat_toNat_filled len]

/-- A byte that is made of eight bits has these bits. -/
lemma ofNat_byte {bits : List Bool} (len : bits.length = 8) :
    Binary.ofNat 8 (byte bits).toNat = bits := by
  rw [ofNat_byte_short len.le, len, Nat.sub_self, List.replicate_zero, List.append_nil]

/-- A byte is made of its bits. -/
@[simp]
lemma byte_ofNat (b : UInt8) : byte (Binary.ofNat 8 b.toNat) = b := by
  have lt := b.toNat_lt
  simp [byte, Nat.mod_eq_of_lt lt]

/-- Bits that do not begin with eight of them are fewer than eight. -/
lemma length_lt_of_no_octet {bits : List Bool}
    (few : ∀ a b c d e f g h rest, bits = a :: b :: c :: d :: e :: f :: g :: h :: rest → False) :
    bits.length < 8 := by
  match bits with
  | a :: b :: c :: d :: e :: f :: g :: h :: rest => exact (few a b c d e f g h rest rfl).elim
  | [] | [_] | [_, _] | [_, _, _] | [_, _, _, _] | [_, _, _, _, _] | [_, _, _, _, _, _]
  | [_, _, _, _, _, _, _] => simp

/-- The bits of the first byte come first. -/
@[simp]
lemma unpack_cons (b : UInt8) (bytes : List UInt8) :
    unpack (b :: bytes) = Binary.ofNat 8 b.toNat ++ unpack bytes :=
  List.flatMap_cons

/-- Each byte has eight bits. -/
@[simp]
lemma length_unpack (bytes : List UInt8) : (unpack bytes).length = 8 * bytes.length := by
  induction bytes with
  | nil => rfl
  | cons b bytes ih => rw [unpack_cons, List.length_append, ih, Binary.length_ofNat,
      List.length_cons]; omega

/-- The bits of bytes follow one another as the bytes do. -/
@[simp]
lemma unpack_append (xs ys : List UInt8) : unpack (xs ++ ys) = unpack xs ++ unpack ys :=
  List.flatMap_append

/-- The first bytes have the first bits. -/
lemma unpack_take (k : Nat) (bytes : List UInt8) :
    unpack (bytes.take k) = (unpack bytes).take (8 * k) := by
  rcases Nat.le_total k bytes.length with h | h
  · have e : (unpack (bytes.take k)).length = 8 * k := by
      rw [length_unpack, List.length_take, Nat.min_eq_left h]
    conv => rhs; rw [← List.take_append_drop k bytes, unpack_append]
    rw [List.take_left' e]
  · rw [List.take_of_length_le h, List.take_of_length_le]
    rw [length_unpack]
    omega

/-- Bits are packed into as few bytes as hold them. -/
@[simp]
lemma length_pack (bits : List Bool) : (pack bits).length = Binary.octetsFor bits.length := by
  fun_induction pack bits with
  | case1 => rfl
  | case2 a b c d e f g h rest ih =>
    simp only [List.length_cons, ih, Binary.octetsFor]
    omega
  | case3 short nonempty few =>
    have len := length_lt_of_no_octet few
    have pos := List.length_pos_iff.2 nonempty
    simp only [List.length_singleton, Binary.octetsFor]
    omega

/-- Packed bits are unpacked to the same bits and the zeros that fill up the last byte. -/
lemma unpack_pack (bits : List Bool) :
    unpack (pack bits) =
      bits ++ List.replicate (8 * Binary.octetsFor bits.length - bits.length) false := by
  fun_induction pack bits with
  | case1 => rfl
  | case2 a b c d e f g h rest ih =>
    have e8 : Binary.octetsFor (rest.length + 8) = Binary.octetsFor rest.length + 1 := by
      simp only [Binary.octetsFor]; omega
    rw [unpack_cons, ih, ofNat_byte rfl]
    simp only [List.length_cons, List.cons_append, List.nil_append]
    rw [e8, Nat.mul_add, Nat.mul_one, Nat.add_sub_add_right]
  | case3 short nonempty few =>
    have len := length_lt_of_no_octet few
    have pos := List.length_pos_iff.2 nonempty
    have e1 : Binary.octetsFor short.length = 1 := by simp only [Binary.octetsFor]; omega
    rw [unpack_cons, ofNat_byte_short (by omega), e1]
    simp [unpack]

/-- Bits that fill whole bytes are unpacked as they were packed. -/
lemma unpack_pack_of_whole {bits : List Bool} (whole : bits.length % 8 = 0) :
    unpack (pack bits) = bits := by
  have h : 8 * Binary.octetsFor bits.length - bits.length = 0 := by
    simp only [Binary.octetsFor]; omega
  rw [unpack_pack, h, List.replicate_zero, List.append_nil]

/-- Eight bits in front are packed into a byte of their own. -/
lemma pack_append {octet : List Bool} (len : octet.length = 8) (bits : List Bool) :
    pack (octet ++ bits) = byte octet :: pack bits := by
  match octet, len with
  | [a, b, c, d, e, f, g, h], _ => rfl

/-- Bits behind whole bytes are packed into bytes of their own. -/
lemma pack_append_of_whole {xs : List Bool} (whole : xs.length % 8 = 0) (ys : List Bool) :
    pack (xs ++ ys) = pack xs ++ pack ys := by
  fun_induction pack xs with
  | case1 => rfl
  | case2 a b c d e f g h rest ih =>
    simp only [List.length_cons] at whole
    simp only [List.cons_append, pack]
    rw [ih (by omega)]
  | case3 short nonempty few =>
    have len := length_lt_of_no_octet few
    have pos := List.length_pos_iff.2 nonempty
    omega

/-- Up to eight bits are packed into one byte. -/
lemma pack_of_le {bits : List Bool} (pos : 0 < bits.length) (few : bits.length ≤ 8) :
    pack bits = [byte bits] := by
  match bits with
  | [] => exact (Nat.lt_irrefl 0 pos).elim
  | [_] | [_, _] | [_, _, _] | [_, _, _, _] | [_, _, _, _, _] | [_, _, _, _, _, _]
  | [_, _, _, _, _, _, _] | [_, _, _, _, _, _, _, _] => rfl
  | _ :: _ :: _ :: _ :: _ :: _ :: _ :: _ :: _ :: _ => simp only [List.length_cons] at few; omega

/-- Unpacked bytes are packed into the same bytes. -/
@[simp]
lemma pack_unpack (bytes : List UInt8) : pack (unpack bytes) = bytes := by
  induction bytes with
  | nil => rfl
  | cons b bytes ih => rw [unpack_cons, pack_append (Binary.length_ofNat _ _), byte_ofNat, ih]

/-- A number that is read behind another moves it up. -/
lemma foldl_toNat (n : Nat) (bytes : List UInt8) :
    bytes.foldl (fun n b => 256 * n + b.toNat) n = n * 256 ^ bytes.length + toNat bytes := by
  induction bytes generalizing n with
  | nil => simp [toNat]
  | cons b bytes ih =>
    have h0 := ih b.toNat
    simp only [toNat, List.foldl_cons, List.length_cons, ih (256 * n + b.toNat)] at h0 ⊢
    rw [Nat.mul_zero, Nat.zero_add, h0, Nat.pow_succ, Nat.add_mul, Nat.add_assoc]
    congr 1
    rw [Nat.mul_comm 256 n, Nat.mul_assoc, Nat.mul_comm 256]

/-- The first byte counts for the power of 256 of the number of bytes behind it. -/
lemma toNat_cons (b : UInt8) (bytes : List UInt8) :
    toNat (b :: bytes) = b.toNat * 256 ^ bytes.length + toNat bytes := by
  have h := foldl_toNat b.toNat bytes
  rw [toNat, List.foldl_cons]
  simpa using h

/-- What the bytes of a number leave out are the multiples of their power of 256. -/
@[simp]
lemma toNat_ofNat (size n : Nat) : toNat (ofNat size n) = n % 256 ^ size := by
  induction size with
  | zero => simp [ofNat, toNat, Nat.mod_one]
  | succ size ih =>
    have e : n >>> (8 * size) = n / 256 ^ size := by
      rw [Nat.shiftRight_eq_div_pow, Nat.pow_mul]
    rw [ofNat, toNat_cons, ih, length_ofNat, Nat.mod_pow_succ, e, UInt8.toNat_ofNat', Nat.mul_comm,
      Nat.add_comm]

/-- A number that fits into its bytes is read back from them. -/
lemma toNat_ofNat_of_lt {size n : Nat} (fits : n < 256 ^ size) : toNat (ofNat size n) = n := by
  rw [toNat_ofNat, Nat.mod_eq_of_lt fits]

/-- Bytes denote a number below their power of 256. -/
lemma toNat_lt (bytes : List UInt8) : toNat bytes < 256 ^ bytes.length := by
  induction bytes with
  | nil => exact Nat.one_pos
  | cons b bytes ih =>
    have le := Nat.mul_le_mul_right (256 ^ bytes.length) (Nat.succ_le_of_lt b.toNat_lt)
    rw [Nat.succ_mul] at le
    rw [toNat_cons, List.length_cons, Nat.pow_succ, Nat.mul_comm (256 ^ bytes.length)]
    omega

/-- The low bytes of a number do not depend on what stands above them. -/
lemma ofNat_mul_add (size k n : Nat) : ofNat size (256 ^ size * k + n) = ofNat size n := by
  induction size generalizing k with
  | zero => rfl
  | succ size ih =>
    have e : 256 ^ (size + 1) * k + n = 256 ^ size * (256 * k) + n := by
      rw [Nat.pow_succ, Nat.mul_assoc]
    have shift : (256 ^ size * (256 * k) + n) >>> (8 * size) = 256 * k + n >>> (8 * size) := by
      rw [Nat.shiftRight_eq_div_pow, Nat.shiftRight_eq_div_pow, Nat.pow_mul]
      exact Nat.mul_add_div (Nat.pow_pos (by decide)) _ _
    rw [ofNat, ofNat, e, shift, ih]
    congr 1
    apply UInt8.toNat_inj.1
    rw [UInt8.toNat_ofNat', UInt8.toNat_ofNat', Nat.mul_add_mod]

/-- Bytes are those of the number that they denote. -/
@[simp]
lemma ofNat_toNat (bytes : List UInt8) : ofNat bytes.length (toNat bytes) = bytes := by
  induction bytes with
  | nil => rfl
  | cons b bytes ih =>
    have top : (256 ^ bytes.length * b.toNat + toNat bytes) >>> (8 * bytes.length) = b.toNat := by
      rw [Nat.shiftRight_eq_div_pow, Nat.pow_mul, Nat.mul_add_div (Nat.pow_pos (by decide)),
        Nat.div_eq_of_lt (toNat_lt bytes), Nat.add_zero]
    rw [List.length_cons, toNat_cons, Nat.mul_comm, ofNat, top, ofNat_mul_add, ih,
      UInt8.ofNat_toNat]

/-- A number in front of bytes is told apart from them by its size. -/
lemma ofNat_append_inj {size n m : Nat} {xs ys : List UInt8} (hn : n < 256 ^ size)
    (hm : m < 256 ^ size) (e : ofNat size n ++ xs = ofNat size m ++ ys) : n = m ∧ xs = ys := by
  obtain ⟨same, rest⟩ := List.append_inj e (by rw [length_ofNat, length_ofNat])
  refine ⟨?_, rest⟩
  rw [← toNat_ofNat_of_lt hn, same, toNat_ofNat_of_lt hm]

/-- Numbers of bytes that stand one after the other can be told from what follows them. -/
lemma flatMap_ofNat_append_inj {size : Nat} {ns ms : List Nat} {xs ys : List UInt8}
    (len : ns.length = ms.length) (hn : ∀ n ∈ ns, n < 256 ^ size) (hm : ∀ m ∈ ms, m < 256 ^ size)
    (e : ns.flatMap (ofNat size) ++ xs = ms.flatMap (ofNat size) ++ ys) : ns = ms ∧ xs = ys := by
  induction ns generalizing ms with
  | nil =>
    cases List.length_eq_zero_iff.1 len.symm
    exact ⟨rfl, e⟩
  | cons n ns ih =>
    obtain ⟨m, ms, rfl⟩ := List.exists_cons_of_length_eq_add_one len.symm
    obtain ⟨hn, hns⟩ := List.forall_mem_cons.1 hn
    obtain ⟨hm, hms⟩ := List.forall_mem_cons.1 hm
    rw [List.flatMap_cons, List.flatMap_cons, List.append_assoc, List.append_assoc] at e
    obtain ⟨first, later⟩ := ofNat_append_inj hn hm e
    obtain ⟨others, rest⟩ := ih (Nat.succ.inj len) hns hms later
    exact ⟨by rw [first, others], rest⟩

end Octets

end CellBag
