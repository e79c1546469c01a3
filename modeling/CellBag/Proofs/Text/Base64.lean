import CellBag.Proofs.Binary
import CellBag.Text.Base64
import Mathlib

/-!
# Base 64 as a codec

Values below sixty-four and the characters of an alphabet determine each other, and so do bytes and
groups of six bits, because the zeros that fill the last group are checked. So text is read as bytes
in a form exactly if it is what these bytes are written as (`Text.Base64.decode_eq_some`), and forms
that can both be read agree (`Text.Base64.encode_inj`). The form that text seems to be in need not
be the one that it was written in, but it writes the same (`Text.Base64.encode_formOf`).
-/

namespace CellBag.Text.Base64

section Characters

/-- The values below sixty-four are those of the characters. -/
lemma value?_digit (alphabet : Alphabet) {v : Nat} (lt : v < 64) :
    alphabet.value? (alphabet.digit v) = some v := by
  have all : ∀ v < 64, alphabet.value? (alphabet.digit v) = some v := by
    cases alphabet with
    | standard => decide +kernel
    | urlSafe => decide +kernel
  exact all v lt

/-- A character is that of its number. -/
lemma ofNat_of_toNat {c : Char} {n : Nat} (e : n = c.toNat) : Char.ofNat n = c := by
  rw [e, Char.ofNat_toNat]

/-- A character has a value exactly if it is the digit for it. -/
lemma value?_eq_some {alphabet : Alphabet} {c : Char} {v : Nat} :
    alphabet.value? c = some v ↔ v < 64 ∧ c = alphabet.digit v := by
  constructor
  · intro e
    rw [Alphabet.value?] at e
    split_ifs at e with upper lower decimal plus slash
    · cases e
      refine ⟨by omega, ?_⟩
      unfold Alphabet.digit
      rw [if_pos (by omega), ofNat_of_toNat (c := c) (by omega)]
    · cases e
      refine ⟨by omega, ?_⟩
      unfold Alphabet.digit
      rw [if_neg (by omega), if_pos (by omega), ofNat_of_toNat (c := c) (by omega)]
    · cases e
      refine ⟨by omega, ?_⟩
      unfold Alphabet.digit
      rw [if_neg (by omega), if_neg (by omega), if_pos (by omega),
        ofNat_of_toNat (c := c) (by omega)]
    · cases e
      exact ⟨by decide, plus⟩
    · cases e
      exact ⟨by decide, slash⟩
  · intro h
    obtain ⟨lt, rfl⟩ := h
    exact value?_digit alphabet lt

/-- Text has the values of which it holds the digits. -/
lemma mapM_value?_eq_some {alphabet : Alphabet} {text : List Char} {values : List Nat} :
    text.mapM alphabet.value? = some values ↔
      (∀ v ∈ values, v < 64) ∧ text = values.map alphabet.digit := by
  induction text generalizing values with
  | nil =>
    rw [List.mapM_nil, Option.pure_def, Option.some.injEq]
    constructor
    · intro e
      cases e
      exact ⟨List.forall_mem_nil _, rfl⟩
    · intro h
      exact (List.map_eq_nil_iff.1 h.2.symm).symm
  | cons c text ih =>
    rw [List.mapM_cons]
    simp only [Option.bind_eq_bind, Option.bind_eq_some_iff, Option.pure_def, Option.some.injEq, ih,
      value?_eq_some]
    constructor
    · intro h
      obtain ⟨v, ⟨lt, rfl⟩, values, ⟨all, rfl⟩, rfl⟩ := h
      exact ⟨List.forall_mem_cons.2 ⟨lt, all⟩, rfl⟩
    · intro h
      obtain ⟨all, e⟩ := h
      cases values with
      | nil => cases e
      | cons v values =>
        obtain ⟨lt, all⟩ := List.forall_mem_cons.1 all
        obtain ⟨first, rest⟩ := List.cons.inj e
        exact ⟨v, ⟨lt, first⟩, values, ⟨all, rest⟩, rfl⟩

end Characters

section Sextets
variable {bits : List Bool} {values : List Nat}

/-- Bits that do not begin with six of them are fewer than six. -/
lemma length_lt_of_no_sextet
    (few : ∀ a b c d e f rest, bits = a :: b :: c :: d :: e :: f :: rest → False) :
    bits.length < 6 := by
  match bits with
  | a :: b :: c :: d :: e :: f :: rest => exact (few a b c d e f rest rfl).elim
  | [] | [_] | [_, _] | [_, _, _] | [_, _, _, _] | [_, _, _, _, _] => simp

/-- There is a group for each six bits, and one for those that are left. -/
lemma length_sextets (bits : List Bool) : (sextets bits).length = (bits.length + 5) / 6 := by
  fun_induction sextets bits with
  | case1 => rfl
  | case2 a b c d e f rest ih =>
    simp only [List.length_cons, ih]
    omega
  | case3 short nonempty few =>
    have len := length_lt_of_no_sextet few
    have pos := List.length_pos_iff.2 nonempty
    rw [List.length_singleton]
    omega

/-- Six bits denote a number below 64. -/
lemma sextets_lt (bits : List Bool) : ∀ v ∈ sextets bits, v < 64 := by
  fun_induction sextets bits with
  | case1 => exact List.forall_mem_nil _
  | case2 a b c d e f rest ih =>
    exact List.forall_mem_cons.2 ⟨Binary.toNat_lt [a, b, c, d, e, f], ih⟩
  | case3 short nonempty few =>
    exact List.forall_mem_singleton.2 (Binary.toNat_filled_lt (length_lt_of_no_sextet few).le)

/-- Groups of six bits spell the same bits and the zeros that fill the last group. -/
lemma flatMap_sextets (bits : List Bool) :
    (sextets bits).flatMap (Binary.ofNat 6) =
      bits ++ List.replicate ((6 - bits.length % 6) % 6) false := by
  fun_induction sextets bits with
  | case1 => rfl
  | case2 a b c d e f rest ih =>
    have first : Binary.ofNat 6 (Binary.toNat [a, b, c, d, e, f]) = [a, b, c, d, e, f] :=
      Binary.ofNat_toNat [a, b, c, d, e, f]
    have same : (6 - (rest.length + 6) % 6) % 6 = (6 - rest.length % 6) % 6 := by omega
    rw [List.flatMap_cons, ih, first]
    simp only [List.length_cons, List.cons_append, List.nil_append]
    rw [same]
  | case3 short nonempty few =>
    have len := length_lt_of_no_sextet few
    have pos := List.length_pos_iff.2 nonempty
    have fill : (6 - short.length % 6) % 6 = 6 - short.length := by omega
    rw [List.flatMap_singleton, Binary.ofNat_toNat_filled len.le, fill]

/-- Six bits in front are a group of their own. -/
lemma sextets_append {group : List Bool} (len : group.length = 6) (bits : List Bool) :
    sextets (group ++ bits) = Binary.toNat group :: sextets bits := by
  match group, len with
  | [a, b, c, d, e, f], _ => rfl

/-- Values of six bits are grouped again as they were. -/
lemma sextets_flatMap (small : ∀ v ∈ values, v < 64) :
    sextets (values.flatMap (Binary.ofNat 6)) = values := by
  induction values with
  | nil => rfl
  | cons v values ih =>
    obtain ⟨lt, small⟩ := List.forall_mem_cons.1 small
    have value : Binary.toNat (Binary.ofNat 6 v) = v :=
      (Binary.toNat_ofNat 6 v).trans (Nat.mod_eq_of_lt lt)
    rw [List.flatMap_cons, sextets_append (Binary.length_ofNat 6 v), value, ih small]

/-- Groups have six bits each. -/
lemma length_flatMap_ofNat (values : List Nat) :
    (values.flatMap (Binary.ofNat 6)).length = 6 * values.length := by
  induction values with
  | nil => rfl
  | cons v values ih =>
    rw [List.flatMap_cons, List.length_append, ih, Binary.length_ofNat, List.length_cons]
    omega

/-- Fewer zeros than a group has, which fill the last one, may stand behind bits. -/
lemma sextets_append_zeros {k : Nat} (few : k < 6) (full : (bits.length + k) % 6 = 0) :
    sextets (bits ++ List.replicate k false) = sextets bits := by
  have fill : k = (6 - bits.length % 6) % 6 := by omega
  rw [fill, ← flatMap_sextets, sextets_flatMap (sextets_lt bits)]

/-- Fewer zeros than a group has may be cut off the end of whole groups. -/
lemma sextets_take {n : Nat} (whole : bits.length % 6 = 0) (few : (bits.drop n).length < 6)
    (zeros : (bits.drop n).all (!·) = true) : sextets (bits.take n) = sextets bits := by
  have parts := List.take_append_drop n bits
  have filler : bits.drop n = List.replicate (bits.drop n).length false := by
    rw [List.eq_replicate_iff]
    refine ⟨rfl, fun b mem => ?_⟩
    rw [List.all_eq_true] at zeros
    exact (Bool.not_eq_true' b).mp (zeros b mem)
  have full : ((bits.take n).length + (bits.drop n).length) % 6 = 0 := by
    rw [← List.length_append, parts, whole]
  rw [← sextets_append_zeros few full, ← filler, parts]

end Sextets

section Digits

/-- Characters without padding are read as the bytes that they are written for. -/
lemma decodeDigits_eq_some {alphabet : Alphabet} {text : List Char} {bytes : List UInt8} :
    decodeDigits alphabet text = some bytes ↔
      text = (sextets (Octets.unpack bytes)).map alphabet.digit := by
  rw [decodeDigits]
  simp only [Option.bind_eq_bind, Option.bind_eq_some_iff, mapM_value?_eq_some,
    Option.ite_none_right_eq_some, Option.some.injEq]
  constructor
  · intro h
    obtain ⟨values, ⟨small, rfl⟩, ⟨few, zeros⟩, rfl⟩ := h
    have whole : (values.flatMap (Binary.ofNat 6)).length % 6 = 0 := by
      rw [length_flatMap_ofNat]
      exact Nat.mul_mod_right 6 _
    have front : ((values.flatMap (Binary.ofNat 6)).take
        ((values.flatMap (Binary.ofNat 6)).length / 8 * 8)).length % 8 = 0 := by
      rw [List.length_take, Nat.min_eq_left (Nat.div_mul_le_self _ 8)]
      exact Nat.mul_mod_left _ 8
    rw [Octets.unpack_pack_of_whole front, sextets_take whole few zeros, sextets_flatMap small]
  · intro e
    have spelled := flatMap_sextets (Octets.unpack bytes)
    have len := Octets.length_unpack bytes
    have whole : ((sextets (Octets.unpack bytes)).flatMap (Binary.ofNat 6)).length / 8 * 8 =
        (Octets.unpack bytes).length := by
      rw [spelled, List.length_append, List.length_replicate]
      omega
    refine ⟨_, ⟨sextets_lt _, e⟩, ?_, ?_⟩
    · rw [whole, spelled, List.drop_left, List.length_replicate]
      refine ⟨Nat.mod_lt _ (by decide), List.all_eq_true.2 fun b mem => ?_⟩
      rw [List.eq_of_mem_replicate mem]
      rfl
    · rw [whole, spelled, List.take_left, Octets.pack_unpack]

end Digits

section Padding
variable {text body : List Char} {count k : Nat}

/-- Characters that are passed over are repetitions of one. -/
lemma take_eq_replicate {c : Char} (le : k ≤ (text.takeWhile (· = c)).length) :
    text.take k = List.replicate k c := by
  have run : text.takeWhile (· = c) = List.replicate (text.takeWhile (· = c)).length c :=
    List.eq_replicate_iff.2
      ⟨rfl, fun _ mem => of_decide_eq_true (List.mem_takeWhile_imp (p := (· = c)) mem)⟩
  have front : (text.takeWhile (· = c) ++ text.dropWhile (· = c)).take k =
      (text.takeWhile (· = c)).take k :=
    List.take_append_of_le_length le
  rw [List.takeWhile_append_dropWhile, run, List.take_replicate, Nat.min_eq_left le] at front
  exact front

/-- What is dropped is padding, and no more of it than is allowed. -/
lemma exists_dropPadding (count : Nat) (text : List Char) :
    ∃ k ≤ count, text = dropPadding count text ++ List.replicate k '=' := by
  have few := Nat.min_le_right count (text.reverse.takeWhile (· = '=')).length
  refine ⟨min count (text.reverse.takeWhile (· = '=')).length, Nat.min_le_left count _, ?_⟩
  have whole := List.take_append_drop
    (min count (text.reverse.takeWhile (· = '=')).length) text.reverse
  rw [take_eq_replicate few] at whole
  have back := congrArg List.reverse whole
  rw [List.reverse_append, List.reverse_replicate, List.reverse_reverse] at back
  exact back.symm

/-- Padding behind text that has none is dropped as a whole, as far as it is allowed. -/
lemma dropPadding_append (none : '=' ∉ body) (few : k ≤ count) :
    dropPadding count (body ++ List.replicate k '=') = body := by
  have tail : (body ++ List.replicate k '=').reverse = List.replicate k '=' ++ body.reverse := by
    rw [List.reverse_append, List.reverse_replicate]
  have front : body.reverse.takeWhile (· = '=') = [] := by
    cases e : body.reverse with
    | nil => rfl
    | cons c rest =>
      have other : c ≠ '=' := by
        rintro rfl
        exact none (List.mem_reverse.1 (e ▸ List.mem_cons_self))
      exact List.takeWhile_cons_of_neg (by simpa using other)
  have pads : ((body ++ List.replicate k '=').reverse.takeWhile (· = '=')).length = k := by
    rw [tail, List.takeWhile_append_of_pos, front, List.append_nil, List.length_replicate]
    intro c mem
    exact decide_eq_true (List.eq_of_mem_replicate mem)
  rw [dropPadding, pads, Nat.min_eq_right few, tail,
    List.drop_left' (List.length_replicate ..), List.reverse_reverse]

end Padding

section Forms
variable {form form' : Form} {bytes bytes' : List UInt8} {text : List Char}

/-- No digit is a padding character or a colon. -/
lemma digit_ne (alphabet : Alphabet) {v : Nat} (lt : v < 64) :
    alphabet.digit v ≠ '=' ∧ alphabet.digit v ≠ ':' := by
  have all : ∀ v < 64, alphabet.digit v ≠ '=' ∧ alphabet.digit v ≠ ':' := by
    cases alphabet with
    | standard => decide +kernel
    | urlSafe => decide +kernel
  exact all v lt

/-- The characters that bytes are written as, without padding. -/
def digits (form : Form) (bytes : List UInt8) : List Char :=
  (sextets (Octets.unpack bytes)).map form.alphabet.digit

/-- There is no padding character and no colon among the digits. -/
lemma digits_ne {c : Char} (mem : c ∈ digits form bytes) : c ≠ '=' ∧ c ≠ ':' := by
  obtain ⟨v, here, rfl⟩ := List.mem_map.1 mem
  exact digit_ne form.alphabet (sextets_lt _ v here)

/-- There are as many digits as groups of six bits. -/
lemma length_digits (form : Form) (bytes : List UInt8) :
    (digits form bytes).length = (8 * bytes.length + 5) / 6 := by
  rw [digits, List.length_map, length_sextets, Octets.length_unpack]

/-- Bytes are written as their characters, and padding in a padded form. -/
lemma encode_eq (form : Form) (bytes : List UInt8) :
    encode form bytes = digits form bytes ++
      List.replicate (if form.padded then (4 - (digits form bytes).length % 4) % 4 else 0) '=' := by
  rw [encode]
  split
  · rfl
  · exact (List.append_nil _).symm

/-- Text is read as bytes in a form exactly if it is what these bytes are written as. -/
theorem decode_eq_some : decode form text = some bytes ↔ text = encode form bytes := by
  have len := length_digits form bytes
  rw [decode, encode_eq]
  split
  case isFalse =>
    rw [List.replicate_zero, List.append_nil]
    exact decodeDigits_eq_some
  case isTrue =>
    rw [Option.ite_none_right_eq_some, decodeDigits_eq_some]
    constructor
    · intro h
      obtain ⟨full, body⟩ := h
      obtain ⟨k, few, whole⟩ := exists_dropPadding 2 text
      have body : dropPadding 2 text = digits form bytes := body
      have total := congrArg List.length whole
      rw [body, List.length_append, List.length_replicate] at total
      have pads : k = (4 - (digits form bytes).length % 4) % 4 := by omega
      rw [← pads, ← body]
      exact whole
    · rintro rfl
      have few : (4 - (digits form bytes).length % 4) % 4 ≤ 2 := by omega
      refine ⟨?_, dropPadding_append (fun mem => (digits_ne mem).1 rfl) few⟩
      rw [List.length_append, List.length_replicate]
      omega

/-- The value of a character in either alphabet. -/
def value? (c : Char) : Option Nat :=
  (Alphabet.standard.value? c).or (Alphabet.urlSafe.value? c)

/-- The digits of both alphabets have their values. -/
lemma value?_digit_of_either (alphabet : Alphabet) {v : Nat} (lt : v < 64) :
    value? (alphabet.digit v) = some v := by
  have all : ∀ v < 64, value? (alphabet.digit v) = some v := by
    cases alphabet with
    | standard => decide +kernel
    | urlSafe => decide +kernel
  exact all v lt

/-- The values of the characters do not depend on the form. -/
lemma filterMap_encode (form : Form) (bytes : List UInt8) :
    (encode form bytes).filterMap value? = sextets (Octets.unpack bytes) := by
  have values : (digits form bytes).filterMap value? = sextets (Octets.unpack bytes) := by
    have each : ∀ v ∈ sextets (Octets.unpack bytes),
        (value? ∘ form.alphabet.digit) v = some v := fun v mem =>
      value?_digit_of_either form.alphabet (sextets_lt _ v mem)
    rw [digits, List.filterMap_map, List.filterMap_congr each, List.filterMap_some]
  have pads (k : Nat) : (List.replicate k '=').filterMap value? = [] := by
    rw [List.filterMap_eq_nil_iff]
    intro c mem
    rw [List.eq_of_mem_replicate mem]
    rfl
  rw [encode_eq, List.filterMap_append, values, pads, List.append_nil]

/-- No text is written for different bytes, not even in different forms. -/
theorem encode_inj (same : encode form bytes = encode form' bytes') : bytes = bytes' := by
  have values := congrArg (List.filterMap value?) same
  rw [filterMap_encode, filterMap_encode] at values
  have read := decodeDigits_eq_some.2 (rfl : digits form bytes = _)
  have read' : decodeDigits form.alphabet (digits form bytes) = some bytes' :=
    decodeDigits_eq_some.2 (by rw [digits, values])
  exact Option.some.inj (read.symm.trans read')

/-- What holds of the digits and of padding holds of all characters. -/
lemma forall_mem_encode {P : Char → Prop} (each : ∀ v < 64, P (form.alphabet.digit v))
    (pad : P '=') : ∀ c ∈ encode form bytes, P c := by
  intro c mem
  rw [encode_eq, List.mem_append] at mem
  cases mem with
  | inl digit =>
    obtain ⟨v, here, rfl⟩ := List.mem_map.1 digit
    exact each v (sextets_lt _ v here)
  | inr padding => exact List.eq_of_mem_replicate padding ▸ pad

/-- There is no colon in bytes that are encoded. -/
lemma colon_notMem_encode (form : Form) (bytes : List UInt8) : ':' ∉ encode form bytes := by
  have other : ∀ c ∈ encode form bytes, c ≠ ':' :=
    forall_mem_encode (fun v lt => (digit_ne form.alphabet lt).2) (by decide)
  exact fun mem => other _ mem rfl

/-- Bytes are encoded in characters of ASCII. -/
lemma encode_plain (form : Form) (bytes : List UInt8) : ∀ c ∈ encode form bytes, c.toNat < 128 := by
  have all (alphabet : Alphabet) : ∀ v < 64, (alphabet.digit v).toNat < 128 := by
    cases alphabet with
    | standard => decide +kernel
    | urlSafe => decide +kernel
  exact forall_mem_encode (all form.alphabet) (by decide)

/-- No character is a blank. -/
lemma encode_solid (form : Form) (bytes : List UInt8) :
    ∀ c ∈ encode form bytes, isBlank c = false := by
  have all (alphabet : Alphabet) : ∀ v < 64, isBlank (alphabet.digit v) = false := by
    cases alphabet with
    | standard => decide +kernel
    | urlSafe => decide +kernel
  exact forall_mem_encode (all form.alphabet) (by decide)

/-- Bytes in groups of three need no padding. -/
lemma encode_of_whole (form : Form) (whole : bytes.length % 3 = 0) :
    encode form bytes = digits form bytes := by
  have full : (4 - (digits form bytes).length % 4) % 4 = 0 := by
    rw [length_digits]
    omega
  rw [encode_eq, full, ite_self, List.replicate_zero, List.append_nil]

/-- The bits of the values of some characters. -/
def bitsOf (text : List Char) : List Bool :=
  (text.filterMap value?).flatMap (Binary.ofNat 6)

/-- The bits of a text follow one another as its characters do. -/
lemma bitsOf_append (xs ys : List Char) : bitsOf (xs ++ ys) = bitsOf xs ++ bitsOf ys := by
  rw [bitsOf, List.filterMap_append, List.flatMap_append]
  rfl

/-- No character has more than six bits. -/
lemma length_bitsOf_le (text : List Char) : (bitsOf text).length ≤ 6 * text.length := by
  rw [bitsOf, length_flatMap_ofNat]
  exact Nat.mul_le_mul_left 6 (List.length_filterMap_le ..)

/-- Bytes in groups of three have the bits of their characters. -/
lemma bitsOf_encode (form : Form) (whole : bytes.length % 3 = 0) :
    bitsOf (encode form bytes) = Octets.unpack bytes := by
  have full : (6 - (Octets.unpack bytes).length % 6) % 6 = 0 := by
    rw [Octets.length_unpack]
    omega
  rw [bitsOf, filterMap_encode, flatMap_sextets, full, List.replicate_zero, List.append_nil]

end Forms

section Detection

/-- The standard alphabet has no digits of the other one. -/
lemma standard_ne (v : Nat) (lt : v < 64) :
    Alphabet.standard.digit v ≠ '-' ∧ Alphabet.standard.digit v ≠ '_' := by
  revert v
  decide +kernel

/-- A digit that tells no alphabet is the same in both. -/
lemma digit_eq_standard {alphabet : Alphabet} {v : Nat} (lt : v < 64)
    (plain : ¬ (alphabet.digit v = '-' ∨ alphabet.digit v = '_')) :
    alphabet.digit v = Alphabet.standard.digit v := by
  have all : ∀ v < 64, ¬ (Alphabet.urlSafe.digit v = '-' ∨ Alphabet.urlSafe.digit v = '_') →
      Alphabet.urlSafe.digit v = Alphabet.standard.digit v := by decide +kernel
  cases alphabet with
  | standard => rfl
  | urlSafe => exact all v lt plain

/-- The alphabet that text seems to be in has all its digits. -/
lemma digits_formOf (form : Form) (bytes : List UInt8) :
    digits (formOf (encode form bytes)) bytes = digits form bytes := by
  have subset : ∀ c ∈ digits form bytes, c ∈ encode form bytes := by
    rw [encode_eq]
    exact fun _ => List.mem_append_left _
  refine List.map_congr_left fun v mem => ?_
  simp only [formOf, List.any_eq_true, Bool.or_eq_true, decide_eq_true_eq]
  split
  case isTrue told =>
    obtain ⟨c, here, dash⟩ := told
    cases e : form.alphabet with
    | standard =>
      have none : ∀ c ∈ encode form bytes, c ≠ '-' ∧ c ≠ '_' :=
        forall_mem_encode (e ▸ standard_ne) (by decide)
      exact (dash.elim (none c here).1 (none c here).2).elim
    | urlSafe => rfl
  case isFalse untold =>
    refine (digit_eq_standard (sextets_lt _ v mem) fun dash => untold ⟨_, ?_, dash⟩).symm
    exact subset _ (List.mem_map_of_mem mem)

/-- Text that ends in an equals sign is padded. -/
lemma getLast?_encode (form : Form) (bytes : List UInt8) :
    (encode form bytes).getLast? = some '=' ↔
      form.padded = true ∧ (4 - (digits form bytes).length % 4) % 4 ≠ 0 := by
  have last : (digits form bytes).getLast? ≠ some '=' := fun e =>
    (digits_ne (List.mem_of_getLast? e)).1 rfl
  rw [encode_eq]
  by_cases padded : form.padded = true
  · rw [if_pos padded, and_iff_right padded]
    cases (4 - (digits form bytes).length % 4) % 4 with
    | zero => rw [List.replicate_zero, List.append_nil]; exact iff_of_false last (not_not.2 rfl)
    | succ k =>
      rw [List.replicate_succ', ← List.append_assoc, List.getLast?_concat]
      exact iff_of_true rfl (Nat.succ_ne_zero k)
  · rw [if_neg padded, List.replicate_zero, List.append_nil]
    exact iff_of_false last fun h => padded h.1

/-- Text may seem to be in another form than it was written in, but in that form it is the text of
the same bytes. -/
lemma encode_formOf (form : Form) (bytes : List UInt8) :
    encode (formOf (encode form bytes)) bytes = encode form bytes := by
  have padded : (formOf (encode form bytes)).padded = true ↔ _ :=
    decide_eq_true_iff.trans (getLast?_encode form bytes)
  rw [encode_eq (formOf _), digits_formOf, if_congr padded rfl rfl, encode_eq form]
  congr 2
  split
  case isTrue h => rw [if_pos h.1]
  case isFalse h =>
    split
    case isTrue p => exact (not_not.1 fun some => h ⟨p, some⟩).symm
    case isFalse => rfl

/-- There are no blanks around bytes that are encoded. -/
lemma trim_encode (form : Form) (bytes : List UInt8) :
    trim (encode form bytes) = encode form bytes := by
  have solid := encode_solid form bytes
  have keep {text : List Char} (solid : ∀ c ∈ text, isBlank c = false) :
      text.dropWhile isBlank = text :=
    List.dropWhile_eq_self_iff.2 fun pos => by rw [solid _ (List.getElem_mem pos)]; decide
  rw [trim, keep solid, keep fun c mem => solid c (List.mem_reverse.1 mem), List.reverse_reverse]

/-- Bytes are read back from their text in any form. -/
theorem decodeAny_encode (form : Form) (bytes : List UInt8) :
    decodeAny (encode form bytes) = some bytes := by
  rw [decodeAny, trim_encode]
  exact decode_eq_some.2 (encode_formOf form bytes).symm

end Detection

end CellBag.Text.Base64
