import CellBag.Proofs.Outcome
import CellBag.Text.Blank
import CellBag.Text.Decimal
import CellBag.Text.Hex
import Mathlib

/-!
# Digits

Bytes are read back from their hexadecimal digits in either case (`Text.Hex.decode_of_spells`) and
integers from their decimal ones (`Text.Decimal.int?_render`). In UTF-8 such text has one byte for
each character.
-/

namespace CellBag.Text

section Utf8

/-- The bytes of an array are taken from its front one by one. -/
lemma toList_loop (bytes : ByteArray) (i : Nat) (taken : List UInt8) :
    ByteArray.toList.loop bytes i taken = taken.reverse ++ bytes.data.toList.drop i := by
  induction i, taken using ByteArray.toList.loop.induct bytes with
  | case1 i taken lt ih =>
    have within : i < bytes.data.toList.length := lt
    have here : bytes.get! i = bytes.data.toList[i] := getElem!_pos bytes.data i lt
    rw [ByteArray.toList.loop, if_pos lt, ih, List.drop_eq_getElem_cons within, here,
      List.reverse_cons, List.append_assoc, List.singleton_append]
  | case2 i taken ge =>
    have none : bytes.data.toList.length ≤ i := Nat.not_lt.1 ge
    rw [ByteArray.toList.loop, if_neg ge, List.drop_of_length_le none, List.append_nil]

/-- An array of bytes has the bytes that it was made of. -/
lemma toList_toByteArray (bytes : List UInt8) : bytes.toByteArray.toList = bytes := by
  rw [ByteArray.toList, toList_loop, List.data_toByteArray]
  rfl

/-- A character of ASCII takes one byte. -/
lemma utf8EncodeChar_of_lt {c : Char} (plain : c.toNat < 128) :
    String.utf8EncodeChar c = [UInt8.ofNat c.toNat] := by
  have single : c.utf8Size = 1 := if_pos (Nat.le_of_lt_succ plain)
  rw [String.utf8EncodeChar_eq_singleton single]
  rfl

/-- The bytes of text are those of its characters. -/
lemma utf8_eq_flatMap (text : List Char) :
    utf8 (String.ofList text) = text.flatMap String.utf8EncodeChar :=
  toList_toByteArray _

/-- Texts take the bytes of their parts. -/
lemma length_utf8_append (xs ys : List Char) : (utf8 (String.ofList (xs ++ ys))).length =
    (utf8 (String.ofList xs)).length + (utf8 (String.ofList ys)).length := by
  rw [utf8_eq_flatMap, utf8_eq_flatMap, utf8_eq_flatMap, List.flatMap_append, List.length_append]

/-- A character has at most four bytes. -/
lemma length_utf8_le (text : List Char) :
    (utf8 (String.ofList text)).length ≤ 4 * text.length := by
  rw [utf8_eq_flatMap]
  induction text with
  | nil => exact Nat.le_refl 0
  | cons c text ih =>
    have first := c.utf8Size_le_four
    rw [List.flatMap_cons, List.length_append, String.length_utf8EncodeChar, List.length_cons]
    omega

/-- Characters below 128 have one byte each. -/
lemma utf8_ofList {text : List Char} (plain : ∀ c ∈ text, c.toNat < 128) :
    utf8 (String.ofList text) = text.map fun c => UInt8.ofNat c.toNat := by
  rw [utf8_eq_flatMap]
  induction text with
  | nil => rfl
  | cons c text ih =>
    obtain ⟨first, rest⟩ := List.forall_mem_cons.1 plain
    rw [List.flatMap_cons, List.map_cons, utf8EncodeChar_of_lt first, ih rest]
    rfl

end Utf8

namespace Hex

/-- A hexadecimal digit has its value. -/
lemma value?_digit {upper : Bool} {n : Nat} (lt : n < 16) :
    value? (UInt8.ofNat (digit upper n).toNat) = some n := by
  have all : ∀ upper, ∀ n < 16, value? (UInt8.ofNat (digit upper n).toNat) = some n := by
    decide +kernel
  exact all upper n lt

/-- Hexadecimal digits are characters of ASCII. -/
lemma digit_plain {upper : Bool} {n : Nat} (lt : n < 16) : (digit upper n).toNat < 128 := by
  have all : ∀ upper, ∀ n < 16, (digit upper n).toNat < 128 := by decide +kernel
  exact all upper n lt

/-- Text spells bytes when it has two digits for each of them, each digit in either case. -/
inductive Spells : List Char → List UInt8 → Prop where
  | nil : Spells [] []
  | cons {text bytes} (high low : Bool) (b : UInt8) :
    Spells text bytes →
    Spells (digit high (b.toNat / 16) :: digit low (b.toNat % 16) :: text) (b :: bytes)

/-- Bytes are spelled by their digits. -/
lemma spells_encode (upper : Bool) (bytes : List UInt8) : Spells (encode upper bytes) bytes := by
  induction bytes with
  | nil => exact .nil
  | cons b bytes ih => exact .cons upper upper b ih

section Spells
variable {text : List Char} {bytes : List UInt8}

/-- What holds of each digit in either case holds of all characters. -/
lemma Spells.forall_mem {P : Char → Prop} (spelled : Spells text bytes)
    (each : ∀ upper, ∀ n < 16, P (digit upper n)) : ∀ c ∈ text, P c := by
  induction spelled with
  | nil => exact List.forall_mem_nil _
  | cons high low b _ ih =>
    have lt := b.toNat_lt
    exact List.forall_mem_cons.2 ⟨each high _ (by omega),
      List.forall_mem_cons.2 ⟨each low _ (by omega), ih⟩⟩

/-- What spells bytes are characters of ASCII. -/
lemma Spells.plain (spelled : Spells text bytes) : ∀ c ∈ text, c.toNat < 128 :=
  spelled.forall_mem fun _ _ lt => digit_plain lt

/-- Two digits spell a byte. -/
lemma Spells.length_eq (spelled : Spells text bytes) : text.length = 2 * bytes.length := by
  induction spelled with
  | nil => rfl
  | cons _ _ b _ ih => rw [List.length_cons, List.length_cons, ih, List.length_cons]; omega

/-- Digits are read two by two, at any position. -/
lemma Spells.decodeFrom_eq (position : Nat) (spelled : Spells text bytes) :
    decodeFrom position (text.map fun c => UInt8.ofNat c.toNat) = .ok bytes := by
  induction spelled generalizing position with
  | nil => rfl
  | cons upper upper' b _ ih =>
    have lt := b.toNat_lt
    have high : value? (UInt8.ofNat (digit upper (b.toNat / 16)).toNat) = some (b.toNat / 16) :=
      value?_digit (by omega)
    have low : value? (UInt8.ofNat (digit upper' (b.toNat % 16)).toNat) = some (b.toNat % 16) :=
      value?_digit (by omega)
    rw [List.map_cons, List.map_cons, decodeFrom, high, low]
    dsimp only
    rw [ih, Except.map, Nat.div_add_mod, UInt8.ofNat_toNat]

/-- Bytes are read from text that spells them. -/
theorem decode_of_spells (spelled : Spells text bytes) :
    decode (utf8 (String.ofList text)) = .ok bytes := by
  have even : ¬ (text.map fun c => UInt8.ofNat c.toNat).length % 2 = 1 := by
    rw [List.length_map, spelled.length_eq]
    omega
  rw [utf8_ofList spelled.plain, decode, if_neg even, spelled.decodeFrom_eq]

end Spells

/-- Bytes are read back from their hexadecimal digits. -/
theorem decode_utf8_lower (bytes : List UInt8) : decode (utf8 (lower bytes)) = .ok bytes :=
  decode_of_spells (spells_encode false bytes)

/-- What is decoded has two digits for each byte. -/
lemma length_of_decodeFrom {position : Nat} {code bytes : List UInt8}
    (read : decodeFrom position code = .ok bytes) : code.length = 2 * bytes.length := by
  fun_induction decodeFrom position code generalizing bytes with
  | case1 => cases read; rfl
  | case2 => cases read
  | case3 => cases read
  | case4 => cases read
  | case5 position high low rest h l _ _ ih =>
    cases others : decodeFrom (position + 2) rest with
    | error => rw [others] at read; cases read
    | ok bytes' =>
      rw [others] at read
      cases read
      rw [List.length_cons, List.length_cons, ih others, List.length_cons]
      omega

/-- Each byte is read from two digits. -/
lemma length_of_decode {code bytes : List UInt8} (read : decode code = .ok bytes) :
    code.length = 2 * bytes.length := by
  rw [decode, Outcome.guard_eq_ok] at read
  exact length_of_decodeFrom read.2

end Hex

namespace Decimal

/-- A decimal digit has its value. -/
lemma value?_of_isDigit {c : Char} (digit : c.isDigit = true) : value? c = some (c.toNat - 48) := by
  rw [Char.isDigit, Bool.and_eq_true, decide_eq_true_iff, decide_eq_true_iff] at digit
  exact if_pos digit

/-- Decimal digits have their values. -/
lemma mapM_value? {text : List Char} (digits : ∀ c ∈ text, c.isDigit = true) :
    text.mapM value? = some (text.map fun c => c.toNat - 48) := by
  induction text with
  | nil => rfl
  | cons c text ih =>
    obtain ⟨first, rest⟩ := List.forall_mem_cons.1 digits
    rw [List.mapM_cons, value?_of_isDigit first, ih rest]
    rfl

/-- A number is written in decimal digits. -/
lemma isDigit_toDigits (n : Nat) : ∀ c ∈ Nat.toDigits 10 n, c.isDigit = true :=
  fun _ mem => Nat.isDigit_of_mem_toDigits (by decide) (by decide) mem

/-- The digits of a natural number spell it. -/
lemma nat?_toDigits (n : Nat) : nat? (Nat.toDigits 10 n) = some n := by
  have number := Nat.ofDigitChars_ten_toDigits (n := n)
  rw [Nat.ofDigitChars] at number
  rw [nat?, if_neg, mapM_value? (isDigit_toDigits n), Option.map_some, List.foldl_map]
  · exact congrArg some number
  · rw [List.isEmpty_iff]
    exact Nat.toDigits_ne_nil

/-- Digits alone have no sign in front of them. -/
lemma int?_of_isDigit {text : List Char} (digits : ∀ c ∈ text, c.isDigit = true) :
    int? text = (nat? text).map Int.ofNat := by
  unfold int?
  split
  case h_1 => cases digits _ List.mem_cons_self
  case h_2 => cases digits _ List.mem_cons_self
  case h_3 => rfl

/-- Decimal text is a minus sign, if the integer is negative, and digits. -/
lemma toList_render (i : Int) : (render i).toList =
    (if i < 0 then ['-'] else []) ++ Nat.toDigits 10 i.natAbs := by
  cases i with
  | ofNat n =>
    have pos : ¬ Int.ofNat n < 0 := Int.not_lt.2 (Int.natCast_nonneg n)
    rw [if_neg pos, render, Nat.toString_eq_ofList_toDigits, String.toList_ofList]
    rfl
  | negSucc n =>
    rw [if_pos (Int.negSucc_lt_zero n), render, String.toList_append,
      Nat.toString_eq_ofList_toDigits, String.toList_ofList, String.toList_ofList]
    rfl

/-- Integers are read back from their decimal text. -/
theorem int?_render (i : Int) : int? (render i).toList = some i := by
  rw [toList_render]
  split
  case isTrue neg =>
    rw [List.singleton_append, int?, nat?_toDigits]
    show some (-(i.natAbs : Int)) = some i
    rw [Int.ofNat_natAbs_of_nonpos neg.le, Int.neg_neg]
  case isFalse pos =>
    rw [List.nil_append, int?_of_isDigit (isDigit_toDigits _), nat?_toDigits, Option.map_some]
    exact congrArg some (Int.natAbs_of_nonneg (Int.not_lt.1 pos))

end Decimal

end CellBag.Text
