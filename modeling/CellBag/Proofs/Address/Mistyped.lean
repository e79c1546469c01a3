import CellBag.Proofs.Address.Text
import CellBag.Proofs.Checksum.Burst

/-!
# Mistyped addresses

The text of an address in the user-friendly form holds six bits in each character, so that a change
of one character, or of two that stand side by side, is a burst of at most twelve bits. The checksum
finds all of these, and text with a colon is too short for the raw form. What is still read differs
from the text in the spelling of the same bits alone (`Address.ofText_mistyped`).
-/

namespace CellBag

/-- Text in which one character, or two that stand side by side, may have been replaced. -/
inductive Mistyped : List Char → List Char → Prop where
  | one (front back : List Char) (c c' : Char) :
    Mistyped (front ++ c :: back) (front ++ c' :: back)
  | two (front back : List Char) (c d c' d' : Char) :
    Mistyped (front ++ c :: d :: back) (front ++ c' :: d' :: back)

/-- What is common to both texts stands around at most two characters. -/
lemma Mistyped.exists_parts {text text' : List Char} (h : Mistyped text text') :
    ∃ front typed typed' back, text = front ++ typed ++ back ∧ text' = front ++ typed' ++ back ∧
      typed.length = typed'.length ∧ typed.length ≤ 2 := by
  cases h with
  | one front back c c' =>
    exact ⟨front, [c], [c'], back, by rw [List.append_assoc]; rfl, by rw [List.append_assoc]; rfl,
      rfl, Nat.le_succ 1⟩
  | two front back c d c' d' =>
    exact ⟨front, [c, d], [c', d'], back, by rw [List.append_assoc]; rfl,
      by rw [List.append_assoc]; rfl, rfl, Nat.le_refl 2⟩

namespace Address
open Text
variable {a a' : Address} {text : List Char} {urlSafe bounceable testOnly : Bool}

section Colon

/-- The raw form has 64 digits. -/
lemma length_of_ofRaw (read : ofRaw text = .ok a) : 64 ≤ (utf8 (String.ofList text)).length := by
  rw [ofRaw] at read
  split at read
  case h_1 => cases read
  case h_2 colon rest behind =>
    have parts := List.takeWhile_append_dropWhile (p := (· ≠ ':')) (l := text)
    rw [behind] at parts
    split at read
    case h_1 => cases read
    case h_2 =>
      split at read
      case h_1 => cases read
      case h_2 account spelled =>
        rw [account?] at spelled
        split at spelled
        case h_1 bytes digits =>
          have digest := congrArg List.length (Digest.ofBytes?_eq_some.1 spelled)
          rw [account.length_bytes] at digest
          have len := Hex.length_of_decode digits
          have behind := length_utf8_append [colon] rest
          rw [← parts, length_utf8_append]
          rw [List.singleton_append] at behind
          omega
        case h_2 => cases spelled

/-- A mistyped text in the user-friendly form is shorter. -/
lemma length_utf8_lt (changed : Mistyped (a.friendlyWith urlSafe bounceable testOnly).toList text) :
    (utf8 (String.ofList text)).length < 64 := by
  obtain ⟨front, typed, typed', back, written, rfl, len, few⟩ := changed.exists_parts
  rw [toList_friendlyWith] at written
  have plain := Base64.encode_plain (form urlSafe) (a.friendlyBytes bounceable testOnly)
  have total := Base64.length_digits (form urlSafe) (a.friendlyBytes bounceable testOnly)
  have whole := length_friendlyBytes a bounceable testOnly
  rw [whole, ← Base64.encode_of_whole _ (by rw [whole]), written, List.length_append,
    List.length_append] at total
  rw [written] at plain
  have short := length_utf8_le typed'
  rw [length_utf8_append, length_utf8_append,
    utf8_ofList fun c mem => plain c (List.mem_append_left _ (List.mem_append_left _ mem)),
    utf8_ofList fun c mem => plain c (List.mem_append_right _ mem), List.length_map,
    List.length_map]
  omega

end Colon

section Checksum

/-- The bytes of the user-friendly form leave no remainder. -/
lemma checksum_friendlyBytes (a : Address) (bounceable testOnly : Bool) :
    Crc16.checksum (a.friendlyBytes bounceable testOnly) = 0 :=
  Crc16.checksum_append_self _

/-- The bytes of the user-friendly form say which address it is, and its flags. -/
lemma eq_of_friendlyBytes
    (same : a.friendlyBytes bounceable testOnly = a'.friendlyBytes a'.bounceable a'.testOnly) :
    a' = ⟨a.workchain, a.account, bounceable, testOnly⟩ := by
  have read := ofFriendlyBytes_eq_ok.2 same
  have own : ofFriendlyBytes (a.friendlyBytes bounceable testOnly) =
      .ok ⟨a.workchain, a.account, bounceable, testOnly⟩ := ofFriendlyBytes_eq_ok.2 rfl
  exact Except.ok.inj (read.symm.trans own)

/-- The texts of two addresses that differ in one character or in two side by side spell the same
bytes. -/
lemma friendlyBytes_of_mistyped {urlSafe' bounceable' testOnly' : Bool}
    (changed : Mistyped (a.friendlyWith urlSafe bounceable testOnly).toList
      (a'.friendlyWith urlSafe' bounceable' testOnly').toList) :
    a.friendlyBytes bounceable testOnly = a'.friendlyBytes bounceable' testOnly' := by
  obtain ⟨front, typed, typed', back, written, written', _, few⟩ := changed.exists_parts
  have len := length_friendlyBytes a bounceable testOnly
  have len' := length_friendlyBytes a' bounceable' testOnly'
  have whole (bytes : List UInt8) (len : bytes.length = 36) : bytes.length % 3 = 0 := by rw [len]
  have bits := Base64.bitsOf_encode (form urlSafe) (whole _ len)
  have bits' := Base64.bitsOf_encode (form urlSafe') (whole _ len')
  rw [← toList_friendlyWith, written, Base64.bitsOf_append, Base64.bitsOf_append] at bits
  rw [← toList_friendlyWith, written', Base64.bitsOf_append, Base64.bitsOf_append] at bits'
  -- both texts have the same number of bits, and so have the parts in which they differ
  have total := congrArg List.length bits
  have total' := congrArg List.length bits'
  rw [Octets.length_unpack, len, List.length_append, List.length_append] at total
  rw [Octets.length_unpack, len', List.length_append, List.length_append] at total'
  have short := Base64.length_bitsOf_le typed
  have clean := checksum_friendlyBytes a bounceable testOnly
  have clean' := checksum_friendlyBytes a' bounceable' testOnly'
  exact Crc16.burst (clean.trans clean'.symm) bits.symm bits'.symm (by omega) (by omega)

end Checksum

section Spelling

/-- A character is left as it is, or the one of the same value in the other alphabet stands in its
place. -/
def Respelled (urlSafe : Bool) (c c' : Char) : Prop :=
  c' = c ∨ ∃ v < 64, c = (form urlSafe).alphabet.digit v ∧ c' = (form !urlSafe).alphabet.digit v

/-- The texts of one address differ in the spelling of the same values. -/
lemma forall₂_respelled (a : Address) (urlSafe urlSafe' bounceable testOnly : Bool) :
    List.Forall₂ (Respelled urlSafe) (a.friendlyWith urlSafe bounceable testOnly).toList
      (a.friendlyWith urlSafe' bounceable testOnly).toList := by
  have whole : (a.friendlyBytes bounceable testOnly).length % 3 = 0 := by
    rw [length_friendlyBytes]
  rw [toList_friendlyWith, toList_friendlyWith, Base64.encode_of_whole _ whole,
    Base64.encode_of_whole _ whole, Base64.digits, Base64.digits, List.forall₂_map_left_iff,
    List.forall₂_map_right_iff, List.forall₂_same]
  intro v mem
  by_cases other : urlSafe' = urlSafe
  · rw [other]
    exact Or.inl rfl
  · rw [Bool.eq_not_of_ne other]
    exact Or.inr ⟨v, Base64.sextets_lt _ v mem, rfl, rfl⟩

end Spelling

/-- A text in the user-friendly form in which one character, or two that stand side by side, are
replaced is not read, unless it is another spelling of the same address with the same flags. -/
theorem ofText_mistyped
    (changed : Mistyped (a.friendlyWith urlSafe bounceable testOnly).toList text) :
    (∃ fault, ofText text = .error fault) ∨
      ofText text = .ok ⟨a.workchain, a.account, bounceable, testOnly⟩ ∧
        List.Forall₂ (Respelled urlSafe) (a.friendlyWith urlSafe bounceable testOnly).toList
          text := by
  cases run : ofText text with
  | error fault => exact Or.inl ⟨fault, rfl⟩
  | ok a' =>
    rw [ofText] at run
    split_ifs at run with empty colon
    case pos => exact absurd (length_of_ofRaw run) (Nat.not_le.2 (length_utf8_lt changed))
    case neg =>
      obtain ⟨urlSafe', rfl⟩ := ofFriendly_eq_ok.1 run
      have same := eq_of_friendlyBytes (friendlyBytes_of_mistyped changed)
      subst same
      exact Or.inr ⟨rfl, forall₂_respelled a urlSafe urlSafe' bounceable testOnly⟩

/-- An account with one dash in its text: with a plus sign in its place, which has the same value in
the standard alphabet, the text is read as the same address. -/
theorem ofText_mistyped_dash :
    ∃ a : Address, ∃ back : List Char, a.account.bytes = [0, 0xF8] ++ List.replicate 29 0 ++ [1] ∧
      (a.friendlyWith true true false).toList = "EQAA".toList ++ '-' :: back ∧
      ofText ("EQAA".toList ++ '+' :: back) = .ok a := by
  let a : Address := ⟨0, ⟨[0, 0xF8] ++ List.replicate 29 0 ++ [1], by decide⟩, true, false⟩
  let back := List.replicate 40 'A' ++ "fj7".toList
  have written : (a.friendlyWith true true false).toList = "EQAA".toList ++ '-' :: back := by
    decide +kernel
  have changed := Mistyped.one "EQAA".toList back '-' '+'
  rw [← written] at changed
  obtain ⟨fault, failed⟩ | ⟨read, _⟩ := ofText_mistyped changed
  · have accepted : (ofText ("EQAA".toList ++ '+' :: back)).isOk = true := by decide +kernel
    rw [failed] at accepted
    cases accepted
  · exact ⟨a, back, rfl, written, read⟩

end Address

end CellBag
