import CellBag.Address.Text
import CellBag.Proofs.Cell.Layout
import CellBag.Proofs.Outcome
import CellBag.Proofs.Text.Base64
import CellBag.Proofs.Text.Digits
import Mathlib

/-!
# Text of addresses as a codec

The 36 bytes of the user-friendly form are those of one address with its flags
(`Address.ofFriendlyBytes_eq_ok`), so that text in this form is read as an address exactly if it is
what this address is written as in one of the alphabets (`Address.ofFriendly_eq_ok`). The raw form is
read back as well, without the flags.
-/

namespace CellBag

namespace Address
open Text
variable {a : Address} {bytes : List UInt8} {text : List Char} {urlSafe bounceable testOnly : Bool}

section Friendly

/-- The bytes of the user-friendly form: what the checksum covers, and the checksum. -/
def friendlyBytes (a : Address) (bounceable testOnly : Bool) : List UInt8 :=
  a.payload bounceable testOnly ++ checksumBytes (a.payload bounceable testOnly)

/-- The payload of an address has 34 bytes. -/
lemma length_payload (a : Address) (bounceable testOnly : Bool) :
    (a.payload bounceable testOnly).length = 34 := by
  rw [payload, List.length_cons, List.length_cons, a.account.length_bytes]

/-- A friendly address has 36 bytes. -/
lemma length_friendlyBytes (a : Address) (bounceable testOnly : Bool) :
    (a.friendlyBytes bounceable testOnly).length = 36 := by
  rw [friendlyBytes, List.length_append, length_payload, checksumBytes, Octets.length_ofNat]

/-- The characters of a friendly address are those of its bytes in Base64. -/
lemma toList_friendlyWith (a : Address) (urlSafe bounceable testOnly : Bool) :
    (a.friendlyWith urlSafe bounceable testOnly).toList =
      Base64.encode (form urlSafe) (a.friendlyBytes bounceable testOnly) :=
  String.toList_ofList

/-- A tag says which flags are set, and nothing else. -/
lemma eq_tag {first : UInt8} (h : first &&& 0x7F = 0x11 ∨ first &&& 0x7F = 0x51) :
    first = tag (first &&& 0x7F = 0x11) (first &&& 0x80 ≠ 0) := by
  have all : ∀ first : UInt8, first &&& 0x7F = 0x11 ∨ first &&& 0x7F = 0x51 →
      first = tag (first &&& 0x7F = 0x11) (first &&& 0x80 ≠ 0) := by decide +kernel
  exact all first h

/-- Each flag can be told from the tag of an address. -/
lemma tag_flags (bounceable testOnly : Bool) :
    (tag bounceable testOnly &&& 0x7F = 0x11 ∨ tag bounceable testOnly &&& 0x7F = 0x51) ∧
      decide (tag bounceable testOnly &&& 0x7F = 0x11) = bounceable ∧
      decide (tag bounceable testOnly &&& 0x80 ≠ 0) = testOnly := by
  cases bounceable with
  | false =>
    cases testOnly with
    | false => decide
    | true => decide
  | true =>
    cases testOnly with
    | false => decide
    | true => decide

/-- Bytes are read as an address if they are the bytes of this address with its flags. -/
lemma ofFriendlyBytes_eq_ok :
    ofFriendlyBytes bytes = .ok a ↔ bytes = a.friendlyBytes a.bounceable a.testOnly := by
  constructor
  · intro e
    unfold ofFriendlyBytes at e
    rw [Outcome.guard_eq_ok, Outcome.guard_eq_ok, not_not, not_not] at e
    obtain ⟨len, checked, e⟩ := e
    split at e
    case h_1 first workchain rest =>
      rw [Outcome.check_eq_ok] at e
      obtain ⟨flags, e⟩ := e
      split at e
      case h_1 account digest =>
        cases e
        have front : (first :: workchain :: rest).take 34 =
            payload ⟨workchain.toInt8, account, first &&& 0x7F = 0x11, first &&& 0x80 ≠ 0⟩
              (first &&& 0x7F = 0x11) (first &&& 0x80 ≠ 0) := by
          rw [payload, ← eq_tag flags, UInt8.toUInt8_toInt8, ← Digest.ofBytes?_eq_some.1 digest]
          rfl
        have whole := List.take_append_drop 34 (first :: workchain :: rest)
        rw [← checked, front] at whole
        exact whole.symm
      case h_2 => cases e
    case h_2 => cases e
  · rintro rfl
    have front : (a.friendlyBytes a.bounceable a.testOnly).take 34 =
        a.payload a.bounceable a.testOnly := List.take_left' (length_payload ..)
    have back : (a.friendlyBytes a.bounceable a.testOnly).drop 34 =
        checksumBytes (a.payload a.bounceable a.testOnly) := List.drop_left' (length_payload ..)
    have parts : a.friendlyBytes a.bounceable a.testOnly =
        tag a.bounceable a.testOnly :: a.workchain.toUInt8 :: (a.account.bytes ++
          checksumBytes (a.payload a.bounceable a.testOnly)) := rfl
    have account : Digest.ofBytes? ((a.account.bytes ++
        checksumBytes (a.payload a.bounceable a.testOnly)).take 32) = some a.account :=
      Digest.ofBytes?_eq_some.2 (List.take_left' a.account.length_bytes)
    obtain ⟨flags, isBounceable, isTestOnly⟩ := tag_flags a.bounceable a.testOnly
    unfold ofFriendlyBytes
    rw [if_neg (not_not.2 (length_friendlyBytes ..)), front, back, if_neg (not_not.2 rfl), parts]
    dsimp only
    rw [if_pos flags, account, isBounceable, isTestOnly]
    rfl

/-- Text in the user-friendly form is read as an address if it is what this address is written as,
with its flags, in one of the alphabets. -/
lemma ofFriendly_eq_ok : ofFriendly text = .ok a ↔
    ∃ urlSafe, text = (a.friendlyWith urlSafe a.bounceable a.testOnly).toList := by
  simp only [toList_friendlyWith]
  constructor
  · intro e
    rw [ofFriendly] at e
    split at e
    case h_1 bytes read =>
      rw [ofFriendlyBytes_eq_ok] at e
      exact ⟨true, e ▸ Base64.decode_eq_some.1 read⟩
    case h_2 =>
      split at e
      case h_1 bytes read =>
        rw [ofFriendlyBytes_eq_ok] at e
        exact ⟨false, e ▸ Base64.decode_eq_some.1 read⟩
      case h_2 => cases e
  · intro h
    obtain ⟨urlSafe, written⟩ := h
    have last := ofFriendlyBytes_eq_ok.2 (rfl : a.friendlyBytes a.bounceable a.testOnly = _)
    have read := Base64.decode_eq_some.2 written
    rw [ofFriendly]
    cases first : Base64.decode (form true) text with
    | some bytes =>
      -- text that both alphabets can read has the same bytes in both
      have same := Base64.encode_inj (written.symm.trans (Base64.decode_eq_some.1 first))
      dsimp only
      rw [← same, last]
    | none =>
      cases urlSafe with
      | true => cases first.symm.trans read
      | false =>
        rw [read]
        exact last

end Friendly

section Raw

/-- The characters of a raw address are its workchain, a colon and its account. -/
lemma toList_raw (a : Address) : a.raw.toList =
    (Decimal.render a.workchain.toInt).toList ++ ':' :: Hex.encode false a.account.bytes := by
  rw [raw, String.toList_append, String.toList_append, Digest.text, Hex.lower, String.toList_ofList,
    String.toList_ofList, List.append_assoc]
  rfl

/-- A workchain is read from its decimal digits. -/
lemma workchain?_render (w : Int8) : workchain? (Decimal.render w.toInt).toList = some w := by
  have range : -128 ≤ w.toInt ∧ w.toInt ≤ 127 :=
    ⟨w.le_toInt, Int.le_of_lt_add_one w.toInt_lt⟩
  rw [workchain?, Decimal.int?_render]
  show (if _ then _ else _) = _
  rw [if_pos range, Int8.ofInt_toInt]

/-- An account is read from its hexadecimal digits. -/
lemma account?_encode (d : Digest) : account? (Hex.encode false d.bytes) = some d := by
  have read := Hex.decode_utf8_lower d.bytes
  rw [Hex.lower] at read
  rw [account?, read]
  exact Digest.ofBytes?_eq_some.2 rfl

/-- There is no colon in a decimal number. -/
lemma ne_colon_of_mem_render {i : Int} {c : Char} (mem : c ∈ (Decimal.render i).toList) :
    c ≠ ':' := by
  rw [Decimal.toList_render, List.mem_append] at mem
  rintro rfl
  cases mem with
  | inl sign =>
    split at sign
    case isTrue => cases List.mem_singleton.1 sign
    case isFalse => cases sign
  | inr digit => cases Decimal.isDigit_toDigits _ _ digit

/-- The raw form is read as the address without its flags. -/
lemma ofRaw_raw (a : Address) :
    ofRaw a.raw.toList = .ok { workchain := a.workchain, account := a.account } := by
  have front : ∀ c ∈ (Decimal.render a.workchain.toInt).toList, decide (c ≠ ':') = true :=
    fun c mem => decide_eq_true (ne_colon_of_mem_render mem)
  have behind (rest : List Char) : (':' :: rest).takeWhile (· ≠ ':') = [] ∧
      (':' :: rest).dropWhile (· ≠ ':') = ':' :: rest := ⟨rfl, rfl⟩
  rw [toList_raw, ofRaw, List.dropWhile_append_of_pos front, List.takeWhile_append_of_pos front,
    (behind _).1, (behind _).2, List.append_nil]
  dsimp only
  rw [workchain?_render, account?_encode]

end Raw

section Either

/-- Text in the user-friendly form is not empty and has no colon. -/
lemma ofText_friendlyWith (a : Address) (urlSafe bounceable testOnly : Bool) :
    ofText (a.friendlyWith urlSafe bounceable testOnly).toList =
      ofFriendly (a.friendlyWith urlSafe bounceable testOnly).toList := by
  rw [toList_friendlyWith]
  have some : ¬ (Base64.encode (form urlSafe) (a.friendlyBytes bounceable testOnly)).isEmpty := by
    intro none
    have empty : Base64.encode (form urlSafe) (a.friendlyBytes bounceable testOnly) =
        Base64.encode (form true) [] := List.isEmpty_iff.1 none
    have len := length_friendlyBytes a bounceable testOnly
    rw [Base64.encode_inj empty] at len
    cases len
  have plain : ¬ (Base64.encode (form urlSafe) (a.friendlyBytes bounceable testOnly)).contains ':' :=
    fun colon => Base64.colon_notMem_encode _ _ (List.contains_iff_mem.1 colon)
  rw [ofText, if_neg some, if_neg plain]

/-- Text in the raw form has a colon. -/
lemma ofText_raw (a : Address) : ofText a.raw.toList = ofRaw a.raw.toList := by
  have mem : ':' ∈ a.raw.toList := by
    rw [toList_raw]
    exact List.mem_append_right _ List.mem_cons_self
  have some : ¬ a.raw.toList.isEmpty := fun none => List.ne_nil_of_mem mem (List.isEmpty_iff.1 none)
  rw [ofText, if_neg some, if_pos (List.contains_iff_mem.2 mem)]

end Either

/-- Both forms of an address are read back, the user-friendly one with the flags that it is written
with, and no other text is read as an address in the user-friendly form. -/
theorem text_codecs :
    (∀ (a : Address) (urlSafe bounceable testOnly : Bool),
      ofText (a.friendlyWith urlSafe bounceable testOnly).toList =
        .ok ⟨a.workchain, a.account, bounceable, testOnly⟩) ∧
    (∀ a : Address,
      ofText a.raw.toList = .ok { workchain := a.workchain, account := a.account }) ∧
    ∀ (text : String) (a : Address), ofFriendly text.toList = .ok a ↔
      ∃ urlSafe, text = a.friendlyWith urlSafe a.bounceable a.testOnly := by
  refine ⟨fun a urlSafe bounceable testOnly => ?_, fun a => ?_, fun text a => ?_⟩
  · rw [ofText_friendlyWith, ofFriendly_eq_ok]
    exact ⟨urlSafe, rfl⟩
  · rw [ofText_raw, ofRaw_raw]
  · rw [ofFriendly_eq_ok]
    simp only [String.toList_inj]

end Address

end CellBag
