import CellBag.Command.Run
import CellBag.Proofs.Bag.Roots
import CellBag.Proofs.Text.Base64
import CellBag.Proofs.Text.Digits

/-!
# Formats of bags

What the text of a bag is read as. Blanks do not matter (`Text.Spaced.compact_eq`), and a format
reads back what it spells, of which base 64 takes care without being told its form
(`Text.Base64.decodeAny_encode`). When the bytes begin as a bag does, the format need not be told
either (`Command.bagBytes_of_spells`): hexadecimal text consists of digits in pairs, and the text of
a bag in base 64 does not, since it begins with a `t`.
-/

namespace CellBag

namespace Text

/-- Text with blanks put in anywhere. -/
inductive Spaced : List Char → List Char → Prop where
  | nil : Spaced [] []
  | blank {c text plain} :
    isBlank c = true →
    Spaced text plain →
    Spaced (c :: text) plain
  | keep {text plain} (c : Char) :
    Spaced text plain →
    Spaced (c :: text) (c :: plain)

section Spaced
variable {text plain : List Char}

/-- Text without blanks is got back when blanks have been put in. -/
lemma Spaced.compact_eq (spaced : Spaced text plain) (solid : ∀ c ∈ plain, isBlank c = false) :
    Bag.compact text = plain := by
  induction spaced with
  | nil => rfl
  | blank blank _ ih => rw [Bag.compact, List.filter_cons_of_neg (by simp [blank])]; exact ih solid
  | keep c _ ih =>
    obtain ⟨first, solid⟩ := List.forall_mem_cons.1 solid
    rw [Bag.compact, List.filter_cons_of_pos (by simp [first])]
    exact congrArg (c :: ·) (ih solid)

/-- A text is spaced as it is. -/
lemma Spaced.refl (text : List Char) : Spaced text text := by
  induction text with
  | nil => exact .nil
  | cons c _ ih => exact .keep c ih

/-- All text is text without its blanks with these put in. -/
lemma spaced_of_compact (e : Bag.compact text = plain) : Spaced text plain := by
  subst e
  induction text with
  | nil => exact .nil
  | cons c text ih =>
    cases blank : isBlank c with
    | true =>
      rw [Bag.compact, List.filter_cons_of_neg (by simp [blank])]
      exact .blank blank ih
    | false =>
      rw [Bag.compact, List.filter_cons_of_pos (by simp [blank])]
      exact .keep c ih

end Spaced

end Text

namespace Command
open Text

/-- Text in which a format spells bytes: as hexadecimal digits, each in either case, or in a form of
base 64, and with blanks anywhere. -/
inductive Format.Spells : Format → List UInt8 → List Char → Prop where
  | hex {bytes text plain} :
    Hex.Spells plain bytes →
    Spaced text plain →
    Spells .hex bytes text
  | base64 {bytes text} (form : Base64.Form) :
    Spaced text (Base64.encode form bytes) →
    Spells .base64 bytes text

section Detection
variable {bytes : List UInt8} {text : List Char}

/-- There is no blank among hexadecimal digits. -/
lemma hex_solid (spelled : Hex.Spells text bytes) : ∀ c ∈ text, isBlank c = false := by
  have all : ∀ upper, ∀ n < 16, isBlank (Hex.digit upper n) = false := by decide +kernel
  exact spelled.forall_mem all

/-- Hexadecimal text looks like it. -/
lemma looksHex_of_spells (spelled : Hex.Spells text bytes) :
    looksHex (utf8 (String.ofList text)) = true := by
  have digits : ∀ c ∈ text, (Hex.value? (UInt8.ofNat c.toNat)).isSome = true :=
    spelled.forall_mem fun upper n lt => by rw [Hex.value?_digit lt]; rfl
  have even : (text.length % 2 == 0) = true := by
    rw [spelled.length_eq, beq_iff_eq]
    exact Nat.mul_mod_right 2 _
  rw [utf8_ofList spelled.plain, looksHex, List.length_map, even, Bool.true_and, List.all_map,
    List.all_eq_true]
  exact digits

/-- The first six bits of the magic number are a character that is no hexadecimal digit. -/
lemma looksHex_encode (form : Base64.Form) (magic : Octets.ofNat 4 Bag.magic <+: bytes) :
    looksHex (utf8 (String.ofList (Base64.encode form bytes))) = false := by
  obtain ⟨rest, rfl⟩ := magic
  have first : form.alphabet.digit 45 = 't' := by cases form.alphabet <;> rfl
  have front : ∃ later, Base64.encode form (Octets.ofNat 4 Bag.magic ++ rest) = 't' :: later := by
    rw [Base64.encode_eq, ← first]
    exact ⟨_, rfl⟩
  obtain ⟨later, e⟩ := front
  have plain := Base64.encode_plain form (Octets.ofNat 4 Bag.magic ++ rest)
  rw [utf8_ofList plain, e, looksHex, List.map_cons, List.all_cons]
  exact Bool.and_false _

/-- Text in a format is read as the bytes that it spells, in that format and, if these begin with
the magic number, as they do in every bag that is written, without being told the format. -/
theorem bagBytes_of_spells :
    (∀ format bytes text, Format.Spells format bytes text → bagBytes format text = .ok bytes ∧
      (Octets.ofNat 4 Bag.magic <+: bytes → bagBytes .auto text = .ok bytes)) ∧
    ∀ roots o bytes, Bag.encode roots o = .ok bytes → Octets.ofNat 4 Bag.magic <+: bytes := by
  refine ⟨fun format bytes text spelled => ?_, fun roots o bytes e => ?_⟩
  · cases spelled with
    | hex spelled spaced =>
      have compact := spaced.compact_eq (hex_solid spelled)
      have read := Hex.decode_of_spells spelled
      refine ⟨by simp only [bagBytes, compact, read], fun _ => ?_⟩
      simp only [bagBytes, compact, looksHex_of_spells spelled, read, if_true]
    | base64 form spaced =>
      have compact := spaced.compact_eq (Base64.encode_solid form bytes)
      have read := Base64.decodeAny_encode form bytes
      refine ⟨by simp only [bagBytes, compact, read], fun magic => ?_⟩
      simp only [bagBytes, compact, looksHex_encode form magic, read, Bool.false_eq_true, if_false]
  · obtain ⟨_, _, records, indexes, _, _, _, _, _, rfl⟩ := Bag.encode_eq_ok.1 e
    simp only [Bag.Image.bytes, Bag.Image.body, Bag.Header.layout, List.append_assoc]
    exact List.prefix_append _ _

/-- A bag in the URL-safe alphabet without padding, where an underscore tells the alphabet, in the
standard one with padding and in upper-case digits, all with blanks; and the bag of a leaf behind a
line break. -/
theorem bagBytes_of_spells_leaf :
    (∃ bytes, bagBytes .auto "te6ccgEBAQEA\nBQAABvv_vg\n".toList = .ok bytes ∧
      bagBytes .auto " te6ccgEBAQEABQAA Bvv/vg==".toList = .ok bytes ∧
      bagBytes .auto "B5EE9C72 01010101 00050000 06FBFFBE".toList = .ok bytes) ∧
    ∃ leaf bytes, Cell.leaf [0x2A] 8 = .ok leaf ∧ Bag.encode [leaf] {} = .ok bytes ∧
      bagBytes .auto ('\n' :: Base64.encode ⟨.urlSafe, false⟩ bytes) = .ok bytes := by
  obtain ⟨each, magic⟩ := bagBytes_of_spells
  constructor
  · have bag : Octets.ofNat 4 Bag.magic <+:
        [0xB5, 0xEE, 0x9C, 0x72, 1, 1, 1, 1, 0, 5, 0, 0, 6, 0xFB, 0xFF, 0xBE] := by decide
    refine ⟨_, (each .base64 _ _ (.base64 ⟨.urlSafe, false⟩ (spaced_of_compact ?_))).2 bag,
      (each .base64 _ _ (.base64 ⟨.standard, true⟩ (spaced_of_compact ?_))).2 bag,
      (each .hex _ _ (.hex (Hex.spells_encode true _) (spaced_of_compact ?_))).2 bag⟩
    · decide +kernel
    · decide +kernel
    · decide +kernel
  · have run : (do let _ ← Cell.leaf [0x2A] 8 : Except Error Unit) = .ok () := by decide +kernel
    obtain ⟨leaf, el, _⟩ := Outcome.bind_eq_ok.1 run
    have none := Cell.refs_of_leaf el
    have once : ∀ r ∈ [leaf], r = leaf := by simp
    have built : ∀ r ∈ [leaf], r.Built := by simp [Cell.Built.leaf el]
    have ne : [leaf] ≠ [] := List.cons_ne_nil _ _
    have card := Bag.card_reachable_eq_one none once ne
    obtain ⟨bytes, written⟩ := (@Bag.exists_encode_iff _ {} built
      (Bag.hashesApart_of_leaf none once) (by decide) ne).2
        ⟨by omega, by rw [card]; exact Bag.lt_byteWidth 1⟩
    refine ⟨leaf, bytes, el, written, ?_⟩
    exact (each .base64 _ _ (.base64 _ (.blank rfl (.refl _)))).2 (magic _ _ _ written)

end Detection

end Command

end CellBag
