import CellBag.Proofs.Dictionary.Shortest
import Mathlib

/-!
# Lengths of labels

A label is stored in the fewest bits that any of its forms takes (`Label.isLeast_length_choose`). It
is read from the front of whatever begins with one of its forms, and the reader stops behind it
(`Load.label_of_front`). Where a length is announced that is above the limit nothing is read
(`Load.label_of_header`).
-/

namespace CellBag

/-- The width of a number is the logarithm of the next one, rounded up. -/
lemma Binary.width_eq_clog (n : Nat) : width n = Nat.clog 2 (n + 1) := by
  apply eq_of_forall_ge_iff
  intro w
  rw [width_le_iff, Nat.clog_le_iff_le_pow Nat.one_lt_two, Nat.succ_le_iff]

namespace Label

/-- The numbers of bits that the forms of a label take. The length stands in unary in the first one
and in as many bits as the limit needs in the others, of which the last one is for equal bits. -/
def lengths (label : List Bool) (limit : Nat) : Set Nat :=
  {n | n = 2 + 2 * label.length ∨ n = 2 + Nat.clog 2 (limit + 1) + label.length ∨
    (n = 3 + Nat.clog 2 (limit + 1) ∧ label ≠ [] ∧ ∃ bit, ∀ b ∈ label, b = bit)}

variable {form : Form} {label : List Bool} {limit : Nat}

/-- No form of a label is empty. -/
lemma encode_ne_nil : encode form label limit ≠ [] := by
  cases form <;> exact List.cons_ne_nil _ _

/-- The form of equal bits is not chosen for the empty label, which takes two bits otherwise. -/
lemma ne_nil_of_choose {bit : Bool} (same : choose label limit = .same bit) : label ≠ [] := by
  intro none
  subst none
  have le : (encode (choose [] limit) [] limit).length ≤ (encode .short [] limit).length :=
    length_encode_choose_le trivial
  rw [same, length_encode, length_encode] at le
  simp only [Form.width, List.length_nil] at le
  omega

/-- The chosen form takes the least of the numbers of bits. -/
theorem isLeast_length_choose (label : List Bool) (limit : Nat) :
    IsLeast (lengths label limit) (encode (choose label limit) label limit).length := by
  have width : lengthWidth limit = Nat.clog 2 (limit + 1) := Binary.width_eq_clog limit
  constructor
  · have admits := choose_admits label limit
    rw [length_encode]
    cases same : choose label limit with
    | short => exact Or.inl rfl
    | long => exact Or.inr (Or.inl (by rw [← width]; rfl))
    | same bit =>
      rw [same] at admits
      exact Or.inr (Or.inr ⟨by rw [← width]; rfl, ne_nil_of_choose same, bit, admits⟩)
  · intro n mem
    have le (form : Form) (admits : form.Admits label)
        (len : n = form.width label.length limit) :
        (encode (choose label limit) label limit).length ≤ n := by
      rw [len, ← length_encode]
      exact length_encode_choose_le admits
    rcases mem with short | long | ⟨same, _, bit, equal⟩
    · exact le .short trivial short
    · exact le .long trivial (by rw [long, ← width]; rfl)
    · exact le (.same bit) equal (by rw [same, ← width]; rfl)

end Label

namespace Slice
variable {s : Slice} {xs : List Bool}

/-- What is left begins with what stands in front. -/
lemma between_of_front (ne : xs ≠ []) (front : xs <+: s.remainingBits) :
    Between s xs (s.advance xs.length 0) := by
  have le := front.length_le
  have pos := List.length_pos_iff.2 ne
  rw [remainingBits, List.length_drop, ← Bits.length] at le
  refine ⟨rfl, ?_, by omega⟩
  exact (List.prefix_iff_eq_take.1 front).symm

/-- Bits that a slice begins with stand in front of another slice. -/
lemma exists_between_of_front (ne : xs ≠ []) (front : xs <+: s.remainingBits) :
    ∃ t, Between s xs t :=
  ⟨_, between_of_front ne front⟩

end Slice

namespace Load
open Slice Label
variable {s t u : Slice} {limit n : Nat} {form : Form} {label : Bits}

/-- A label is read from any of its forms, whatever follows. -/
lemma label_of_front (small : limit < 2 ^ 64) (le : label.length ≤ limit)
    (admits : form.Admits label.toList)
    (front : encode form label.toList limit <+: s.remainingBits) :
    Load.label limit s = .ok label (s.advance (encode form label.toList limit).length 0) :=
  label_of_form small le admits (between_of_front encode_ne_nil front)

/-- A bit in front decides how an action goes on. -/
lemma orTruncated_bit_bind {α : Type} {bit : Bool} {next : Bool → Load α}
    (front : Between s [bit] t) : (do let b ← orTruncated Load.bit; next b) s = next bit t :=
  Outcome.action_bind_of_ok (orTruncated_eq_ok.2 (bit_eq_ok.2 front))

/-- No more ones are counted than there is room for. -/
lemma unary_of_ones {room : Nat} (ones : Between s (List.replicate (room + 1) true) t) :
    unary room s = .error (.label .tooLong) t := by
  induction room generalizing s with
  | zero =>
    rw [unary, orTruncated_bit_bind ones]
    rfl
  | succ room ih =>
    rw [List.replicate_succ, ← List.singleton_append, between_append] at ones
    obtain ⟨next, first, rest⟩ := ones
    rw [unary, orTruncated_bit_bind first, if_pos rfl]
    exact Outcome.action_bind_of_error (ih rest)

/-- A length above the limit is refused. -/
lemma labelLength_of_lt (small : limit < 2 ^ 64) (lt : limit < n) (fits : n < 2 ^ lengthWidth limit)
    (numeral : Between s (Binary.ofNat (lengthWidth limit) n) t) :
    labelLength limit s = .error (.label .tooLong) t := by
  have width : lengthWidth limit ≤ 64 := Binary.width_le small
  have value : (BitVec.ofNat 64 n).toNat = n := by
    rw [BitVec.toNat_ofNat, Nat.mod_eq_of_lt]
    exact Nat.lt_of_lt_of_le fits (Nat.pow_le_pow_right Nat.two_pos width)
  have read : orTruncated (word (lengthWidth limit)) s = .ok (BitVec.ofNat 64 n) t := by
    have le : s.bitPosition ≤ s.cell.bits.length := Nat.le_trans (Nat.le_add_right _ _) numeral.le
    rw [orTruncated_eq_ok, word_eq_ok width le, value]
    exact ⟨fits, numeral⟩
  rw [labelLength, Outcome.action_bind_of_ok read, value, if_pos lt]
  rfl

/-- Whatever is to follow, a form that announces a length above the limit is refused. -/
lemma label_of_header (small : limit < 2 ^ 64) (lt : limit < n)
    (fits : form ≠ .short → n < 2 ^ lengthWidth limit)
    (front : header form n limit <+: s.remainingBits) :
    ∃ t, Load.label limit s = .error (.label .tooLong) t := by
  cases form with
  | short =>
    have ones : [false] ++ List.replicate (limit + 1) true <+: header .short n limit := by
      obtain ⟨more, rfl⟩ := Nat.exists_eq_add_of_lt lt
      have split : List.replicate (limit + more + 1) true =
          List.replicate (limit + 1) true ++ List.replicate more true := by
        rw [Nat.add_right_comm, List.replicate_add]
      rw [header, split]
      exact ⟨List.replicate more true ++ [false], by simp only [List.cons_append, List.nil_append,
        List.append_assoc]⟩
    obtain ⟨t, front⟩ := exists_between_of_front (List.cons_ne_nil _ _) (ones.trans front)
    obtain ⟨u, first, rest⟩ :=
      between_append.1 (show Between s ([false] ++ List.replicate (limit + 1) true) t from front)
    refine ⟨t, ?_⟩
    rw [Load.label, orTruncated_bit_bind first, if_neg Bool.false_ne_true]
    exact Outcome.action_bind_of_error (unary_of_ones rest)
  | long =>
    have fits : n < 2 ^ lengthWidth limit := fits (by intro e; cases e)
    obtain ⟨t, front⟩ := exists_between_of_front (List.cons_ne_nil _ _) front
    obtain ⟨v, marks, numeral⟩ :=
      between_append.1 (show Between s ([true, false] ++ Binary.ofNat _ n) t from front)
    obtain ⟨u, first, second⟩ := between_append.1 (show Between s ([true] ++ [false]) v from marks)
    refine ⟨t, ?_⟩
    rw [Load.label, orTruncated_bit_bind first, if_pos rfl, orTruncated_bit_bind second,
      if_neg Bool.false_ne_true]
    exact Outcome.action_bind_of_error (labelLength_of_lt small lt fits numeral)
  | same bit =>
    have fits : n < 2 ^ lengthWidth limit := fits (by intro e; cases e)
    obtain ⟨t, front⟩ := exists_between_of_front (List.cons_ne_nil _ _) front
    obtain ⟨w, marks, numeral⟩ :=
      between_append.1 (show Between s ([true, true, bit] ++ Binary.ofNat _ n) t from front)
    obtain ⟨u, first, marks⟩ := between_append.1
      (show Between s ([true] ++ ([true] ++ [bit])) w from marks)
    obtain ⟨v, second, third⟩ := between_append.1 marks
    refine ⟨t, ?_⟩
    rw [Load.label, orTruncated_bit_bind first, if_pos rfl, orTruncated_bit_bind second, if_pos rfl,
      orTruncated_bit_bind third]
    exact Outcome.action_bind_of_error (labelLength_of_lt small lt fits numeral)

end Load

namespace Label
open Slice

/-- Bits of a key are stored as a label wherever one of its forms has room in a cell, in the fewest
bits that any form takes. From the front of whatever begins with them, or with any other form of the
label, the same bits of the key are read and no more. A length above the limit is refused, so that no
longer label is ever read. -/
theorem stored_in_fewest_bits (key : Bits) (offset len limit : Nat)
    (inside : offset + len ≤ key.length) (le : len ≤ limit) (small : limit ≤ 1023) :
    ((∃ b, Store.label (key.range offset len) limit Builder.empty = .ok () b) ↔
      ∃ n ∈ lengths (key.range offset len) limit, n ≤ 1023) ∧
    (∀ b, Store.label (key.range offset len) limit Builder.empty = .ok () b →
      IsLeast (lengths (key.range offset len) limit) b.bits.length ∧
      ∀ s : Slice, b.bits.toList <+: s.remainingBits →
        ∃ label : Bits, label.toList = key.range offset len ∧
          Load.label limit s = .ok label (s.advance b.bits.length 0)) ∧
    (∀ (form : Form) (s : Slice), form.Admits (key.range offset len) →
      encode form (key.range offset len) limit <+: s.remainingBits →
        ∃ label : Bits, label.toList = key.range offset len ∧ Load.label limit s =
          .ok label (s.advance (encode form (key.range offset len) limit).length 0)) ∧
    (∀ (form : Form) (n : Nat) (s : Slice), limit < n →
      (form ≠ .short → n < 2 ^ Nat.clog 2 (limit + 1)) → header form n limit <+: s.remainingBits →
        ∃ t, Load.label limit s = .error (.label .tooLong) t) ∧
    ∀ (s t : Slice) (label : Bits), Load.label limit s = .ok label t → label.length ≤ limit := by
  have lt : limit < 2 ^ 64 := Nat.lt_of_le_of_lt small (by decide)
  have length : (key.range offset len).length = len := Bits.length_range (by omega)
  have least := isLeast_length_choose (key.range offset len) limit
  -- the bits of the key are short enough for a bit string of their own
  obtain ⟨label, same⟩ : ∃ label : Bits, label.toList = key.range offset len :=
    ⟨⟨key.range offset len, by omega⟩, rfl⟩
  have within : label.length ≤ limit := by rwa [Bits.length, same, length]
  have written (b : Builder) : Store.label (key.range offset len) limit Builder.empty = .ok () b ↔
      Builder.Between .empty
        (encode (choose (key.range offset len) limit) (key.range offset len) limit) [] b := by
    rw [Store.writes_label]
    exact and_iff_right (Nat.zero_le _)
  have reads (form : Form) (s : Slice) (admits : form.Admits (key.range offset len))
      (front : encode form (key.range offset len) limit <+: s.remainingBits) :
      ∃ label : Bits, label.toList = key.range offset len ∧ Load.label limit s =
        .ok label (s.advance (encode form (key.range offset len) limit).length 0) := by
    rw [← same] at admits front ⊢
    exact ⟨label, rfl, Load.label_of_front lt within admits front⟩
  refine ⟨⟨fun stored => ?_, fun room => ?_⟩, fun b stored => ?_, reads,
    fun form n s above fits front => ?_, fun s t label run => (Load.exists_form lt run).1⟩
  · obtain ⟨b, stored⟩ := stored
    exact ⟨_, least.1, ((written b).1 stored).length_le⟩
  · obtain ⟨n, mem, room⟩ := room
    obtain ⟨b, between⟩ := @Builder.exists_between .empty _ (Nat.le_trans (least.2 mem) room)
    exact ⟨b, (written b).2 between⟩
  · have bits : b.bits.toList =
        encode (choose (key.range offset len) limit) (key.range offset len) limit :=
      ((written b).1 stored).bits_eq
    rw [Bits.length, bits]
    exact ⟨least, fun s front => reads _ s (choose_admits _ limit) front⟩
  · rw [← Binary.width_eq_clog] at fits
    exact Load.label_of_header lt above fits front

/-- Three ones of a key, behind its first bit, take the six bits of the form of equal bits. They are
read from the long form as well, in which five bits are too many. -/
theorem stored_in_fewest_bits_same :
    ∃ (key label : Bits) (b : Builder) (s : Slice), key.range 1 3 = [true, true, true] ∧
      1 + 3 ≤ key.length ∧ 3 ≤ 4 ∧ 4 ≤ 1023 ∧
      Store.label (key.range 1 3) 4 Builder.empty = .ok () b ∧
      IsLeast (lengths (key.range 1 3) 4) 6 ∧
      b.bits.toList ++ [false, true] = s.remainingBits ∧ label.toList = key.range 1 3 ∧
      Load.label 4 s = .ok label (s.advance 6 0) ∧
      (∀ u : Slice, u.remainingBits = [true, false, false, true, true, true, true, true] →
        ∃ label : Bits, label.toList = key.range 1 3 ∧ Load.label 4 u = .ok label (u.advance 8 0)) ∧
      ∀ u : Slice, u.remainingBits = [true, false, true, false, true] →
        ∃ t, Load.label 4 u = .error (.label .tooLong) t := by
  let key : Bits := ⟨[false, true, true, true], by decide⟩
  let s : Slice := .ofCell (.mk .ordinary
    ⟨[true, true, true, false, true, true, false, true], by decide⟩ [] .empty [])
  obtain ⟨b, stored, bits⟩ : ∃ b, Store.label (key.range 1 3) 4 Builder.empty = .ok () b ∧
      b.bits.toList = [true, true, true, false, true, true] := ⟨_, rfl, by decide⟩
  have length : b.bits.length = 6 := by rw [Bits.length, bits]; rfl
  obtain ⟨_, written, forms, refused, _⟩ :=
    stored_in_fewest_bits key 1 3 4 (by decide) (by decide) (by decide)
  obtain ⟨least, back⟩ := written b stored
  rw [length] at least back
  have front : b.bits.toList ++ [false, true] = s.remainingBits := by rw [bits]; rfl
  obtain ⟨label, same, run⟩ := back s ⟨_, front⟩
  refine ⟨key, label, b, s, rfl, by decide, by decide, by decide, stored, least, front, same, run,
    fun u rest => ?_, fun u rest => ?_⟩
  · exact forms .long u trivial (by rw [rest]; decide)
  · have five : 5 < 2 ^ Nat.clog 2 (4 + 1) := by rw [← Binary.width_eq_clog]; decide
    exact refused .long 5 u (by decide) (fun _ => five) (by rw [rest]; decide)

end Label

end CellBag
