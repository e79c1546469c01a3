import CellBag.Dictionary.Label
import CellBag.Proofs.Builder.Writes
import CellBag.Proofs.Slice
import Mathlib

/-!
# Label codec

Any form of a label is read (`Load.label_eq_ok`), and nothing but a form of a label is. What is
written is one of them (`Store.writes_label`, `Label.choose_admits`).
-/

namespace CellBag

namespace Label

/-- Whether a form can stand for a label: that of equal bits needs them to be equal. -/
def Form.Admits : Form → List Bool → Prop
  | .short, _ | .long, _ => True
  | .same bit, label => ∀ b ∈ label, b = bit

/-- The form that is chosen for a label can stand for it. -/
lemma choose_admits (label : List Bool) (limit : Nat) : (choose label limit).Admits label := by
  have plain (p : Prop) [Decidable p] : (if p then Form.short else Form.long).Admits label := by
    split
    · trivial
    · trivial
  rw [choose]
  cases label with
  | nil => exact plain _
  | cons first rest =>
    rw [uniform?]
    split
    case h_1 bit uniform =>
      split
      case isTrue =>
        rw [Option.ite_none_right_eq_some] at uniform
        obtain ⟨all, same⟩ := uniform
        cases same
        intro b mem
        rcases List.mem_cons.1 mem with rfl | mem
        · rfl
        · exact eq_of_beq (List.all_eq_true.1 all b mem)
      case isFalse => exact plain _
    case h_2 => exact plain _

end Label

/-- Nothing but a bit repeated is written when there is room for it. -/
lemma Bits.writeRepeated_eq_ok {r : Bits} {bit : Bool} {count : Nat} :
    Bits.empty.writeRepeated bit count = .ok r ↔ r.toList = List.replicate count bit := by
  refine (Write.run_eq_ok (w := .repeated bit count)).trans ⟨?_, fun e => ⟨_, rfl, e⟩⟩
  rintro ⟨xs, rfl, e⟩
  exact e

/-- A label is written in the form that is chosen for it. -/
lemma Store.writes_label (value : List Bool) (limit : Nat) :
    Writes (Store.label value limit) (Label.encode (Label.choose value limit) value limit) [] :=
  (writes_append _).bind (writes_append _)

namespace Load
open Slice Label
variable {s t : Slice}

/-- Another error does not change what is loaded. -/
@[simp]
lemma orTruncated_eq_ok {α : Type} {action : Load α} {a : α} :
    orTruncated action s = .ok a t ↔ action s = .ok a t := by
  rw [orTruncated]
  cases action s with
  | ok b u => rfl
  | error e u => exact ⟨by rintro ⟨⟩, by rintro ⟨⟩⟩

/-- A number is loaded from as many ones and a zero. -/
lemma unary_eq_ok {room n : Nat} :
    unary room s = .ok n t ↔ n ≤ room ∧ Between s (List.replicate n true ++ [false]) t := by
  induction room generalizing s n with
  | zero =>
    simp only [unary, Outcome.action_bind_eq_ok, orTruncated_eq_ok, bit_eq_ok,
      Outcome.action_guard_eq_ok, Outcome.action_pure_eq_ok, Nat.le_zero]
    constructor
    · rintro ⟨b, u, stop, zero, rfl, rfl⟩
      rw [Bool.not_eq_true] at zero
      subst zero
      exact ⟨rfl, stop⟩
    · rintro ⟨rfl, stop⟩
      exact ⟨false, t, stop, Bool.false_ne_true, rfl, rfl⟩
  | succ room ih =>
    simp only [unary, Outcome.action_bind_eq_ok, orTruncated_eq_ok, bit_eq_ok]
    constructor
    · rintro ⟨b, u, first, run⟩
      cases b with
      | false =>
        rw [if_neg Bool.false_ne_true, Outcome.action_pure_eq_ok] at run
        obtain ⟨rfl, rfl⟩ := run
        exact ⟨Nat.zero_le _, first⟩
      | true =>
        rw [if_pos rfl, Outcome.action_bind_eq_ok] at run
        obtain ⟨m, v, run, last⟩ := run
        obtain ⟨rfl, rfl⟩ := Outcome.action_pure_eq_ok.1 last
        obtain ⟨le, rest⟩ := ih.1 run
        refine ⟨Nat.succ_le_succ le, ?_⟩
        rw [List.replicate_succ, List.cons_append, ← List.singleton_append]
        exact between_append.2 ⟨u, first, rest⟩
    · rintro ⟨le, between⟩
      cases n with
      | zero =>
        refine ⟨false, t, between, ?_⟩
        rw [if_neg Bool.false_ne_true, Outcome.action_pure_eq_ok]
        exact ⟨rfl, rfl⟩
      | succ n =>
        rw [List.replicate_succ, List.cons_append, ← List.singleton_append] at between
        obtain ⟨u, first, rest⟩ := between_append.1 between
        refine ⟨true, u, first, ?_⟩
        rw [if_pos rfl, Outcome.action_bind_eq_ok]
        exact ⟨n, t, ih.2 ⟨Nat.le_of_succ_le_succ le, rest⟩, Outcome.action_pure_eq_ok.2 ⟨rfl, rfl⟩⟩

/-- The length of a label is loaded from its numeral. -/
lemma labelLength_eq_ok {limit n : Nat} (small : limit < 2 ^ 64)
    (le : s.bitPosition ≤ s.cell.bits.length) :
    labelLength limit s = .ok n t ↔
      n ≤ limit ∧ Between s (Binary.ofNat (lengthWidth limit) n) t := by
  have width : lengthWidth limit ≤ 64 := Binary.width_le small
  simp only [labelLength, Outcome.action_bind_eq_ok, orTruncated_eq_ok, word_eq_ok width le,
    Outcome.action_guard_bind_eq_ok, Outcome.action_pure_eq_ok, Nat.not_lt]
  constructor
  · rintro ⟨x, u, ⟨_, between⟩, bound, rfl, rfl⟩
    exact ⟨bound, between⟩
  · rintro ⟨bound, between⟩
    have value : (BitVec.ofNat 64 n).toNat = n := by
      rw [BitVec.toNat_ofNat, Nat.mod_eq_of_lt (Nat.lt_of_le_of_lt bound small)]
    refine ⟨BitVec.ofNat 64 n, t, ?_⟩
    rw [value]
    exact ⟨⟨Nat.lt_of_le_of_lt bound (Binary.lt_two_pow_width limit), between⟩, bound, rfl, rfl⟩

/-- What stands in front of a label and its bits, for each form. -/
lemma between_encode {form : Form} {label : List Bool} {limit : Nat} :
    Between s (encode form label limit) t ↔
      match form with
      | .short => ∃ u v, Between s [false] u ∧
        Between u (List.replicate label.length true ++ [false]) v ∧ Between v label t
      | .long => ∃ u v, Between s ([true] ++ [false]) u ∧
        Between u (Binary.ofNat (lengthWidth limit) label.length) v ∧ Between v label t
      | .same bit => ∃ u v, Between s ([true] ++ ([true] ++ [bit])) u ∧
        Between u (Binary.ofNat (lengthWidth limit) label.length) v ∧ Between v [] t := by
  have split (xs ys zs : List Bool) : Between s (xs ++ ys ++ zs) t ↔
      ∃ u v, Between s xs u ∧ Between u ys v ∧ Between v zs t := by
    rw [between_append]
    constructor
    · rintro ⟨v, front, last⟩
      obtain ⟨u, first, second⟩ := between_append.1 front
      exact ⟨u, v, first, second, last⟩
    · rintro ⟨u, v, first, second, last⟩
      exact ⟨v, between_append.2 ⟨u, first, second⟩, last⟩
  cases form with
  | short => exact split [false] _ _
  | long => exact split [true, false] _ _
  | same bit => exact split [true, true, bit] _ _

variable {limit : Nat} {label : Bits}

/-- What is read as a label is some form of it. -/
lemma exists_form (small : limit < 2 ^ 64) (e : Load.label limit s = .ok label t) :
    label.length ≤ limit ∧
      ∃ form : Form, form.Admits label.toList ∧ Between s (encode form label.toList limit) t := by
  simp only [Load.label, Outcome.action_bind_eq_ok, orTruncated_eq_ok, bit_eq_ok] at e
  obtain ⟨b, s₁, first, run⟩ := e
  cases b with
  | false =>
    rw [if_neg Bool.false_ne_true, Outcome.action_bind_eq_ok] at run
    obtain ⟨n, s₂, length, bits⟩ := run
    obtain ⟨le, unary⟩ := unary_eq_ok.1 length
    rw [orTruncated_eq_ok, bitString_eq_ok unary.le_end] at bits
    obtain ⟨rfl, body⟩ := bits
    exact ⟨le, .short, trivial, between_encode.2 ⟨s₁, s₂, first, unary, body⟩⟩
  | true =>
    simp only [if_pos, Outcome.action_bind_eq_ok, orTruncated_eq_ok, bit_eq_ok] at run
    obtain ⟨b, s₂, second, run⟩ := run
    cases b with
    | false =>
      rw [if_neg Bool.false_ne_true, Outcome.action_bind_eq_ok] at run
      obtain ⟨n, s₃, length, bits⟩ := run
      obtain ⟨le, numeral⟩ := (labelLength_eq_ok small second.le_end).1 length
      rw [orTruncated_eq_ok, bitString_eq_ok numeral.le_end] at bits
      obtain ⟨rfl, body⟩ := bits
      have front := between_append.2 ⟨s₁, first, second⟩
      exact ⟨le, .long, trivial, between_encode.2 ⟨s₂, s₃, front, numeral, body⟩⟩
    | true =>
      simp only [if_pos, Outcome.action_bind_eq_ok, orTruncated_eq_ok, bit_eq_ok,
        Outcome.action_ofExcept_eq_ok] at run
      obtain ⟨bit, s₃, third, n, s₄, length, repeated, rfl⟩ := run
      obtain ⟨le, numeral⟩ := (labelLength_eq_ok small third.le_end).1 length
      have bits := Bits.writeRepeated_eq_ok.1 repeated
      have len : label.toList.length = n := by rw [bits, List.length_replicate]
      have front := between_append.2 ⟨s₁, first, between_append.2 ⟨s₂, second, third⟩⟩
      rw [← len] at le numeral
      refine ⟨le, .same bit, fun c mem => ?_, between_encode.2 ⟨s₃, s₄, front, numeral, ?_⟩⟩
      · rw [bits] at mem
        exact List.eq_of_mem_replicate mem
      · exact between_nil.2 ⟨rfl, numeral.le_end⟩

/-- Any form of a label is read as this label. -/
lemma label_of_form {form : Form} (small : limit < 2 ^ 64) (le : label.length ≤ limit)
    (admits : form.Admits label.toList) (between : Between s (encode form label.toList limit) t) :
    Load.label limit s = .ok label t := by
  rw [between_encode] at between
  simp only [Load.label, Outcome.action_bind_eq_ok, orTruncated_eq_ok, bit_eq_ok]
  cases form with
  | short =>
    obtain ⟨s₁, s₂, first, unary, body⟩ := between
    refine ⟨false, s₁, first, ?_⟩
    rw [if_neg Bool.false_ne_true, Outcome.action_bind_eq_ok]
    refine ⟨_, s₂, unary_eq_ok.2 ⟨le, unary⟩, ?_⟩
    rw [orTruncated_eq_ok, bitString_eq_ok unary.le_end]
    exact ⟨rfl, body⟩
  | long =>
    obtain ⟨s₂, s₃, front, numeral, body⟩ := between
    obtain ⟨s₁, first, second⟩ := between_append.1 front
    refine ⟨true, s₁, first, ?_⟩
    simp only [if_pos, Outcome.action_bind_eq_ok, orTruncated_eq_ok, bit_eq_ok]
    refine ⟨false, s₂, second, ?_⟩
    rw [if_neg Bool.false_ne_true, Outcome.action_bind_eq_ok]
    refine ⟨_, s₃, (labelLength_eq_ok small second.le_end).2 ⟨le, numeral⟩, ?_⟩
    rw [orTruncated_eq_ok, bitString_eq_ok numeral.le_end]
    exact ⟨rfl, body⟩
  | same bit =>
    obtain ⟨s₃, s₄, front, numeral, last⟩ := between
    obtain ⟨s₁, first, front⟩ := between_append.1 front
    obtain ⟨s₂, second, third⟩ := between_append.1 front
    obtain ⟨rfl, _⟩ := between_nil.1 last
    refine ⟨true, s₁, first, ?_⟩
    simp only [if_pos, Outcome.action_bind_eq_ok, orTruncated_eq_ok, bit_eq_ok]
    refine ⟨true, s₂, second, ?_⟩
    simp only [if_pos, Outcome.action_bind_eq_ok, orTruncated_eq_ok, bit_eq_ok,
      Outcome.action_ofExcept_eq_ok]
    refine ⟨bit, s₃, third, _, s₄, (labelLength_eq_ok small third.le_end).2 ⟨le, numeral⟩, ?_, rfl⟩
    exact Bits.writeRepeated_eq_ok.2 (List.eq_replicate_iff.2 ⟨rfl, admits⟩)

/-- A label is read from any of its forms, and from nothing else. -/
theorem label_eq_ok (small : limit < 2 ^ 64) :
    Load.label limit s = .ok label t ↔ label.length ≤ limit ∧
      ∃ form : Form, form.Admits label.toList ∧ Between s (encode form label.toList limit) t := by
  constructor
  · exact exists_form small
  · rintro ⟨le, form, admits, between⟩
    exact label_of_form small le admits between

end Load

end CellBag
