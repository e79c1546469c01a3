import CellBag.Bits.Text
import CellBag.Proofs.Bits
import CellBag.Proofs.Text.Digits
import Mathlib

/-!
# Text of bit strings

The hexadecimal text of bits loses none of them, not even how many there are: with the underscore
stands a tag that says where the bits end, and without it the digits are full
(`Bits.hexDigits_inj`).
-/

namespace CellBag.Bits
open Text

section Nibbles
variable {bits : List Bool}

/-- Bits that do not begin with four of them are fewer than four. -/
lemma length_lt_of_no_nibble
    (few : ∀ a b c d rest, bits = a :: b :: c :: d :: rest → False) : bits.length < 4 := by
  match bits with
  | a :: b :: c :: d :: rest => exact (few a b c d rest rfl).elim
  | [] | [_] | [_, _] | [_, _, _] => simp

/-- Four bits denote a number below sixteen. -/
lemma nibbles_lt (bits : List Bool) : ∀ n ∈ nibbles bits, n < 16 := by
  fun_induction nibbles bits with
  | case1 => exact List.forall_mem_nil _
  | case2 a b c d rest ih => exact List.forall_mem_cons.2 ⟨Binary.toNat_lt [a, b, c, d], ih⟩
  | case3 short nonempty few =>
    exact List.forall_mem_singleton.2 (Binary.toNat_filled_lt (length_lt_of_no_nibble few).le)

/-- Groups of four bits spell the same bits and the zeros that fill the last group. -/
lemma flatMap_nibbles (bits : List Bool) :
    (nibbles bits).flatMap (Binary.ofNat 4) =
      bits ++ List.replicate ((4 - bits.length % 4) % 4) false := by
  fun_induction nibbles bits with
  | case1 => rfl
  | case2 a b c d rest ih =>
    have first : Binary.ofNat 4 (Binary.toNat [a, b, c, d]) = [a, b, c, d] :=
      Binary.ofNat_toNat [a, b, c, d]
    have same : (4 - (rest.length + 4) % 4) % 4 = (4 - rest.length % 4) % 4 := by omega
    rw [List.flatMap_cons, ih, first]
    simp only [List.length_cons, List.cons_append, List.nil_append]
    rw [same]
  | case3 short nonempty few =>
    have len := length_lt_of_no_nibble few
    have pos := List.length_pos_iff.2 nonempty
    have fill : (4 - short.length % 4) % 4 = 4 - short.length := by omega
    rw [List.flatMap_singleton, Binary.ofNat_toNat_filled len.le, fill]

/-- Upper-case digits tell their values apart. -/
lemma map_digit_inj {ns ms : List Nat} (small : ∀ n ∈ ns, n < 16) (small' : ∀ n ∈ ms, n < 16)
    (e : ns.map (Hex.digit true) = ms.map (Hex.digit true)) : ns = ms := by
  have value {ns : List Nat} (small : ∀ n ∈ ns, n < 16) :
      (ns.map (Hex.digit true)).map (fun c => Hex.value? (UInt8.ofNat c.toNat)) = ns.map some := by
    rw [List.map_map]
    exact List.map_congr_left fun n mem => Hex.value?_digit (small n mem)
  have values := congrArg (List.map fun c : Char => Hex.value? (UInt8.ofNat c.toNat)) e
  rw [value small, value small'] at values
  exact List.map_injective_iff.2 (Option.some_injective Nat) values

end Nibbles

variable {b b' : Bits}

/-- What holds of upper-case digits and of the underscore holds of all characters. -/
lemma forall_mem_hexDigits {P : Char → Prop} (each : ∀ n < 16, P (Hex.digit true n)) (tag : P '_') :
    ∀ c ∈ b.hexDigits, P c := by
  have digits (bits : List Bool) : ∀ c ∈ (nibbles bits).map (Hex.digit true), P c := by
    intro c mem
    obtain ⟨n, here, rfl⟩ := List.mem_map.1 mem
    exact each n (nibbles_lt bits n here)
  rw [hexDigits]
  split
  case isTrue => exact digits _
  case isFalse => exact List.forall_mem_append.2 ⟨digits _, List.forall_mem_singleton.2 tag⟩

/-- Bits that fill whole digits have no underscore. -/
lemma underscore_mem_hexDigits : '_' ∈ b.hexDigits ↔ ¬ b.length % 4 = 0 := by
  have other : ∀ n < 16, Hex.digit true n ≠ '_' := by decide +kernel
  rw [hexDigits]
  split
  case isTrue whole =>
    refine iff_of_false (fun mem => ?_) (not_not.2 whole)
    obtain ⟨n, here, same⟩ := List.mem_map.1 mem
    exact other n (nibbles_lt _ n here) same
  case isFalse part => exact iff_of_true (List.mem_append_right _ (List.mem_singleton_self _)) part

/-- A tag with zeros behind it says where the bits before it end. -/
lemma eq_of_tag {xs ys : List Bool} {j k : Nat}
    (e : xs ++ true :: List.replicate j false = ys ++ true :: List.replicate k false) :
    xs = ys := by
  have zeros := congrArg trailingZeros e
  rw [trailingZeros_tag, trailingZeros_tag] at zeros
  rw [zeros] at e
  exact List.append_cancel_right e

/-- Different bits have different texts. -/
theorem hexDigits_inj (e : b.hexDigits = b'.hexDigits) : b = b' := by
  have whole : b.length % 4 = 0 ↔ b'.length % 4 = 0 := by
    rw [← not_iff_not, ← underscore_mem_hexDigits, ← underscore_mem_hexDigits, e]
  apply Bits.ext
  rw [hexDigits, hexDigits] at e
  by_cases full : b.length % 4 = 0
  · rw [if_pos full, if_pos (whole.1 full)] at e
    have groups := map_digit_inj (nibbles_lt _) (nibbles_lt _) e
    have bits := congrArg (List.flatMap (Binary.ofNat 4)) groups
    have none {b : Bits} (full : b.length % 4 = 0) : (4 - b.toList.length % 4) % 4 = 0 := by
      rw [show b.toList.length % 4 = 0 from full]
    rwa [flatMap_nibbles, flatMap_nibbles, none full, none (whole.1 full), List.replicate_zero,
      List.append_nil, List.append_nil] at bits
  · rw [if_neg full, if_neg (mt whole.2 full)] at e
    have groups := map_digit_inj (nibbles_lt _) (nibbles_lt _) (List.append_cancel_right e)
    have bits := congrArg (List.flatMap (Binary.ofNat 4)) groups
    rw [flatMap_nibbles, flatMap_nibbles, List.append_assoc, List.append_assoc] at bits
    exact eq_of_tag bits

/-- Bit strings with the same text are the same. -/
theorem hex_injective : Function.Injective hex :=
  fun _ _ e => hexDigits_inj (String.ofList_injective e)

end CellBag.Bits
