import CellBag.Proofs.Binary
import CellBag.Proofs.Dictionary.Order
import Mathlib

/-!
# Byte order of keys

Keys that are packed into bytes are compared byte by byte, and by their lengths when no byte
differs. This is the order of their bits (`Key.compareBytes_eq`): bytes are ordered as the bits
that they are made of, and the zeros that fill up the last byte stand for a shorter key only as long
as no bit differs. Bit by bit, keys are ordered as lists are (`Key.compareBits_eq_lt`).
-/

namespace CellBag.Key

/-- Compares the bytes of keys from the front, and their lengths when no byte differs. -/
def compareBytes (a b : Key) : Ordering :=
  (Ord.compare a.toBytes b.toBytes).then (Ord.compare a.length b.length)

variable {a b : List Bool}

/-- Lists of bits are ordered as lists are, with a zero before a one. -/
lemma compareBits_eq_lt : compareBits a b = .lt ↔ a < b := by
  induction a generalizing b with
  | nil =>
    cases b with
    | nil => exact iff_of_false nofun (List.lt_irrefl [])
    | cons y b => exact iff_of_true rfl (List.nil_lt_cons y b)
  | cons x a ih =>
    cases b with
    | nil => exact iff_of_false nofun (List.not_lt_nil _)
    | cons y b =>
      rw [compareBits_cons, List.cons_lt_cons_iff, ih, or_comm, Bool.lt_iff]

section Numerals

/-- Numbers in the same order compare alike. -/
lemma compare_congr {m n m' n' : Nat} (lt : m < n ↔ m' < n') (gt : n < m ↔ n' < m') :
    Ord.compare m n = Ord.compare m' n' := by
  rw [Nat.compare_eq_ite_lt, Nat.compare_eq_ite_lt]
  simp only [lt, gt]

/-- Numerals of the same width are ordered as their numbers. -/
lemma compareBits_of_length (len : a.length = b.length) :
    compareBits a b = Ord.compare (Binary.toNat a) (Binary.toNat b) := by
  induction a generalizing b with
  | nil =>
    obtain rfl := List.length_eq_zero_iff.1 len.symm
    rfl
  | cons x a ih =>
    obtain ⟨y, b, rfl⟩ := List.exists_cons_of_length_eq_add_one len.symm
    have len : a.length = b.length := Nat.succ.inj len
    have la := Binary.toNat_lt a
    have lb := Binary.toNat_lt b
    rw [compareBits, Binary.toNat_cons, Binary.toNat_cons, len, ih len]
    rw [len] at la
    cases x with
    | false =>
      cases y with
      | false => exact compare_congr (by simp) (by simp)
      | true =>
        symm
        apply Nat.compare_eq_lt.2
        simp only [Bool.toNat_false, Bool.toNat_true]
        omega
    | true =>
      cases y with
      | false =>
        symm
        apply Nat.compare_eq_gt.2
        simp only [Bool.toNat_false, Bool.toNat_true]
        omega
      | true => exact compare_congr (by simp) (by simp)

/-- What follows two lists of one length matters if these are equal. -/
lemma compareBits_append_of_length {u v : List Bool} (len : u.length = v.length)
    (xs ys : List Bool) :
    compareBits (u ++ xs) (v ++ ys) = (compareBits u v).then (compareBits xs ys) := by
  induction u generalizing v with
  | nil =>
    obtain rfl := List.length_eq_zero_iff.1 len.symm
    rfl
  | cons x u ih =>
    obtain ⟨y, v, rfl⟩ := List.exists_cons_of_length_eq_add_one len.symm
    rw [List.cons_append, List.cons_append, compareBits, compareBits]
    by_cases same : x = y
    · rw [if_pos same, if_pos same, ih (Nat.succ.inj len)]
    · rw [if_neg same, if_neg same]
      cases y with
      | false => rfl
      | true => rfl

/-- Bytes are ordered as the bits that they are made of. -/
lemma compareBits_unpack (xs ys : List UInt8) :
    compareBits (Octets.unpack xs) (Octets.unpack ys) = Ord.compare xs ys := by
  induction xs generalizing ys with
  | nil =>
    cases ys with
    | nil => rfl
    | cons y ys => rfl
  | cons x xs ih =>
    cases ys with
    | nil => rfl
    | cons y ys =>
      have byte (z : UInt8) : Binary.toNat (Binary.ofNat 8 z.toNat) = z.toNat := by
        rw [Binary.toNat_ofNat]
        exact Nat.mod_eq_of_lt z.toNat_lt
      have len : (Binary.ofNat 8 x.toNat).length = (Binary.ofNat 8 y.toNat).length := by
        rw [Binary.length_ofNat, Binary.length_ofNat]
      rw [Octets.unpack_cons, Octets.unpack_cons, compareBits_append_of_length len,
        compareBits_of_length len, byte, byte, ih, List.compare_cons_cons,
        UInt8.compare_eq_toNat_compare_toNat]

end Numerals

section Zeros

/-- Zeros come before all bits that are not fewer, unless these are zeros as well. -/
lemma compareBits_zeros {k : Nat} (le : k ≤ b.length) :
    compareBits (List.replicate k false) b = .lt ∨
      compareBits (List.replicate k false) b = .eq := by
  induction k generalizing b with
  | zero =>
    cases b with
    | nil => exact Or.inr rfl
    | cons => exact Or.inl rfl
  | succ k ih =>
    cases b with
    | nil => cases le
    | cons y b =>
      rw [List.replicate_succ, compareBits]
      cases y with
      | false => exact ih (Nat.le_of_succ_le_succ le)
      | true => exact Or.inl rfl

/-- Zeros behind keys do not change their order when a shorter key has no more bits with them than a
longer one. -/
lemma compareBits_padded {k l : Nat}
    (mono : a.length ≤ b.length → a.length + k ≤ b.length + l)
    (mono' : b.length ≤ a.length → b.length + l ≤ a.length + k) :
    (compareBits (a ++ List.replicate k false) (b ++ List.replicate l false)).then
      (Ord.compare a.length b.length) = compareBits a b := by
  induction a generalizing b with
  | nil =>
    cases b with
    | nil =>
      simp only [List.length_nil] at mono mono'
      obtain rfl : k = l := by omega
      rw [compareBits_self]
      rfl
    | cons y b =>
      have shorter : Ord.compare ([] : List Bool).length (y :: b).length = .lt :=
        Nat.compare_eq_lt.2 (Nat.succ_pos _)
      have room : k ≤ (y :: b ++ List.replicate l false).length := by
        simp only [List.length_append, List.length_replicate, List.length_nil] at mono ⊢
        omega
      rw [List.nil_append, shorter]
      cases compareBits_zeros room with
      | inl lt => rw [lt]; rfl
      | inr eq => rw [eq]; rfl
  | cons x a ih =>
    cases b with
    | nil =>
      have longer : Ord.compare (x :: a).length ([] : List Bool).length = .gt :=
        Nat.compare_eq_gt.2 (Nat.succ_pos _)
      have room : l ≤ (x :: a ++ List.replicate k false).length := by
        simp only [List.length_append, List.length_replicate, List.length_nil] at mono' ⊢
        omega
      rw [List.nil_append, longer]
      cases compareBits_zeros room with
      | inl lt => rw [compareBits_eq_gt.2 lt]; rfl
      | inr eq => rw [compareBits_eq_eq.2 (compareBits_eq_eq.1 eq).symm]; rfl
    | cons y b =>
      simp only [List.length_cons] at mono mono'
      rw [List.cons_append, List.cons_append, compareBits, compareBits]
      by_cases same : x = y
      · have shorter : Ord.compare (x :: a).length (y :: b).length =
            Ord.compare a.length b.length :=
          compare_congr Nat.succ_lt_succ_iff Nat.succ_lt_succ_iff
        rw [if_pos same, if_pos same, shorter]
        exact ih (by omega) (by omega)
      · rw [if_neg same, if_neg same]
        cases y with
        | false => rfl
        | true => rfl

end Zeros

/-- The order of the bytes is that of the bits, whether they fill whole bytes or not. -/
theorem compareBytes_eq (a b : Key) : compareBytes a b = compare a b := by
  rw [compareBytes, ← compareBits_unpack, Bits.toBytes, Bits.toBytes, Octets.unpack_pack,
    Octets.unpack_pack]
  apply compareBits_padded
  · intro le
    rw [Binary.octetsFor, Binary.octetsFor]
    omega
  · intro le
    rw [Binary.octetsFor, Binary.octetsFor]
    omega

end CellBag.Key
