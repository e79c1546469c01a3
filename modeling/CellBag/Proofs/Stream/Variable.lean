import CellBag.Proofs.Bits.Words
import CellBag.Proofs.Builder.Appends
import CellBag.Proofs.Builder.Room
import CellBag.Proofs.Slice.Reads
import CellBag.Proofs.Stream.Codec
import Mathlib

/-!
# Variable lengths

A number of variable length is stored at once behind the number of its bytes, or not at all
(`Store.varLength_write`). The bytes are the least that hold it (`Store.storesSized_varNat`,
`Store.storesSized_varInt`), and coins are such a number with a length of four bits, both when they
are stored (`Store.coins_eq_varNat`) and when they are loaded (`Load.coins_eq_varNat`).
-/

namespace CellBag

namespace Store
open Builder Outcome
variable {b : Builder} {xs ys : List Bool} {w : Bits.Write} {size lengthBits : Nat}

section Steps

/-- A value that does not fit is refused. -/
lemma write_of_error {e : Error} (refused : w.spelling = .error e) : write w.run = throw e := by
  funext b
  rw [write, Bits.Write.run_eq, refused]
  rfl

/-- An integer in range is spelled by its numeral. -/
lemma spelling_int {i : Int} {width : Nat} (range : Binary.InRange i width) :
    (Bits.Write.int i width).spelling = .ok (Binary.ofInt width i) :=
  if_pos (Bits.fitsInt_iff.2 range)

end Steps

/-- A value is stored at once behind the number of its bytes, unless this number is too large. -/
lemma varLength_write (narrow : lengthBits < 64) (spelled : w.spelling = .ok xs)
    (len : xs.length = 8 * size) :
    (do varLength size lengthBits; write w.run) =
      if 2 ^ lengthBits ≤ size then throw (.intOverflow (varWidth lengthBits))
      else write (·.append (Binary.ofNat lengthBits size ++ xs)) := by
  have large : (64 ≤ lengthBits ∨ lengthBits < Binary.width size) ↔ 2 ^ lengthBits ≤ size := by
    rw [or_iff_right (Nat.not_le.2 narrow), ← Nat.not_le, Binary.width_le_iff, Nat.not_lt]
  split
  case isTrue le =>
    funext b
    apply action_bind_of_error
    rw [varLength, if_pos (large.2 le)]
    rfl
  case isFalse small =>
    have steps : varLength size lengthBits =
        (do ensureBits (lengthBits + 8 * size); nat size lengthBits) := by
      rw [varLength, if_neg (mt large.1 small)]
    have total : lengthBits + 8 * size = (Binary.ofNat lengthBits size ++ xs).length := by
      rw [List.length_append, Binary.length_ofNat, len]
    have first : nat size lengthBits = write (·.append (Binary.ofNat lengthBits size)) :=
      write_of_spelling (spelling_nat (Nat.not_le.1 small))
    rw [steps, bind_assoc, first, write_of_spelling spelled, total,
      ← ensureBits_append (Binary.ofNat lengthBits size ++ xs)]
    apply ensureBits_congr
    intro b room
    exact append_append xs room

/-- An action stores a value behind the number of its bytes: the bytes denote the value, and the
only values that are refused for their size are those whose number of bytes is too large. -/
structure StoresSized (action : Store Unit) (lengthBits size : Nat) (Denotes : List Bool → Prop) :
    Prop where
  ok_iff : ∀ b b', action b = .ok () b' ↔ size < 2 ^ lengthBits ∧
    ∃ ys, ys.length = 8 * size ∧ Denotes ys ∧
      Between b (Binary.ofNat lengthBits size ++ ys) [] b'
  overflow_iff : ∀ b, (∃ width b', action b = .error (.intOverflow width) b') ↔
    2 ^ lengthBits ≤ size

/-- A write of `size` bytes stores its value behind their number. -/
lemma storesSized_write {Denotes : List Bool → Prop} (narrow : lengthBits < 64)
    (spelled : w.spelling = .ok xs) (len : xs.length = 8 * size)
    (denotes : ∀ ys, ys.length = 8 * size ∧ Denotes ys ↔ ys = xs) :
    StoresSized (do varLength size lengthBits; write w.run) lengthBits size Denotes := by
  rw [varLength_write narrow spelled len]
  split
  case isTrue le =>
    refine ⟨fun b b' => ?_, fun b => ?_⟩
    · apply iff_of_false
      · intro stored
        cases stored
      · intro h
        exact Nat.not_lt.2 le h.1
    · exact iff_of_true ⟨_, b, rfl⟩ le
  case isFalse small =>
    refine ⟨fun b b' => ?_, fun b => ?_⟩
    · rw [append_eq_ok, and_iff_right (Nat.not_le.1 small)]
      simp only [← and_assoc, denotes, exists_eq_left]
    · apply iff_of_false
      · intro h
        obtain ⟨width, b', stop⟩ := h
        cases failsForRoom_append _ b _ b' stop
      · exact small

/-- A natural number is stored in the least number of bytes. -/
lemma storesSized_varNat (n : Nat) (narrow : lengthBits < 64) :
    StoresSized (varNat n lengthBits) lengthBits (Binary.octetsFor (Binary.width n))
      (Binary.toNat · = n) := by
  have lt := Binary.octetsFor_width_le_iff.1 (Nat.le_refl (Binary.octetsFor (Binary.width n)))
  refine storesSized_write narrow (spelling_nat lt) (Binary.length_ofNat _ _) fun ys => ?_
  rw [← Bits.Write.eq_ofNat_iff, and_iff_right lt]

/-- An integer is stored in two's complement in the least number of bytes. -/
lemma storesSized_varInt (i : Int) (narrow : lengthBits < 64) :
    StoresSized (varInt i lengthBits) lengthBits (intSize i) (Binary.toInt · = i) := by
  have range := inRange_intSize i
  refine storesSized_write narrow (spelling_int range) (Binary.length_ofInt _ _) fun ys => ?_
  rw [← Bits.Write.eq_ofInt_iff, and_iff_right range]

/-- The bytes of a natural number are the least that hold it. -/
lemma isLeast_octetsFor (n : Nat) :
    IsLeast {m | n < 2 ^ (8 * m)} (Binary.octetsFor (Binary.width n)) :=
  ⟨Binary.octetsFor_width_le_iff.1 (Nat.le_refl _), fun _ => Binary.octetsFor_width_le_iff.2⟩

/-- No fewer bytes hold the sign of an integer together with its magnitude. -/
lemma isLeast_intSize (i : Int) : IsLeast {m | Binary.InRange i (8 * m)} (intSize i) := by
  refine ⟨inRange_intSize i, ?_⟩
  intro m range
  have fits := Bits.fitsInt_iff.2 range
  rw [intSize]
  split
  case isTrue => exact Nat.zero_le m
  case isFalse nonzero =>
    cases m with
    | zero => exact absurd (of_decide_eq_true fits) nonzero
    | succ m =>
      have le : Binary.width (Binary.magnitude i) ≤ 8 * m + 7 := of_decide_eq_true fits
      rw [Binary.octetsFor]
      omega

/-- Coins are stored as a natural number with a length of four bits. -/
lemma coins_eq_varNat (amount : BitVec 128) : coins amount = varNat amount.toNat 4 := by
  let size := Binary.octetsFor (Binary.width amount.toNat)
  have lt := Binary.octetsFor_width_le_iff.1 (Nat.le_refl size)
  have stored : varNat amount.toNat 4 =
      if 2 ^ 4 ≤ size then throw (.intOverflow (varWidth 4))
      else write (·.append (Binary.ofNat 4 size ++ Binary.ofNat (8 * size) amount.toNat)) :=
    varLength_write (by decide) (spelling_nat lt) (Binary.length_ofNat _ _)
  have large : Bits.coinsWidth < 8 * size ↔ 2 ^ 4 ≤ size := by
    rw [Bits.coinsWidth]
    omega
  rw [stored]
  split
  case isTrue le => exact write_of_error (w := .coins amount) (if_pos (large.2 le))
  case isFalse small => exact write_of_spelling (w := .coins amount) (if_neg (mt large.1 small))

end Store

namespace Load
open Outcome
variable {s : Slice}

/-- A word of four bits is the number of at most fifteen bytes. -/
lemma four_of_word {size : BitVec 64} (first : s.cell.bits.wordAt 64 s.bitPosition 4 = .ok size) :
    s.bitPosition + 4 ≤ s.cell.bits.length ∧ 8 * size.toNat ≤ 128 := by
  have room := Bits.covers_wordAt 64 4 _ _ _ first
  have small := Binary.toNat_lt (s.cell.bits.range s.bitPosition 4)
  rw [Bits.wordAt_of_le (by decide) room, Except.ok.injEq] at first
  rw [Bits.length_range room] at small
  rw [← first, BitVec.toNat_ofNat]
  exact ⟨by omega, by omega⟩

/-- Coins are loaded as a natural number with a length of four bits. -/
lemma coins_eq_varNat (arith : Arithmetic) :
    (do return (← coins).toNat : Load Nat) = varNat arith 4 := by
  funext s
  rw [varNat, atomically]
  cases first : s.cell.bits.wordAt 64 s.bitPosition 4 with
  | error e =>
    have look : peekWord 4 s = .error e s := by rw [peekWord, peek, first]
    have read : word 4 s = .error e s := action_bind_of_error look
    have none : coins s = .error e s := action_bind_of_error look
    rw [action_bind_of_error read, action_bind_of_error none]
  | ok size =>
    obtain ⟨within, fits⟩ := four_of_word first
    have look : peekWord 4 s = .ok size s := peek_of_eq first
    have read : word 4 s = .ok size (s.advance 4 0) := take_eq_ok.2 ⟨first, rfl⟩
    have same := Bits.map_wordAt fits within
    have counted : byteWidth arith size.toNat (s.advance 4 0) =
        .ok (8 * size.toNat) (s.advance 4 0) :=
      byteWidth_of_lt (Nat.lt_of_le_of_lt fits (by decide))
    have front : coins s =
        (do let amount ← peekCoins; advance (4 + 8 * size.toNat) 0; return amount : Load _) s :=
      action_bind_of_ok look
    rw [action_bind_of_ok read, action_bind_of_ok counted]
    cases second : s.cell.bits.wordAt 128 (s.bitPosition + 4) (8 * size.toNat) with
    | error e =>
      rw [second] at same
      have look' : peekCoins s = .error e s := (action_bind_of_ok look).trans (peek_of_error second)
      have stop : coins s = .error e s := front.trans (action_bind_of_error look')
      have stop' : nat (8 * size.toNat) (s.advance 4 0) = .error e (s.advance 4 0) :=
        action_bind_of_error (peek_of_error same.symm)
      rw [action_bind_of_error stop, stop']
    | ok amount =>
      rw [second] at same
      have look' : peekCoins s = .ok amount s := (action_bind_of_ok look).trans (peek_of_eq second)
      have read' : coins s = .ok amount (s.advance (4 + 8 * size.toNat) 0) :=
        front.trans (action_bind_of_ok look')
      have number : nat (8 * size.toNat) (s.advance 4 0) =
          .ok amount.toNat ((s.advance 4 0).advance (8 * size.toNat) 0) :=
        take_eq_ok.2 ⟨same.symm, rfl⟩
      rw [action_bind_of_ok read', number, Slice.advance_advance]
      rfl

end Load

/-- Coins are natural numbers with a length of four bits, when they are stored and when they are
loaded. A number of variable length is stored in the least number of bytes that hold it, and refused
as too large exactly when this number of bytes does not fit into its length. -/
theorem coins_and_least_lengths :
    (∀ amount : BitVec 128, Store.coins amount = Store.varNat amount.toNat 4) ∧
    (∀ arith, (do return (← Load.coins).toNat : Load Nat) = Load.varNat arith 4) ∧
    (∀ n lengthBits : Nat, lengthBits < 64 → ∃ size, IsLeast {m | n < 2 ^ (8 * m)} size ∧
      Store.StoresSized (Store.varNat n lengthBits) lengthBits size (Binary.toNat · = n)) ∧
    ∀ (i : Int) (lengthBits : Nat), lengthBits < 64 →
      ∃ size, IsLeast {m | Binary.InRange i (8 * m)} size ∧
        Store.StoresSized (Store.varInt i lengthBits) lengthBits size (Binary.toInt · = i) := by
  refine ⟨Store.coins_eq_varNat, Load.coins_eq_varNat, ?_, ?_⟩
  · intro n lengthBits narrow
    exact ⟨_, Store.isLeast_octetsFor n, Store.storesSized_varNat n narrow⟩
  · intro i lengthBits narrow
    exact ⟨_, Store.isLeast_intSize i, Store.storesSized_varInt i narrow⟩

/-- The least number of sixteen bytes is too large for a length of four bits, and so is the least
integer above those of fifteen bytes. -/
theorem coins_and_least_lengths_sixteen :
    4 < 64 ∧
    (∃ width b, Store.varNat (2 ^ 120) 4 Builder.empty = .error (.intOverflow width) b) ∧
    ∃ width b, Store.varInt (2 ^ 119) 4 Builder.empty = .error (.intOverflow width) b := by
  have narrow : 4 < 64 := by decide
  obtain ⟨size, least, stores⟩ := coins_and_least_lengths.2.2.1 (2 ^ 120) 4 narrow
  obtain ⟨size', least', stores'⟩ := coins_and_least_lengths.2.2.2 (2 ^ 119) 4 narrow
  refine ⟨narrow, (stores.overflow_iff _).2 ?_, (stores'.overflow_iff _).2 ?_⟩
  · have more := (Nat.pow_lt_pow_iff_right (by decide : 1 < 2)).1 least.1
    omega
  · have more : (2 : Int) * 2 ^ 119 < 2 ^ (8 * size') := least'.1.2
    rw [← pow_succ', pow_lt_pow_iff_right₀ (by decide)] at more
    omega

end CellBag
