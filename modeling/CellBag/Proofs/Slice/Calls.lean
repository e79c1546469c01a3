import CellBag.Proofs.Slice.Reads
import Mathlib

/-!
# Calls of a slice

Each call that reads a slice moves its read positions on within the cell, or fails and leaves them
where they were (`Load.Call.reads`). So they never leave the cell, in whatever order a slice is read
and begun again, and what looks at a value gives the same as what loads it, in place
(`Slice.Reachable.calls_move_or_fail`).
-/

namespace CellBag

namespace Load
open Outcome Slice
variable {s : Slice}

/-- The calls that read a slice, with what they are told. -/
inductive Call where
  | rewind
  | skipBits (count : Nat)
  | skipRefs (count : Nat)
  | bit
  | bits (count : Nat)
  | bytes (arith : Arithmetic) (size : Nat)
  | bitString (count : Nat)
  | word (width : Nat)
  | signedWord (width : Nat)
  | nat (width : Nat)
  | int (width : Nat)
  | varNat (arith : Arithmetic) (lengthBits : Nat)
  | varInt (arith : Arithmetic) (lengthBits : Nat)
  | coins
  | text (arith : Arithmetic) (size : Nat)
  | ref
  | maybeRef
  | address
  | messageAddress
  | dictionary (keyWidth limit : Nat)
  | remainder

namespace Call

/-- What a call gives. -/
def Result : Call → Type
  | rewind | skipBits _ | skipRefs _ => Unit
  | bit => Bool
  | bits _ | bytes _ _ => List UInt8
  | bitString _ => Bits
  | word _ | signedWord _ => BitVec 64
  | nat _ | varNat _ _ => Nat
  | int _ | varInt _ _ => Int
  | coins => BitVec 128
  | text _ _ => String
  | ref | remainder => Cell
  | maybeRef => Option Cell
  | address => Option Address
  | messageAddress => MessageAddress
  | dictionary _ _ => Dictionary

/-- The action of a call. -/
def run : (call : Call) → Load call.Result
  | rewind => Load.rewind
  | skipBits count => Load.skipBits count
  | skipRefs count => Load.skipRefs count
  | bit => Load.bit
  | bits count => Load.bits count
  | bytes arith size => Load.bytes arith size
  | bitString count => Load.bitString count
  | word width => Load.word width
  | signedWord width => Load.signedWord width
  | nat width => Load.nat width
  | int width => Load.int width
  | varNat arith lengthBits => Load.varNat arith lengthBits
  | varInt arith lengthBits => Load.varInt arith lengthBits
  | coins => Load.coins
  | text arith size => Load.text arith size
  | ref => Load.ref
  | maybeRef => Load.maybeRef
  | address => Load.address
  | messageAddress => Load.messageAddress
  | dictionary keyWidth limit => Load.dictionary keyWidth limit
  | remainder => Load.remainder

/-- The action that looks at what a call loads, if there is one. -/
def look? : (call : Call) → Option (Load call.Result)
  | bit => some peekBit
  | bits count => some (peekBits count)
  | bytes arith size => some (peekBytes arith size)
  | word width => some (peekWord width)
  | signedWord width => some (peekSignedWord width)
  | nat width => some (peekNat width)
  | int width => some (peekInt width)
  | coins => some peekCoins
  | ref => some peekNextRef
  | _ => none

/-- Each call that does not begin again moves on or changes nothing. -/
theorem reads {call : Call} (onward : call ≠ rewind) : Reads call.run := by
  cases call with
  | rewind => exact absurd rfl onward
  | skipBits count => exact reads_skipBits count
  | skipRefs count => exact reads_skipRefs count
  | bit => exact reads_bit
  | bits count => exact reads_bits count
  | bytes arith size => exact reads_bytes arith size
  | bitString count => exact reads_bitString count
  | word width => exact reads_word width
  | signedWord width => exact reads_signedWord width
  | nat width => exact reads_nat width
  | int width => exact reads_int width
  | varNat arith lengthBits => exact reads_varNat arith lengthBits
  | varInt arith lengthBits => exact reads_varInt arith lengthBits
  | coins => exact reads_coins
  | text arith size => exact reads_text arith size
  | ref => exact reads_ref
  | maybeRef => exact reads_maybeRef
  | address => exact reads_address
  | messageAddress => exact reads_messageAddress
  | dictionary keyWidth limit => exact reads_dictionary keyWidth limit
  | remainder => exact reads_remainder

/-- What looks at a value gives what the call would load. -/
theorem look_eq_inPlace {call : Call} {look : Load call.Result} (found : call.look? = some look) :
    look s = inPlace call.run s := by
  cases call with
  | bit | bits | word | signedWord | nat | int =>
    cases found
    exact (inPlace_take _ _).symm
  | bytes arith size =>
    cases found
    exact (inPlace_bytes arith size).symm
  | coins =>
    cases found
    exact inPlace_coins.symm
  | ref =>
    cases found
    exact inPlace_ref.symm
  | rewind | skipBits | skipRefs | bitString | varNat | varInt | text | maybeRef | address
  | messageAddress | dictionary | remainder => cases found

end Call

end Load

namespace Slice
variable {c : Cell} {s : Slice}

/-- The slices that calls make of a cell, whether they succeed or fail. -/
inductive Reachable (c : Cell) : Slice → Prop where
  | ofCell : Reachable c (ofCell c)
  | ok {call : Load.Call} {a : call.Result} {s t : Slice} :
    Reachable c s →
    call.run s = .ok a t →
    Reachable c t
  | error {call : Load.Call} {e : Error} {s t : Slice} :
    Reachable c s →
    call.run s = .error e t →
    Reachable c t

namespace Reachable

/-- A slice that calls have read is still one of the same cell, and within it. -/
lemma cell_eq_and_within (h : Reachable c s) : s.cell = c ∧ s.Within := by
  induction h with
  | ofCell => exact ⟨rfl, within_ofCell c⟩
  | @ok call a s t _ run ih =>
    obtain ⟨rfl, within⟩ := ih
    rcases eq_or_ne call .rewind with rfl | onward
    · cases run
      exact ⟨rfl, within_ofCell s.cell⟩
    · have moves := (Load.Call.reads onward).advances s a t within run
      exact ⟨moves.cell_eq, moves.within⟩
  | @error call e s t _ run ih =>
    rcases eq_or_ne call .rewind with rfl | onward
    · cases run
    · have same := Load.Call.reads onward s ih.2
      rw [run] at same
      cases same
      exact ih

/-- The read positions of a slice that calls have read stand within its cell. A further call that
succeeds leaves them there, and does not move them back unless it begins again. One that fails
changes nothing. What looks at a value or at a reference gives what would be loaded and changes
nothing either. -/
theorem calls_move_or_fail (h : Reachable c s) :
    s.cell = c ∧ s.bitPosition ≤ c.bits.length ∧ s.refPosition ≤ c.refs.length ∧
    (∀ (call : Load.Call) a t, call.run s = .ok a t →
      t.cell = c ∧ t.bitPosition ≤ c.bits.length ∧ t.refPosition ≤ c.refs.length ∧
      (call ≠ .rewind → s.bitPosition ≤ t.bitPosition ∧ s.refPosition ≤ t.refPosition)) ∧
    (∀ (call : Load.Call) e t, call.run s = .error e t → t = s) ∧
    (∀ (call : Load.Call) look, call.look? = some look → look s = Load.inPlace call.run s) ∧
    ∀ arith, Load.peekRef arith 0 s = Load.inPlace Load.ref s ∧
      ∀ index, Outcome.Atomic s (fun _ t => t = s) (Load.peekRef arith index s) ∧
        ∀ d t, Load.peekRef arith index s = .ok d t ↔
          t = s ∧ ∃ u, (do Load.skipRefs index; Load.ref) s = .ok d u := by
  obtain ⟨rfl, within⟩ := h.cell_eq_and_within
  refine ⟨rfl, within.bits_le, within.refs_le, ?_, ?_, ?_, ?_⟩
  · intro call a t run
    obtain ⟨same, within'⟩ := (h.ok run).cell_eq_and_within
    refine ⟨same, same ▸ within'.bits_le, same ▸ within'.refs_le, fun onward => ?_⟩
    have moves := (Load.Call.reads onward).advances s a t within run
    exact ⟨moves.bits_le, moves.refs_le⟩
  · intro call e t run
    rcases eq_or_ne call .rewind with rfl | onward
    · cases run
    · have same := Load.Call.reads onward s within
      rw [run] at same
      exact same
  · intro call look found
    exact Load.Call.look_eq_inPlace found
  · intro arith
    refine ⟨(Load.peekRef_zero arith).trans Load.inPlace_ref.symm, fun index => ⟨?_, fun d t => ?_⟩⟩
    · exact (Load.atomic_peekRef arith index).imp fun _ _ still => still.1
    · exact Load.peekRef_eq_ok_iff_skip

/-- Behind a bit that promises a reference there is none: the bit is not read. -/
theorem calls_move_or_fail_promised :
    ∃ c s, Cell.leaf [0xC0] 2 = .ok c ∧ Reachable c s ∧ s.bitPosition = 1 ∧
      (∃ t, Load.Call.run .bit s = .ok true t ∧ t.bitPosition = 2) ∧
      ∃ e t, Load.Call.run .maybeRef s = .error e t ∧ t = s := by
  obtain ⟨c, made, read, again, refused⟩ : ∃ c, Cell.leaf [0xC0] 2 = .ok c ∧
      Load.Call.run .bit (Slice.ofCell c) = .ok true ⟨c, 1, 0⟩ ∧
      Load.Call.run .bit ⟨c, 1, 0⟩ = .ok true ⟨c, 2, 0⟩ ∧
      Load.Call.run .maybeRef ⟨c, 1, 0⟩ = .error (.underrun .refs 1 0) ⟨c, 1, 0⟩ :=
    ⟨_, rfl, rfl, rfl, rfl⟩
  have reachable : Reachable c ⟨c, 1, 0⟩ := .ok .ofCell read
  exact ⟨c, _, made, reachable, rfl, ⟨_, again, rfl⟩, _, _, refused,
    reachable.calls_move_or_fail.2.2.2.2.1 .maybeRef _ _ refused⟩

end Reachable

end Slice

end CellBag
