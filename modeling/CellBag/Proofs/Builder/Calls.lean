import CellBag.Proofs.Builder.Appends
import Mathlib

/-!
# Calls of a builder

Each call that stores a value puts it behind what the builder has, or fails and leaves the builder
as it was (`Store.Call.appends`). So a builder never outgrows a cell, however it was filled
(`Builder.Reachable.calls_append_or_fail`).
-/

namespace CellBag

namespace Store

/-- The calls that store something, with what they store. -/
inductive Call where
  | bit (value : Bool)
  | bits (source : List UInt8) (count : Nat)
  | bitString (value : Bits)
  | bytes (value : List UInt8)
  | text (value : String)
  | word (value : BitVec 64) (width : Nat)
  | signedWord (value : BitVec 64) (width : Nat)
  | nat (value width : Nat)
  | int (value : Int) (width : Nat)
  | varNat (value lengthBits : Nat)
  | varInt (value : Int) (lengthBits : Nat)
  | coins (amount : BitVec 128)
  | ref (value : Cell)
  | maybeRef (value : Option Cell)
  | cell (value : Cell)
  | slice (value : Slice)
  | address (value : Option Address)
  | externalAddress (value : ExternalAddress)
  | messageAddress (value : MessageAddress)
  | dictionary (value : Option Dictionary)
  | snake (value : List UInt8)
  | snakeText (value : String) (marked : Bool)

namespace Call

/-- The action of a call. -/
def run : Call → Store Unit
  | bit value => Store.bit value
  | bits source count => Store.bits source count
  | bitString value => Store.bitString value
  | bytes value => Store.bytes value
  | text value => Store.text value
  | word value width => Store.word value width
  | signedWord value width => Store.signedWord value width
  | nat value width => Store.nat value width
  | int value width => Store.int value width
  | varNat value lengthBits => Store.varNat value lengthBits
  | varInt value lengthBits => Store.varInt value lengthBits
  | coins amount => Store.coins amount
  | ref value => Store.ref value
  | maybeRef value => Store.maybeRef value
  | cell value => Store.cell value
  | slice value => Store.slice value
  | address value => Store.address value
  | externalAddress value => Store.externalAddress value
  | messageAddress value => Store.messageAddress value
  | dictionary value => Store.dictionary value
  | snake value => Store.snake value
  | snakeText value marked => Store.snakeText value marked

/-- Each call appends its value or changes nothing. -/
theorem appends (call : Call) : Appends call.run := by
  cases call with
  | bit value => exact appends_write (.bit value)
  | bits source count => exact appends_write (.bits source count)
  | bitString value => exact appends_write (.all value)
  | bytes value => exact appends_write (.bytes value)
  | text value => exact appends_write (.text value)
  | word value width => exact appends_write (.word value width)
  | signedWord value width => exact appends_write (.signedWord value width)
  | nat value width => exact appends_write (.nat value width)
  | int value width => exact appends_write (.int value width)
  | varNat value lengthBits => exact appends_varNat value lengthBits
  | varInt value lengthBits => exact appends_varInt value lengthBits
  | coins amount => exact appends_write (.coins amount)
  | ref value => exact appends_ref value
  | maybeRef value => exact appends_maybeRef value
  | cell value => exact appends_cell value
  | slice value => exact appends_slice value
  | address value => exact appends_write (.address value)
  | externalAddress value => exact appends_append value.encoding
  | messageAddress value => exact appends_messageAddress value
  | dictionary value => exact appends_dictionary value
  | snake value => exact appends_snake value
  | snakeText value marked => exact appends_snake _

end Call

end Store

namespace Builder

/-- The builders that calls make of an empty one, whether they succeed or fail. -/
inductive Reachable : Builder → Prop where
  | empty : Reachable empty
  | exotic {b b' : Builder} {value : Bool} {u : Unit} :
    Reachable b →
    Store.exotic value b = .ok u b' →
    Reachable b'
  | ok {call : Store.Call} {b b' : Builder} {u : Unit} :
    Reachable b →
    call.run b = .ok u b' →
    Reachable b'
  | error {call : Store.Call} {e : Error} {b b' : Builder} :
    Reachable b →
    call.run b = .error e b' →
    Reachable b'

namespace Reachable
variable {b : Builder}

/-- A builder that calls have filled has no more references than a cell does. -/
lemma refs_le (h : Reachable b) : b.refs.length ≤ Cell.maxRefs := by
  induction h with
  | empty => exact Nat.zero_le _
  | exotic _ run ih =>
    cases run
    exact ih
  | @ok call b _ _ _ run ih =>
    have ext := call.appends b
    rw [run] at ext
    exact Extends.refs_le ext ih
  | @error call _ b _ _ run ih =>
    have same := call.appends b
    rw [run] at same
    cases same
    exact ih

/-- A builder that calls have filled holds no more than a cell does. A further call that succeeds
keeps the bits and references in front of what it stores, within the same bounds, and one that fails
changes nothing. -/
theorem calls_append_or_fail (h : Reachable b) (call : Store.Call) :
    b.bits.length ≤ Bits.capacity ∧ b.refs.length ≤ Cell.maxRefs ∧
    (∀ u b', call.run b = .ok u b' →
      b.bits.toList <+: b'.bits.toList ∧ b.refs <+: b'.refs ∧
      b'.bits.length ≤ Bits.capacity ∧ b'.refs.length ≤ Cell.maxRefs) ∧
    ∀ e b', call.run b = .error e b' → b' = b := by
  refine ⟨b.bits.length_le, h.refs_le, ?_, ?_⟩
  · intro u b' run
    have ext := call.appends b
    rw [run] at ext
    exact ⟨ext.bits_prefix, ext.refs_prefix, b'.bits.length_le, (h.ok run).refs_le⟩
  · intro e b' run
    have same := call.appends b
    rw [run] at same
    exact same

/-- Behind four references there is no room for another one, and the bit in front of it is not
written either. -/
theorem calls_append_or_fail_full :
    ∃ b : Builder, Reachable b ∧ b.bits.toList = [true] ∧ b.refs.length = Cell.maxRefs ∧
      ∃ e b', (Store.Call.maybeRef (some .empty)).run b = .error e b' ∧ b' = b := by
  have flagged : Reachable ⟨⟨[true], by decide⟩, [], false⟩ :=
    @ok (.bit true) _ _ () .empty rfl
  have add {bits : Bits} {refs : List Cell} (h : Reachable ⟨bits, refs, false⟩)
      (room : refs.length < Cell.maxRefs) : Reachable ⟨bits, refs ++ [.empty], false⟩ := by
    have run : (Store.Call.ref .empty).run ⟨bits, refs, false⟩ =
        .ok () ⟨bits, refs ++ [.empty], false⟩ :=
      Store.ref_eq_ok.2 ⟨Nat.sub_pos_of_lt room, (List.append_nil _).symm, rfl, rfl⟩
    exact h.ok run
  have full := add (add (add (add flagged (by decide)) (by decide)) (by decide)) (by decide)
  exact ⟨_, full, rfl, rfl, _, _, rfl,
    (full.calls_append_or_fail (.maybeRef (some .empty))).2.2.2 _ _ rfl⟩

end Reachable

end Builder

end CellBag
