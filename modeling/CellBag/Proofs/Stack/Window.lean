import CellBag.Proofs.Builder.Room
import CellBag.Proofs.Stream.Spelling
import CellBag.Stack.Value
import Mathlib

/-!
# Windows

A window is a part of a cell, stored as the cell and the bounds of the bits and references in it. It
is refused if its bounds are not in order or beyond the cell. Otherwise the slice that is read from it
shows these bits and references, also where it is a copy (`Load.window_shows`).
-/

namespace CellBag

/-- The bounds of some bits and references of a cell, as they are stored. -/
structure Window where
  firstBit : BitVec 10
  endBit : BitVec 10
  firstRef : BitVec 3
  endRef : BitVec 3

namespace Window

/-- The bits that spell the bounds. -/
def bits (w : Window) : List Bool :=
  Binary.ofWord w.firstBit ++ Binary.ofWord w.endBit ++ Binary.ofWord w.firstRef ++
    Binary.ofWord w.endRef

/-- The bounds are in order, and not beyond the cell. -/
structure Within (w : Window) (c : Cell) : Prop where
  firstBit_le : w.firstBit.toNat ≤ w.endBit.toNat
  endBit_le : w.endBit.toNat ≤ c.bits.length
  firstRef_le : w.firstRef.toNat ≤ w.endRef.toNat
  endRef_le : w.endRef.toNat ≤ c.refs.length

/-- The window reaches to the end of the cell. -/
def ToEnd (w : Window) (c : Cell) : Prop :=
  w.endBit.toNat = c.bits.length ∧ w.endRef.toNat = c.refs.length

instance (w : Window) (c : Cell) : Decidable (w.ToEnd c) :=
  inferInstanceAs (Decidable (_ ∧ _))

/-- The bits of a cell from the first one of the window to its end. -/
def bitsOf (w : Window) (c : Cell) : List Bool :=
  c.bits.range w.firstBit.toNat (w.endBit.toNat - w.firstBit.toNat)

/-- The references of a cell from the first one of the window to its end. -/
def refsOf (w : Window) (c : Cell) : List Cell :=
  (c.refs.drop w.firstRef.toNat).take (w.endRef.toNat - w.firstRef.toNat)

/-- The slice that is read from a window: a cursor on the cell, or a copy. -/
def slice (w : Window) (c : Cell) : Except Error Slice :=
  if w.endBit.toNat < w.firstBit.toNat ∨ c.bits.length < w.endBit.toNat then
    .error (.underrun .bits w.endBit.toNat c.bits.length)
  else if w.endRef.toNat < w.firstRef.toNat ∨ c.refs.length < w.endRef.toNat then
    .error (.underrun .refs w.endRef.toNat c.refs.length)
  else if w.ToEnd c then .ok ⟨c, w.firstBit.toNat, w.firstRef.toNat⟩
  else do
    let xs ← c.bits.substring w.firstBit.toNat (w.endBit.toNat - w.firstBit.toNat)
    let copy ← Store.toCell do
      Store.bitString xs
      Store.appendRefs (w.refsOf c)
    return Slice.ofCell copy

/-- What is left of a slice is what the window has of the cell. -/
structure Shows (w : Window) (c : Cell) (r : Slice) : Prop where
  remainingBits_eq : r.remainingBits = w.bitsOf c
  remainingRefs_eq : r.remainingRefs = w.refsOf c

variable {w : Window} {c : Cell}

/-- A window has no more references than a cell. -/
lemma length_refsOf_le (few : c.refs.length ≤ Cell.maxRefs) :
    (w.refsOf c).length ≤ Cell.maxRefs := by
  rw [refsOf, List.length_take, List.length_drop]
  omega

/-- A cursor that has passed what is in front of the window shows it, if it reaches to the end. -/
lemma ToEnd.shows (h : w.ToEnd c) : w.Shows c ⟨c, w.firstBit.toNat, w.firstRef.toNat⟩ := by
  obtain ⟨bits, refs⟩ := h
  refine ⟨?_, ?_⟩
  · rw [bitsOf, bits, Bits.range, Bits.length, ← List.length_drop, List.take_length]
    rfl
  · rw [refsOf, refs, ← List.length_drop, List.take_length]
    rfl

/-- A copy of what is in the window shows it. -/
lemma shows_ofCell {copy : Cell} (bits : copy.bits.toList = w.bitsOf c)
    (refs : copy.refs = w.refsOf c) : w.Shows c (Slice.ofCell copy) :=
  ⟨bits, refs⟩

/-- The bits of a window within a cell are there. -/
lemma Within.exists_substring (h : w.Within c) :
    ∃ xs, c.bits.substring w.firstBit.toNat (w.endBit.toNat - w.firstBit.toNat) = .ok xs ∧
      xs.toList = w.bitsOf c := by
  have room : w.endBit.toNat - w.firstBit.toNat ≤ c.bits.length - w.firstBit.toNat :=
    Nat.sub_le_sub_right h.endBit_le _
  exact Bits.exists_substring (h.firstBit_le.trans h.endBit_le) room

end Window

namespace Store
open Builder

/-- Bits and references that are put into an empty builder make an ordinary cell of them. -/
lemma toCell_copy (xs : Bits) (cs : List Cell) :
    toCell (do bitString xs; appendRefs cs) = Cell.finalize xs cs false := by
  have run : bitString xs Builder.empty = .ok () ⟨xs, [], false⟩ := append_eq_ok.2 ⟨rfl, rfl, rfl⟩
  rw [toCell, Outcome.action_bind_of_ok run]
  rfl

end Store

namespace Window
variable {w : Window} {c : Cell}

/-- A window that is not within its cell lacks bits or references. -/
lemma slice_of_not_within (h : ¬ w.Within c) :
    ∃ what requested available, w.slice c = .error (.underrun what requested available) := by
  rw [slice]
  split
  case isTrue => exact ⟨_, _, _, rfl⟩
  case isFalse bits =>
    split
    case isTrue => exact ⟨_, _, _, rfl⟩
    case isFalse refs =>
      rw [not_or, Nat.not_lt, Nat.not_lt] at bits refs
      exact absurd ⟨bits.1, bits.2, refs.1, refs.2⟩ h

/-- Within the cell the slice is a cursor if the window reaches to the end, and a copy otherwise. -/
lemma Within.slice_eq (h : w.Within c) :
    w.slice c = if w.ToEnd c then .ok ⟨c, w.firstBit.toNat, w.firstRef.toNat⟩
      else do
        let xs ← c.bits.substring w.firstBit.toNat (w.endBit.toNat - w.firstBit.toNat)
        let copy ← Cell.finalize xs (w.refsOf c) false
        return Slice.ofCell copy := by
  obtain ⟨bits, bits', refs, refs'⟩ := h
  have first : ¬ (w.endBit.toNat < w.firstBit.toNat ∨ c.bits.length < w.endBit.toNat) := by omega
  have second : ¬ (w.endRef.toNat < w.firstRef.toNat ∨ c.refs.length < w.endRef.toNat) := by omega
  rw [slice, if_neg first, if_neg second]
  simp only [Store.toCell_copy]

/-- Within the cell the slice shows the window, if it reaches to the end or the depths of the copy
fit. -/
lemma Within.exists_slice (h : w.Within c) (few : c.refs.length ≤ Cell.maxRefs)
    (fits : w.ToEnd c ∨ Cell.DepthsFit .ordinary (w.refsOf c)) :
    ∃ r, w.slice c = .ok r ∧ w.Shows c r := by
  rw [h.slice_eq]
  split
  case isTrue toEnd => exact ⟨_, rfl, toEnd.shows⟩
  case isFalse inner =>
    obtain ⟨xs, part, bits⟩ := h.exists_substring
    have depths := fits.resolve_left inner
    obtain ⟨copy, made, _⟩ := (Cell.finalize_of_kind xs false (length_refsOf_le few) rfl).1 depths
    obtain ⟨bits', refs', _⟩ := Cell.finalize_eq_ok.1 made
    rw [part, Outcome.ok_bind, made]
    exact ⟨_, rfl, shows_ofCell (bits' ▸ bits) refs'⟩

/-- Within the cell nothing but the depth of the copy is refused. -/
lemma Within.slice_eq_error (h : w.Within c) (few : c.refs.length ≤ Cell.maxRefs)
    (high : ¬ (w.ToEnd c ∨ Cell.DepthsFit .ordinary (w.refsOf c))) :
    w.slice c = .error .depthOverflow := by
  obtain ⟨inner, deep⟩ := not_or.1 high
  obtain ⟨xs, part, _⟩ := h.exists_substring
  rw [h.slice_eq, if_neg inner, part, Outcome.ok_bind,
    (Cell.finalize_of_kind xs false (length_refsOf_le few) rfl).2 deep]
  rfl

end Window

namespace Load
open Outcome Slice
variable {w : Window} {c : Cell} {s t : Slice}

/-- A word is loaded as the number that it spells. -/
lemma word_of_ofWord {width : Nat} (fits : width ≤ 64) {x : BitVec width}
    (h : Between s (Binary.ofWord x) t) : ∃ y, word width s = .ok y t ∧ y.toNat = x.toNat := by
  have run := word_of_between ((Binary.length_ofWord x).trans_le fits) h
  rw [Binary.length_ofWord] at run
  refine ⟨_, run, ?_⟩
  have lt : x.toNat < 2 ^ 64 := x.isLt.trans_le (Nat.pow_le_pow_right (by decide) fits)
  rw [Binary.ofWord, Binary.toNat_ofNat, Nat.mod_eq_of_lt x.isLt, BitVec.toNat_ofNat,
    Nat.mod_eq_of_lt lt]

/-- A window is loaded as the slice that its cell and bounds stand for. -/
lemma window_eq (encoded : Spans s w.bits [c] t) :
    window s = (ofExcept (w.slice c) : Load Slice) t := by
  have parts : Spans s ([] ++ w.bits) ([c] ++ []) t := encoded
  obtain ⟨s₁, first, rest⟩ := spans_append.1 parts
  obtain ⟨s₄, rest, fifth⟩ := between_append.1 rest.toBetween
  obtain ⟨s₃, rest, fourth⟩ := between_append.1 rest
  obtain ⟨s₂, second, third⟩ := between_append.1 rest
  obtain ⟨firstBit, run₂, firstBit_eq⟩ := word_of_ofWord (by decide) second
  obtain ⟨endBit, run₃, endBit_eq⟩ := word_of_ofWord (by decide) third
  obtain ⟨firstRef, run₄, firstRef_eq⟩ := word_of_ofWord (by decide) fourth
  obtain ⟨endRef, run₅, endRef_eq⟩ := word_of_ofWord (by decide) fifth
  rw [window, action_bind_of_ok (ref_of_spans first), action_bind_of_ok run₂,
    action_bind_of_ok run₃, action_bind_of_ok run₄, action_bind_of_ok run₅, firstBit_eq, endBit_eq,
    firstRef_eq, endRef_eq, Window.slice]
  -- the bounds are known, and both sides ask the same questions about them
  by_cases bits : w.endBit.toNat < w.firstBit.toNat ∨ c.bits.length < w.endBit.toNat
  · rw [if_pos bits, if_pos bits]
    rfl
  rw [if_neg bits, if_neg bits]
  dsimp only
  by_cases refs : w.endRef.toNat < w.firstRef.toNat ∨ c.refs.length < w.endRef.toNat
  · rw [if_pos refs, if_pos refs]
    rfl
  rw [if_neg refs, if_neg refs]
  by_cases all : w.endBit.toNat = c.bits.length ∧ w.endRef.toNat = c.refs.length
  · have toEnd : w.ToEnd c := all
    rw [if_pos all, if_pos toEnd]
    rfl
  have inner : ¬ w.ToEnd c := all
  rw [if_neg all, if_neg inner]
  simp only [ofExcept_bind]
  rfl

/-- A window whose bounds are not in order or beyond the cell is refused. Any other one is loaded as a
slice that shows the bits and references in it, unless it ends before the cell and its references are
too deep for a copy. -/
theorem window_shows (few : c.refs.length ≤ Cell.maxRefs) (encoded : Spans s w.bits [c] t) :
    (¬ w.Within c → ∃ what requested available,
      window s = .error (.underrun what requested available) t) ∧
    (w.Within c →
      (w.ToEnd c ∨ Cell.DepthsFit .ordinary (w.refsOf c) →
        ∃ r, window s = .ok r t ∧ r.remainingBits = w.bitsOf c ∧ r.remainingRefs = w.refsOf c) ∧
      (¬ (w.ToEnd c ∨ Cell.DepthsFit .ordinary (w.refsOf c)) →
        window s = .error .depthOverflow t)) := by
  rw [window_eq encoded]
  refine ⟨fun outside => ?_, fun within => ⟨fun fits => ?_, fun high => ?_⟩⟩
  · obtain ⟨what, requested, available, stop⟩ := Window.slice_of_not_within outside
    rw [stop]
    exact ⟨what, requested, available, rfl⟩
  · obtain ⟨r, read, shown⟩ := within.exists_slice few fits
    rw [read]
    exact ⟨r, rfl, shown.remainingBits_eq, shown.remainingRefs_eq⟩
  · rw [within.slice_eq_error few high]
    rfl

/-- Four bits in the middle of an octet and the second one of two references are copied. -/
theorem window_shows_part :
    ∃ c holder r, c.bits.toList = Binary.ofNat 8 0xF0 ∧ c.refs.length ≤ Cell.maxRefs ∧
      Spans (ofCell holder) (Window.mk 2 6 1 2).bits [c] (ofCell holder).atEnd ∧
      window (ofCell holder) = .ok r (ofCell holder).atEnd ∧
      r.remainingBits = [true, true, false, false] ∧ r.remainingRefs = [.empty] := by
  let w : Window := ⟨2, 6, 1, 2⟩
  have writes (c : Cell) : Store.Writes (do Store.ref c; Store.write (·.append w.bits)) w.bits [c] :=
    (Store.writes_ref c).bind (Store.writes_append w.bits)
  have run : (do
      let octet : Bits := ⟨Binary.ofNat 8 0xF0, by decide⟩
      let c ← Cell.finalize octet [.empty, .empty] false
      let _ ← Store.toCell (do Store.ref c; Store.write (·.append w.bits))
      return ()) = (.ok () : Except Error Unit) := by decide +kernel
  simp only [Outcome.bind_eq_ok, Outcome.pure_eq_ok] at run
  obtain ⟨c, made, holder, stored, _⟩ := run
  obtain ⟨bits, refs, _⟩ := Cell.finalize_eq_ok.1 made
  have few : c.refs.length ≤ Cell.maxRefs := by
    rw [refs]
    decide
  have encoded := spans_atEnd holder
  obtain ⟨bits', refs', _⟩ := (writes c).toCell_eq_ok.1 stored
  rw [bits', refs'] at encoded
  have within : w.Within c := by
    refine ⟨by decide, ?_, by decide, ?_⟩
    · rw [bits]
      decide
    · rw [refs]
      decide
  have shown : w.bitsOf c = [true, true, false, false] ∧ w.refsOf c = [.empty] := by
    rw [Window.bitsOf, Window.refsOf, bits, refs]
    exact ⟨rfl, rfl⟩
  have fits : Cell.DepthsFit .ordinary (w.refsOf c) := by
    rw [shown.2]
    show ∀ l ∈ Cell.ownLevels .ordinary _, Cell.heightOver _ _ ≤ _
    decide +kernel
  obtain ⟨r, read, first, second⟩ := ((window_shows few encoded).2 within).1 (Or.inr fits)
  exact ⟨c, holder, r, congrArg Bits.toList bits, few, encoded, read, first.trans shown.1,
    second.trans shown.2⟩

end Load

end CellBag
