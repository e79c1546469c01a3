import CellBag.Proofs.Bits
import CellBag.Proofs.Builder
import CellBag.Slice.Load
import Mathlib

/-!
# Read slices

What a load succeeds on. `Slice.Between s xs t` says that the bits `xs` stand between two slices of
a cell; a load that gives a value is then the same as the bits that spell this value. What is left
of a slice makes a cell with these bits and references (`Load.remainderOf_eq_ok`).
-/

namespace CellBag

namespace Slice

/-- These bits stand between two slices of a cell. -/
structure Between (s : Slice) (xs : List Bool) (t : Slice) : Prop where
  eq_advance : t = s.advance xs.length 0
  range_eq : s.cell.bits.range s.bitPosition xs.length = xs
  le : s.bitPosition + xs.length ≤ s.cell.bits.length

variable {s t u : Slice}

/-- Moves over bits and references add up. -/
lemma advance_advance (s : Slice) (bits refs bits' refs' : Nat) :
    (s.advance bits refs).advance bits' refs' = s.advance (bits + bits') (refs + refs') := by
  rw [advance, advance, advance, Nat.add_assoc, Nat.add_assoc]

/-- Between a slice and itself there are no bits. -/
lemma between_nil : Between s [] t ↔ s = t ∧ s.bitPosition ≤ s.cell.bits.length := by
  constructor
  · rintro ⟨rfl, _, le⟩
    exact ⟨rfl, le⟩
  · rintro ⟨rfl, le⟩
    exact ⟨rfl, rfl, le⟩

/-- Two parts stand between two slices when there is a slice between the parts. -/
lemma between_append {xs ys : List Bool} :
    Between s (xs ++ ys) u ↔ ∃ t, Between s xs t ∧ Between t ys u := by
  constructor
  · rintro ⟨rfl, range, le⟩
    rw [List.length_append] at range le
    obtain ⟨front, rest⟩ := (Bits.range_add_eq_append rfl).1 range
    refine ⟨s.advance xs.length 0, ⟨rfl, front, by omega⟩, ⟨?_, rest, ?_⟩⟩
    · rw [advance_advance, List.length_append]
    · rwa [advance, Nat.add_assoc]
  · rintro ⟨_, ⟨rfl, front, _⟩, ⟨rfl, rest, le⟩⟩
    refine ⟨?_, ?_, ?_⟩
    · rw [advance_advance, List.length_append]
    · rw [List.length_append]
      exact (Bits.range_add_eq_append rfl).2 ⟨front, rest⟩
    · rw [List.length_append, ← Nat.add_assoc]
      exact le

/-- What stands between two slices ends within the bits. -/
lemma Between.le_end {xs : List Bool} (b : Between s xs t) :
    t.bitPosition ≤ t.cell.bits.length := by
  rw [b.eq_advance]
  exact b.le

/-- What stands between two slices is left of the first one in front of what is left of the other. -/
lemma Between.remaining {xs : List Bool} (b : Between s xs t) :
    s.remainingBits = xs ++ t.remainingBits ∧ s.remainingRefs = t.remainingRefs := by
  obtain ⟨rfl, range, _⟩ := b
  refine ⟨?_, rfl⟩
  rw [Bits.range] at range
  have split := List.take_append_drop xs.length (s.cell.bits.toList.drop s.bitPosition)
  rw [range, List.drop_drop] at split
  exact split.symm

/-- What a cell begins with is read from its front, and what follows is left. -/
lemma exists_between {c : Cell} {xs ys : List Bool} (e : c.bits.toList = xs ++ ys) :
    ∃ t, Between (ofCell c) xs t ∧ t.remainingBits = ys ∧ t.remainingRefs = c.refs := by
  have len : c.bits.length = xs.length + ys.length := by rw [Bits.length, e, List.length_append]
  refine ⟨(ofCell c).advance xs.length 0, ⟨rfl, ?_, ?_⟩, ?_, rfl⟩
  · rw [Bits.range]
    show (c.bits.toList.drop 0).take xs.length = xs
    rw [e, List.drop_zero, List.take_left]
  · show 0 + xs.length ≤ c.bits.length
    omega
  · show c.bits.toList.drop (0 + xs.length) = ys
    rw [e, Nat.zero_add, List.drop_left]

end Slice

namespace Load
variable {s t : Slice}
open Slice

/-- A load that looks at a value first gives the value and moves on over its bits. -/
lemma take_eq_ok {α : Type} {f : Bits → Nat → Except Error α} {width : Nat} {a : α} :
    take f width s = .ok a t ↔ f s.cell.bits s.bitPosition = .ok a ∧ t = s.advance width 0 := by
  simp only [take, Outcome.action_bind_eq_ok, peek]
  cases f s.cell.bits s.bitPosition with
  | error e => exact ⟨by rintro ⟨_, _, ⟨⟩, _⟩, by rintro ⟨⟨⟩, _⟩⟩
  | ok b =>
    constructor
    · rintro ⟨_, _, e, _, _, h, h'⟩
      cases e
      cases h
      obtain ⟨rfl, rfl⟩ := Outcome.action_pure_eq_ok.1 h'
      exact ⟨rfl, rfl⟩
    · rintro ⟨⟨⟩, rfl⟩
      exact ⟨_, s, rfl, (), _, rfl, rfl⟩

/-- A bit is loaded where it stands. -/
lemma bit_eq_ok {b : Bool} : bit s = .ok b t ↔ Between s [b] t := by
  rw [bit, take_eq_ok, Bits.bitAt]
  cases e : s.cell.bits.toList[s.bitPosition]? with
  | none =>
    refine ⟨by rintro ⟨⟨⟩, _⟩, fun h => ?_⟩
    have le := h.le
    rw [List.getElem?_eq_none_iff, ← Bits.length] at e
    rw [List.length_singleton] at le
    omega
  | some c =>
    obtain ⟨lt, here⟩ := List.getElem?_eq_some_iff.1 e
    have range : s.cell.bits.range s.bitPosition 1 = [c] := by
      rw [Bits.range, List.take_one, List.head?_drop, e]
      rfl
    constructor
    · rintro ⟨⟨⟩, rfl⟩
      exact ⟨rfl, range, lt⟩
    · rintro ⟨rfl, same, _⟩
      cases range.symm.trans same
      exact ⟨rfl, rfl⟩

/-- A word of at most 64 bits is read from its numeral. -/
lemma word_eq_ok {width : Nat} {x : BitVec 64} (fits : width ≤ 64)
    (le : s.bitPosition ≤ s.cell.bits.length) :
    word width s = .ok x t ↔ x.toNat < 2 ^ width ∧ Between s (Binary.ofNat width x.toNat) t := by
  rw [word, take_eq_ok, Bits.wordAt_eq_ok_iff fits]
  constructor
  · rintro ⟨⟨room, lt, range⟩, rfl⟩
    refine ⟨lt, ?_, ?_, ?_⟩
    · rw [Binary.length_ofNat]
    · rw [Binary.length_ofNat, range]
    · rw [Binary.length_ofNat]
      omega
  · rintro ⟨lt, rfl, range, room⟩
    rw [Binary.length_ofNat] at range room
    exact ⟨⟨by omega, lt, range⟩, by rw [Binary.length_ofNat]⟩

/-- A bit string is loaded where its bits stand. -/
lemma bitString_eq_ok {count : Nat} {xs : Bits} (le : s.bitPosition ≤ s.cell.bits.length) :
    bitString count s = .ok xs t ↔ xs.length = count ∧ Between s xs.toList t := by
  rw [bitString, take_eq_ok, Bits.substring_eq_ok le]
  constructor
  · rintro ⟨⟨rfl, room, range⟩, rfl⟩
    refine ⟨rfl, rfl, range, ?_⟩
    rw [← Bits.length]
    omega
  · rintro ⟨rfl, rfl, range, room⟩
    rw [← Bits.length] at room
    exact ⟨⟨rfl, by omega, range⟩, rfl⟩

/-- What is left of a slice is written into a cell of its own. -/
lemma remainderOf_eq_ok {c : Cell} :
    remainderOf s = .ok c ↔ c.bits.toList = s.remainingBits ∧ c.refs = s.remainingRefs ∧
      c.isExotic = false ∧ c.WellFormed := by
  have same : remainderOf s = Store.toCell (Store.slice s) := by
    rw [remainderOf, Builder.ofSlice, Store.toCell]
    cases Store.slice s Builder.empty with
    | ok => rfl
    | error => rfl
  rw [same]
  exact Store.toCell_eq_ok fun _ _ => Store.slice_eq_ok

end Load

end CellBag
