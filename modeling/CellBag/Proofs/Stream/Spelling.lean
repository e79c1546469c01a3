import CellBag.Proofs.Slice.Reads
import CellBag.Proofs.Stream.Codec
import CellBag.StateInit
import Mathlib

/-!
# Spelled values

Where a load succeeds is where its value is spelled: a load decodes a spelling when it gives a value
exactly where the bits and references of the value stand (`Load.Decodes`). This holds of words and
references, and of optional values behind a bit that says whether they are there
(`Load.Decodes.optional`).
-/

namespace CellBag

namespace Slice
variable {s t u : Slice} {xs ys : List Bool} {cs ds : List Cell}

/-- Without references only the bits count. -/
lemma spans_nil : Spans s xs [] t ↔ Between s xs t := by
  constructor
  · exact Spans.toBetween
  · intro h
    obtain ⟨rfl, range, le⟩ := h
    exact ⟨rfl, ⟨rfl, range, le⟩, rfl⟩

/-- Two parts stand between two slices when there is a slice between the parts. -/
lemma spans_append :
    Spans s (xs ++ ys) (cs ++ ds) u ↔ ∃ t, Spans s xs cs t ∧ Spans t ys ds u := by
  constructor
  · exact Spans.exists_middle
  · intro h
    obtain ⟨_, ⟨rfl, ⟨_, front, le⟩, refs⟩, ⟨rfl, ⟨_, rest, le'⟩, refs'⟩⟩ := h
    refine ⟨?_, ⟨rfl, ?_, ?_⟩, ?_⟩
    · rw [advance_advance, List.length_append, List.length_append]
    · rw [List.length_append]
      exact (Bits.range_add_eq_append rfl).2 ⟨front, rest⟩
    · rw [List.length_append, ← Nat.add_assoc]
      exact le'
    · rw [refs, refs', List.append_assoc]

/-- What stands between two slices ends within the bits. -/
lemma Spans.le_end (h : Spans s xs cs t) : t.bitPosition ≤ t.cell.bits.length := by
  rw [h.eq_advance]
  exact h.between.le

/-- What is read from a cell up to its end is all that it has. -/
lemma Spans.eq_of_isEmpty {c : Cell} (h : Spans (ofCell c) xs cs t) (empty : t.isEmpty = true) :
    c.bits.toList = xs ∧ c.refs = cs := by
  obtain ⟨bits, refs⟩ := remaining_of_isEmpty empty
  have behind : t.remainingBits = ((ofCell c).advance xs.length 0).remainingBits := by
    rw [h.eq_advance]
    rfl
  refine ⟨?_, ?_⟩
  · have all := h.between.remaining.1
    rwa [← behind, bits, List.append_nil] at all
  · have all := h.refs_eq
    rwa [refs, List.append_nil] at all

end Slice

/-- What an optional root stands for: the dictionary that is read from it, or the empty one. -/
def Dictionary.ofRoot? (width limit : Nat) : Option Cell → Except Error Dictionary
  | some root => ofRoot root width limit
  | none => .ok (.empty width)

namespace Load
open Slice Outcome
variable {α : Type} {action : Load α} {valid : α → Prop} {bits : α → List Bool}
  {refs : α → List Cell} {s t : Slice}

/-- A load gives a value exactly where the bits and references stand that spell the value. Only valid
values are spelled. -/
def Decodes (action : Load α) (valid : α → Prop) (bits : α → List Bool) (refs : α → List Cell) :
    Prop :=
  ∀ s a t, s.bitPosition ≤ s.cell.bits.length →
    (action s = .ok a t ↔ valid a ∧ Spans s (bits a) (refs a) t)

/-- What succeeds does so atomically. -/
lemma atomically_eq_ok {a : α} : atomically action s = .ok a t ↔ action s = .ok a t := by
  rw [atomically]
  cases action s with
  | ok => rfl
  | error =>
    apply iff_of_false
    · intro h
      cases h
    · intro h
      cases h

/-- A word is spelled by its numeral. -/
lemma decodes_word {width : Nat} (fits : width ≤ 64) :
    Decodes (word width) (fun x => x.toNat < 2 ^ width) (fun x => Binary.ofNat width x.toNat)
      (fun _ => []) := by
  intro s x t le
  rw [word_eq_ok fits le, spans_nil]

/-- A reference is spelled by itself. -/
lemma decodes_ref : Decodes ref (fun _ => True) (fun _ => []) (fun c => [c]) := by
  intro s c t le
  rw [true_and]
  constructor
  · intro run
    obtain ⟨_, _, here, rest⟩ := action_bind_eq_ok.1 run
    obtain ⟨first, still⟩ := peekNextRef_eq_ok.1 here
    rw [still] at rest
    cases rest
    refine ⟨rfl, between_nil.2 ⟨rfl, le⟩, ?_⟩
    have behind : (s.advance 0 1).remainingRefs = s.remainingRefs.drop 1 := (List.drop_drop ..).symm
    rw [behind]
    cases left : s.remainingRefs with
    | nil =>
      rw [left] at first
      cases first
    | cons d rest =>
      rw [left] at first
      cases first
      rfl
  · exact ref_of_spans

/-- An optional value is spelled behind a bit that says whether it is there. -/
lemma Decodes.optional (h : Decodes action valid bits refs) :
    Decodes (Load.optional action) (fun v => ∀ a ∈ v, valid a)
      (fun v => [v.isSome] ++ (v.map bits).getD []) (fun v => (v.map refs).getD []) := by
  intro s v t le
  rw [Load.optional, action_bind_eq_ok]
  constructor
  · intro run
    obtain ⟨present, middle, first, rest⟩ := run
    have front := spans_nil.2 (bit_eq_ok.1 first)
    cases present with
    | true =>
      obtain ⟨a, _, run, last⟩ := action_bind_eq_ok.1 rest
      cases last
      obtain ⟨ok, behind⟩ := (h middle a t front.le_end).1 run
      refine ⟨?_, spans_append.2 ⟨middle, front, behind⟩⟩
      intro a' mem
      cases mem
      exact ok
    | false =>
      cases rest
      exact ⟨fun _ mem => (Option.not_mem_none _ mem).elim, front⟩
  · intro spelled
    obtain ⟨ok, spans⟩ := spelled
    have parts : Spans s ([v.isSome] ++ (v.map bits).getD []) ([] ++ (v.map refs).getD []) t := spans
    obtain ⟨middle, front, behind⟩ := spans_append.1 parts
    refine ⟨v.isSome, middle, bit_eq_ok.2 front.toBetween, ?_⟩
    cases v with
    | some a => exact action_bind_eq_ok.2 ⟨a, t, (h middle a t front.le_end).2 ⟨ok a rfl, behind⟩, rfl⟩
    | none =>
      obtain ⟨rfl, _⟩ := between_nil.1 behind.toBetween
      rfl

/-- An optional value whose spelling has no references has none either. -/
lemma Decodes.optional_bits (h : Decodes action valid bits fun _ => []) :
    Decodes (Load.optional action) (fun v => ∀ a ∈ v, valid a)
      (fun v => [v.isSome] ++ (v.map bits).getD []) (fun _ => []) := by
  intro s v t le
  rw [h.optional s v t le]
  cases v with
  | none => rfl
  | some a => rfl

/-- An optional reference is spelled by the bit alone, and by the reference if it is there. -/
lemma decodes_maybeRef : Decodes maybeRef (fun _ => True) (fun v => [v.isSome]) Option.toList := by
  intro s v t le
  have same : maybeRef s = .ok v t ↔ Load.optional ref s = .ok v t := atomically_eq_ok
  rw [same, decodes_ref.optional s v t le]
  apply and_congr (iff_of_true (fun _ _ => trivial) trivial)
  cases v with
  | none => rfl
  | some c => rfl

/-- A dictionary is spelled by an optional root that stands for it. -/
lemma dictionary_eq_ok {width limit : Nat} {d : Dictionary}
    (le : s.bitPosition ≤ s.cell.bits.length) :
    dictionary width limit s = .ok d t ↔ ∃ root, Dictionary.ofRoot? width limit root = .ok d ∧
      Spans s [root.isSome] root.toList t := by
  rw [dictionary, atomically_eq_ok, action_bind_eq_ok]
  apply exists_congr
  intro root
  have behind (middle : Slice) : (match root with
      | some root => ofExcept (Dictionary.ofRoot root width limit)
      | none => return .empty width : Load Dictionary) middle = .ok d t ↔
        Dictionary.ofRoot? width limit root = .ok d ∧ middle = t := by
    cases root with
    | some root => exact action_ofExcept_eq_ok
    | none => exact action_pure_eq_ok.trans (and_congr_left' (Except.ok.injEq _ _).to_iff.symm)
  constructor
  · intro run
    obtain ⟨middle, first, rest⟩ := run
    obtain ⟨read, rfl⟩ := (behind middle).1 rest
    exact ⟨read, ((decodes_maybeRef s root middle le).1 first).2⟩
  · intro spelled
    obtain ⟨read, spans⟩ := spelled
    exact ⟨t, (decodes_maybeRef s root t le).2 ⟨trivial, spans⟩, (behind t).2 ⟨read, rfl⟩⟩

/-- A cell is read from its front. -/
lemma fromCell_eq_ok {c : Cell} {a : α} :
    fromCell action c = .ok a ↔ ∃ t, action (Slice.ofCell c) = .ok a t := by
  rw [fromCell]
  cases action (Slice.ofCell c) with
  | ok a' t =>
    constructor
    · intro h
      cases h
      exact ⟨t, rfl⟩
    · intro h
      obtain ⟨_, h⟩ := h
      cases h
      rfl
  | error =>
    apply iff_of_false
    · intro h
      cases h
    · intro h
      obtain ⟨_, h⟩ := h
      cases h

/-- Nothing is left at the end. -/
lemma finish_eq_ok {u : Unit} : finish s = .ok u t ↔ s.isEmpty = true ∧ s = t := by
  rw [finish]
  split
  case isTrue empty =>
    rw [EStateM.Result.ok.injEq]
    exact and_congr_left' (iff_of_true rfl empty)
  case isFalse full => exact iff_of_false (fun h => nomatch h) fun h => full h.1

end Load

end CellBag
