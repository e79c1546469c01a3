import CellBag.Address.Stored
import CellBag.Proofs.Bits.Read
import CellBag.Proofs.Builder.Writes
import CellBag.Proofs.Slice
import Mathlib

/-!
# Recovered values

A load recovers what a store action writes when it reads the appended bits and references back,
wherever they stand in a cell, and moves on over all of them (`Recovers`). This composes along
sequences of actions (`Recovers.bind`) and holds of each kind of field: numbers of fixed and of
variable length, bit strings, coins, addresses and references.
-/

namespace CellBag

namespace Slice
variable {s t u : Slice} {xs ys : List Bool} {cs ds : List Cell} {c : Cell}

/-- These bits and references stand between two slices of a cell. -/
structure Spans (s : Slice) (xs : List Bool) (cs : List Cell) (t : Slice) : Prop where
  eq_advance : t = s.advance xs.length cs.length
  between : Between s xs (s.advance xs.length 0)
  refs_eq : s.remainingRefs = cs ++ t.remainingRefs

/-- Bits that stand between two slices without references stand between them. -/
lemma Spans.toBetween (h : Spans s xs [] t) : Between s xs t := by
  obtain ⟨rfl, between, _⟩ := h
  exact between

/-- Two parts stand between two slices with a slice between the parts. -/
lemma Spans.exists_middle (h : Spans s (xs ++ ys) (cs ++ ds) u) :
    ∃ t, Spans s xs cs t ∧ Spans t ys ds u := by
  obtain ⟨rfl, between, refs⟩ := h
  obtain ⟨_, ⟨rfl, front, le⟩, ⟨_, rest, le'⟩⟩ := between_append.1 between
  rw [remainingRefs, remainingRefs, advance, List.append_assoc] at refs
  have behind := congrArg (List.drop cs.length) refs
  rw [List.drop_drop, List.drop_left] at behind
  refine ⟨s.advance xs.length cs.length, ⟨rfl, ⟨rfl, front, le⟩, ?_⟩, ?_, ⟨rfl, rest, le'⟩, ?_⟩
  · rw [remainingRefs, remainingRefs, advance, refs, behind]
  · rw [advance_advance, List.length_append, List.length_append]
  · rw [remainingRefs, remainingRefs, advance, advance, behind]

/-- All bits and references of a cell stand in front of its end. -/
lemma spans_atEnd (c : Cell) : Spans (ofCell c) c.bits.toList c.refs (ofCell c).atEnd := by
  have bits : 0 + c.bits.toList.length = c.bits.length := Nat.zero_add _
  have refs : 0 + c.refs.length = c.refs.length := Nat.zero_add _
  refine ⟨?_, ⟨rfl, ?_, Nat.le_of_eq bits⟩, ?_⟩
  · rw [advance, atEnd, ofCell, bits, refs]
  · exact Bits.range_length c.bits
  · rw [remainingRefs, remainingRefs, atEnd, ofCell, List.drop_zero, List.drop_length,
      List.append_nil]

/-- What was written into an empty builder is all that its cell has. -/
lemma spans_of_finish {b : Builder} (all : Builder.Between Builder.empty xs cs b)
    (ended : b.finish = .ok c) : Spans (ofCell c) xs cs (ofCell c).atEnd := by
  obtain ⟨bits, refs, _⟩ := Cell.finalize_eq_ok.1 ended
  have bits : c.bits.toList = xs := (congrArg Bits.toList bits).trans all.bits_eq
  have refs : c.refs = cs := refs.trans all.refs_eq
  have whole := spans_atEnd c
  rwa [bits, refs] at whole

/-- Nothing is left of a slice at its end. -/
lemma isEmpty_atEnd (s : Slice) : s.atEnd.isEmpty = true := by
  rw [isEmpty, bitsLeft, refsLeft, atEnd, Nat.sub_self, Nat.sub_self]
  rfl

end Slice

section Recovers
variable {α β : Type} {load : Load α} {store store' : Store Unit} {a : α}

/-- What a store action appends is read back as this value by a load. -/
def Recovers (load : Load α) (store : Store Unit) (a : α) : Prop :=
  ∀ u b b', store b = .ok u b' → ∃ xs cs, Builder.Between b xs cs b' ∧
    ∀ s t, Slice.Spans s xs cs t → load s = .ok a t

namespace Recovers

/-- A value that is returned without a store is read back. -/
lemma pure (a : α) : Recovers (Pure.pure a) (Pure.pure ()) a := by
  intro u b b' run
  obtain ⟨_, rfl⟩ := Outcome.action_pure_eq_ok.1 run
  refine ⟨[], [], ⟨(List.append_nil _).symm, (List.append_nil _).symm, rfl⟩, ?_⟩
  intro s t spans
  obtain ⟨rfl, _⟩ := Slice.between_nil.1 spans.toBetween
  rfl

/-- Values that are stored one after the other are loaded in the same order. -/
lemma bind {load' : α → Load β} {a' : β} (first : Recovers load store a)
    (second : Recovers (load' a) store' a') :
    Recovers (load >>= load') (do store; store') a' := by
  intro u b b'' run
  obtain ⟨_, b', run, run'⟩ := Outcome.action_bind_eq_ok.1 run
  obtain ⟨xs, cs, between, loads⟩ := first _ _ _ run
  obtain ⟨ys, ds, between', loads'⟩ := second _ _ _ run'
  refine ⟨xs ++ ys, cs ++ ds, Builder.between_append.2 ⟨b', between, between'⟩, ?_⟩
  intro s t spans
  obtain ⟨middle, front, rest⟩ := spans.exists_middle
  exact Outcome.action_bind_eq_ok.2 ⟨a, middle, loads _ _ front, loads' _ _ rest⟩

/-- What follows without reading more is recovered, too. -/
lemma then_return {next : α → Load β} {a' : β} (r : Recovers load store a)
    (returns : ∀ s, next a s = .ok a' s) : Recovers (load >>= next) store a' := by
  intro u b b' run
  obtain ⟨xs, cs, between, loads⟩ := r _ _ _ run
  refine ⟨xs, cs, between, ?_⟩
  intro s t spans
  exact Outcome.action_bind_eq_ok.2 ⟨a, t, loads _ _ spans, returns t⟩

/-- What is made of a value is read back as it is. -/
lemma map (f : α → β) (r : Recovers load store a) :
    Recovers (do return f (← load)) store (f a) :=
  r.then_return fun _ => rfl

/-- A load recovers the same when it runs atomically. -/
lemma atomically (r : Recovers load store a) : Recovers (Load.atomically load) store a := by
  intro u b b' run
  obtain ⟨xs, cs, between, loads⟩ := r _ _ _ run
  refine ⟨xs, cs, between, ?_⟩
  intro s t spans
  rw [Load.atomically, loads _ _ spans]

/-- Another action may be recovered that writes the same. -/
lemma of_imp (same : ∀ u b b', store b = .ok u b' → store' b = .ok u b')
    (r : Recovers load store' a) : Recovers load store a := by
  intro u b b' run
  exact r _ _ _ (same _ _ _ run)

/-- A check in front of a store action does not change what is appended. -/
lemma of_check {check : Store Unit} (keeps : ∀ u b b', check b = .ok u b' → b = b')
    (r : Recovers load store a) : Recovers load (do check; store) a := by
  apply of_imp _ r
  intro u b b'' run
  obtain ⟨_, b', checked, run⟩ := Outcome.action_bind_eq_ok.1 run
  rwa [keeps _ _ _ checked]

/-- What follows from a store that succeeds may be assumed. -/
lemma assume {p : Prop} (holds : ∀ u b b', store b = .ok u b' → p)
    (r : p → Recovers load store a) : Recovers load store a := by
  intro u b b' run
  exact r (holds _ _ _ run) _ _ _ run

/-- What is stored behind a step that can fail is read back. -/
lemma of_except {x : Except Error β} {store : β → Store Unit}
    (r : ∀ c, x = .ok c → Recovers load (store c) a) :
    Recovers load (do let c ← ofExcept x; store c) a := by
  intro u b b' run
  obtain ⟨c, _, first, run⟩ := Outcome.action_bind_eq_ok.1 run
  obtain ⟨made, rfl⟩ := Outcome.action_ofExcept_eq_ok.1 first
  exact r c made _ _ _ run

/-- The cell that a store action makes is read back as a whole. -/
lemma exists_load {c : Cell} (r : Recovers load store a) (made : Store.toCell store = .ok c) :
    ∃ t, load (Slice.ofCell c) = .ok a t ∧ t.isEmpty = true := by
  obtain ⟨_, b, run, ended⟩ := Store.toCell_eq_ok_iff_finish.1 made
  obtain ⟨xs, cs, between, loads⟩ := r _ _ _ run
  exact ⟨_, loads _ _ (Slice.spans_of_finish between ended), Slice.isEmpty_atEnd _⟩

end Recovers

/-- A load recovers a write when it reads each list of bits that denotes the value. -/
lemma recovers_write {w : Bits.Write}
    (reads : ∀ xs s t, w.Denotes xs → Slice.Between s xs t → load s = .ok a t) :
    Recovers load (Store.write w.run) a := by
  intro u b b' run
  obtain ⟨xs, denotes, between⟩ := Store.write_eq_ok.1 run
  exact ⟨xs, [], between, fun s t spans => reads xs s t denotes spans.toBetween⟩

end Recovers

end CellBag
