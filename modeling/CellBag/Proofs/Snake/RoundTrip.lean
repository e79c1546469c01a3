import CellBag.Proofs.Snake.Chain
import CellBag.Proofs.Stream.Spelling

/-!
# Round trip of chains

Bytes that are stored in a builder fill the room of its cell, and the others go along a chain behind
its references (`Snake.Fills`). They are read back from a slice of the cell that has moved on over
what the builder had before, and nothing is left then (`Snake.load_store`). Bytes are refused only
when they do not fit into the cell, and either there is no room for a reference or the chain would
have too many cells (`Snake.Refused`).
-/

namespace CellBag

namespace Snake

/-- Bytes fill the room behind the bits of a builder, and the others are in a chain behind its
references. -/
structure Fills (b : Builder) (value : List UInt8) (bits : List Bool) (refs : List Cell) : Prop where
  bits_eq : bits = b.bits.toList ++ Octets.unpack (value.take b.availableBytes)
  chain : ∃ behind cs, refs = b.refs ++ behind ∧ Leads behind cs ∧ Chunked cs ∧
    cs.flatten = value.drop b.availableBytes

/-- Why a builder refuses bytes that do not fit into its cell: there is no room for a reference, or
the others need too many cells. -/
inductive Refused (b : Builder) (value : List UInt8) : Error → Prop where
  | refs :
    b.availableBytes < value.length →
    Cell.maxRefs ≤ b.refs.length →
    Refused b value (.capacity .refs 1 0)
  | links :
    b.availableBytes < value.length →
    b.refs.length < Cell.maxRefs →
    maxLinks * chunkSize < value.length - b.availableBytes →
    Refused b value .depthOverflow

end Snake

namespace Store
open Builder Outcome Snake
variable {b b' : Builder} {value : List UInt8} {u : Unit} {e : Error}

/-- Bytes for which there is room are stored without a chain. -/
lemma snake_of_le (fits : value.length ≤ b.availableBytes) : snake value b = bytes value b := by
  show (if value.length ≤ b.availableBytes then bytes value else _ : Store Unit) b = _
  rw [if_pos fits]

/-- Bytes for which there is no room are stored in front of a chain of the others. -/
lemma snake_of_lt (more : b.availableBytes < value.length) :
    snake value b = (do
      ensureRefs 1
      let tail ← ofExcept (Snake.ofBytes (value.drop b.availableBytes))
      bytes (value.take b.availableBytes)
      ref tail : Store Unit) b := by
  show (if value.length ≤ b.availableBytes then bytes value else _ : Store Unit) b = _
  rw [if_neg (Nat.not_le.2 more)]

/-- What is refused leaves the builder as it was. -/
lemma snake_of_refused (refused : Refused b value e) : snake value b = .error e b := by
  cases refused with
  | refs more full =>
    have none : b.availableRefs = 0 := Nat.sub_eq_zero_of_le full
    have failed : ensureRefs 1 b = .error (.capacity .refs 1 0) b := by
      rw [ensureRefs, none]
      rfl
    rw [snake_of_lt more, action_bind_of_error failed]
  | links more room many =>
    have room : ensureRefs 1 b = .ok () b := ensureRefs_eq_ok.2 ⟨Nat.sub_pos_of_lt room, rfl⟩
    rw [← List.length_drop] at many
    rw [snake_of_lt more, action_bind_of_ok room, ofBytes_of_lt many]
    rfl

/-- Bytes that are not refused are stored. -/
lemma exists_snake (accepted : ∀ e, ¬ Refused b value e) :
    ∃ b', snake value b = .ok () b' ∧ Fills b value b'.bits.toList b'.refs := by
  have roomFor {chunk : List UInt8} (le : chunk.length ≤ b.availableBytes) :
      (Octets.unpack chunk).length ≤ b.availableBits := by
    rw [Octets.length_unpack]
    rw [availableBytes] at le
    omega
  rcases Nat.lt_or_ge b.availableBytes value.length with more | fits
  · have room : b.refs.length < Cell.maxRefs :=
      Nat.lt_of_not_le fun full => accepted _ (.refs more full)
    have few : (value.drop b.availableBytes).length ≤ maxLinks * chunkSize := by
      rw [List.length_drop]
      exact Nat.le_of_not_lt fun many => accepted _ (.links more room many)
    have some : value.drop b.availableBytes ≠ [] := fun none =>
      Nat.not_le.2 more (List.drop_eq_nil_iff.1 none)
    obtain ⟨tail, cs, made, leads, chunked, all⟩ := exists_ofBytes some few
    have room : 1 ≤ b.availableRefs := Nat.sub_pos_of_lt room
    obtain ⟨b', run, between⟩ := (writes_link (value.take b.availableBytes) tail).exists_run
      (roomFor (List.length_take_le _ _)) room
    refine ⟨b', ?_, between.bits_eq, [tail], cs, between.refs_eq, leads, chunked, all⟩
    rw [snake_of_lt more, action_bind_of_ok (ensureRefs_eq_ok (u := ()).2 ⟨room, rfl⟩), made]
    exact run
  · obtain ⟨b', run, between⟩ := (writes_bytes value).exists_run (roomFor fits) (Nat.zero_le _)
    refine ⟨b', (snake_of_le fits).trans run, ?_, [], [], between.refs_eq, .nil, .nil, ?_⟩
    · rw [List.take_of_length_le fits]
      exact between.bits_eq
    · exact (List.drop_eq_nil_of_le fits).symm

/-- Bytes are refused for a reason, and the builder is left as it was. -/
lemma snake_eq_error : snake value b = .error e b' ↔ Refused b value e ∧ b' = b := by
  constructor
  · intro failed
    by_cases refused : ∃ e, Refused b value e
    · obtain ⟨e', refused⟩ := refused
      have run := snake_of_refused refused
      rw [failed] at run
      cases run
      exact ⟨refused, rfl⟩
    · obtain ⟨_, run, _⟩ := exists_snake (not_exists.1 refused)
      rw [failed] at run
      cases run
  · intro h
    obtain ⟨refused, rfl⟩ := h
    exact snake_of_refused refused

/-- A snake that has been stored fills the builder with its bytes. -/
lemma fills_of_snake (run : snake value b = .ok u b') : Fills b value b'.bits.toList b'.refs := by
  have accepted (e : Error) : ¬ Refused b value e := fun refused => by
    rw [snake_of_refused refused] at run
    cases run
  obtain ⟨_, run', fills⟩ := exists_snake accepted
  rw [run] at run'
  cases run'
  exact fills

end Store

namespace Snake
variable {refs : List Cell} {cs : List (List UInt8)}

/-- Links that are the bits of chunks have whole bytes, which are those of the chunks. -/
lemma gather_map_unpack (cs : List (List UInt8)) :
    Whole (cs.map Octets.unpack) ∧ (cs.map Octets.unpack).flatMap Octets.pack = cs.flatten := by
  constructor
  · intro link mem
    obtain ⟨chunk, _, rfl⟩ := List.mem_map.1 mem
    rw [Octets.length_unpack, Nat.mul_mod_right]
  · simp only [List.flatMap_map, Octets.pack_unpack, List.flatMap_id']

/-- At most one reference leads on. -/
lemma Leads.length_le (leads : Leads refs cs) : refs.length ≤ 1 := by
  cases leads with
  | nil => exact Nat.zero_le 1
  | cons _ _ _ => exact Nat.le_refl 1

end Snake

namespace Slice
open Snake
variable {s : Slice} {cs : List (List UInt8)}

/-- The links of a slice are what is left of it and the chunks of the chain behind it. -/
lemma links_of_leads (leads : Leads s.remainingRefs cs) :
    s.links = s.remainingBits :: cs.map Octets.unpack := by
  rw [Slice.links, ← leads.links_eq]
  revert leads
  generalize s.remainingRefs = refs
  intro leads
  cases leads with
  | nil => rfl
  | cons _ _ _ => exact congrArg (s.remainingBits :: ·) (List.flatMap_singleton ..).symm

/-- Nothing is left behind the link of a chain that begins with the last reference. -/
lemma isEmpty_behindLink (le : s.refsLeft ≤ 1) : s.behindLink.isEmpty = true := by
  rw [isEmpty, Bool.and_eq_true, beq_iff_eq, beq_iff_eq]
  simp only [refsLeft, bitsLeft, behindLink, advance] at le ⊢
  omega

end Slice

namespace Snake
open Outcome
variable {b : Builder} {value : List UInt8} {c : Cell}

/-- What is stored is read back behind what the builder had, and nothing is left then. -/
lemma load_of_fills (fills : Fills b value c.bits.toList c.refs) :
    Load.fromCell (do
      Load.skipBits b.bits.length
      Load.skipRefs b.refs.length
      let read ← Load.snake
      Load.finish
      return read) c = .ok value := by
  obtain ⟨data, behind, cs, refs, leads, _, all⟩ := fills
  let front := (Slice.ofCell c).advance b.bits.length 0
  let s := front.advance 0 b.refs.length
  have bits_le : b.bits.length ≤ (Slice.ofCell c).bitsLeft := by
    show b.bits.length ≤ c.bits.length - 0
    rw [Bits.length, Bits.length, data, List.length_append]
    omega
  have refs_le : b.refs.length ≤ front.refsLeft := by
    show b.refs.length ≤ c.refs.length - 0
    rw [refs, List.length_append]
    omega
  have bits_left : s.remainingBits = Octets.unpack (value.take b.availableBytes) := by
    show c.bits.toList.drop (0 + b.bits.length) = _
    rw [data, Nat.zero_add]
    exact List.drop_left
  have refs_left : s.remainingRefs = behind := by
    show c.refs.drop (0 + b.refs.length) = _
    rw [refs, Nat.zero_add]
    exact List.drop_left
  have links : s.links = (value.take b.availableBytes :: cs).map Octets.unpack := by
    rw [Slice.links_of_leads (refs_left ▸ leads), bits_left, List.map_cons]
  have read : Load.snake s = .ok value s.behindLink := by
    obtain ⟨whole, packed⟩ := gather_map_unpack (value.take b.availableBytes :: cs)
    rw [List.flatten_cons, all, List.take_append_drop] at packed
    rw [← links] at whole packed
    exact Load.snake_eq_ok.2 ⟨whole, packed, rfl⟩
  have one : s.refsLeft ≤ 1 := by
    have left : s.remainingRefs.length = s.refsLeft := List.length_drop ..
    rw [← left, refs_left]
    exact leads.length_le
  have skipBits : Load.skipBits b.bits.length (Slice.ofCell c) = .ok () front := if_pos bits_le
  have skipRefs : Load.skipRefs b.refs.length front = .ok () s := if_pos refs_le
  have finish : Load.finish s.behindLink = .ok () s.behindLink :=
    if_pos (Slice.isEmpty_behindLink one)
  refine Load.fromCell_eq_ok.2 ⟨s.behindLink, ?_⟩
  rw [action_bind_of_ok skipBits, action_bind_of_ok skipRefs, action_bind_of_ok read,
    action_bind_of_ok finish]
  rfl

/-- Bytes that are stored in any builder are read back from the cell that it makes, behind what it
had before, and nothing is left then. They fill the cell, and go on in a chain of full cells but for
the last one, none of which is empty. They are refused only when they do not fit into the cell, and
either there is no room for a reference or the chain would need more than 65536 cells. -/
theorem load_store (b : Builder) (value : List UInt8) :
    (∀ b' c, Store.snake value b = .ok () b' → b'.finish = .ok c →
      Load.fromCell (do
        Load.skipBits b.bits.length
        Load.skipRefs b.refs.length
        let read ← Load.snake
        Load.finish
        return read) c = .ok value ∧
      Fills b value c.bits.toList c.refs) ∧
    ∀ e b', Store.snake value b = .error e b' ↔ Refused b value e ∧ b' = b := by
  refine ⟨fun b' c stored made => ?_, fun e b' => Store.snake_eq_error⟩
  obtain ⟨bits, refs, _, _⟩ := Cell.finalize_eq_ok.1 made
  have fills := Store.fills_of_snake stored
  rw [← bits, ← refs] at fills
  exact ⟨load_of_fills fills, fills⟩

/-- Three bytes in a builder with a reference and room for one byte: the two others go along. -/
theorem load_store_chained :
    ∃ b b' c, (do Store.bits (List.replicate 127 0xFF) 1009; Store.ref .empty : Store Unit)
        Builder.empty = .ok () b ∧
      Store.snake [1, 2, 3] b = .ok () b' ∧ b'.finish = .ok c ∧ c.refs.length = 2 ∧
      Load.fromCell (do
        Load.skipBits b.bits.length
        Load.skipRefs b.refs.length
        let read ← Load.snake
        Load.finish
        return read) c = .ok [1, 2, 3] := by
  have run : (do
      let c ← Store.toCell (do
        (do Store.bits (List.replicate 127 0xFF) 1009; Store.ref .empty)
        Store.snake [1, 2, 3])
      return c.refs.length) = .ok 2 := by decide +kernel
  simp only [Outcome.bind_eq_ok, Outcome.pure_eq_ok, Store.toCell_eq_ok_iff_finish,
    Outcome.action_bind_eq_ok (α := Unit) (β := Unit) (f := fun _ => Store.snake [1, 2, 3])] at run
  obtain ⟨c, ⟨_, b', ⟨_, b, before, stored⟩, made⟩, two⟩ := run
  obtain ⟨back, _⟩ := (load_store b [1, 2, 3]).1 b' c stored made
  exact ⟨b, b', c, before, stored, made, two, back⟩

end Snake

end CellBag
