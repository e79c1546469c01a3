import CellBag.Dictionary.Basic
import CellBag.Proofs.Atomic
import CellBag.Proofs.Builder
import CellBag.Proofs.Stream.Recovery
import CellBag.Snake
import Mathlib

/-!
# Appending actions

An action appends when it puts something behind what a builder has, within the room of a cell, or
fails and leaves the builder as it was (`Store.Appends`). Each write does (`Store.appends_write`).
An action of several steps does because it asks for the room of all of them before the first one
that writes (`Store.appends_pair`, `Store.appends_sized`, `Store.appends_snake`).
-/

namespace CellBag

namespace Builder
variable {b b' b'' : Builder} {xs : List Bool} {cs : List Cell}

/-- A builder has what another one has and, within the room of that one, maybe more behind it. -/
structure Extends (b b' : Builder) : Prop where
  bits_prefix : b.bits.toList <+: b'.bits.toList
  refs_prefix : b.refs <+: b'.refs
  refs_room : b'.refs.length - b.refs.length ≤ b.availableRefs

/-- What extends an extension extends the first builder. -/
lemma Extends.trans (first : Extends b b') (second : Extends b' b'') : Extends b b'' := by
  obtain ⟨bits, refs, room⟩ := first
  obtain ⟨bits', refs', room'⟩ := second
  refine ⟨bits.trans bits', refs.trans refs', ?_⟩
  have le := refs.length_le
  have le' := refs'.length_le
  rw [availableRefs] at room room' ⊢
  omega

/-- An extension has no more references than a cell does. -/
lemma Extends.refs_le (h : Extends b b') (le : b.refs.length ≤ Cell.maxRefs) :
    b'.refs.length ≤ Cell.maxRefs := by
  have room := h.refs_room
  rw [availableRefs] at room
  omega

/-- What is appended within the room of a cell extends a builder. -/
lemma Between.extends (h : Between b xs cs b') (room : cs.length ≤ b.availableRefs) :
    Extends b b' := by
  refine ⟨⟨xs, h.bits_eq.symm⟩, ⟨cs, h.refs_eq.symm⟩, ?_⟩
  rw [h.refs_eq, List.length_append, Nat.add_sub_cancel_left]
  exact room

/-- Bits that are appended take their room. -/
lemma Between.availableBits_eq (h : Between b xs cs b') :
    b'.availableBits = b.availableBits - xs.length := by
  simp only [availableBits, Bits.available, Bits.length, h.bits_eq, List.length_append]
  exact Nat.sub_add_eq _ _ _

end Builder

namespace Store
open Builder Outcome
variable {b : Builder} {xs : List Bool} {cs : List Cell}

section Steps

/-- A write that fails leaves the builder as it was. -/
lemma atomic_write {f : Bits → Except Error Bits} {effect : Builder → Prop}
    (writes : ∀ u b', write f b = .ok u b' → effect b') :
    Atomic b (fun _ => effect) (write f b) := by
  cases run : write f b with
  | ok u b' => exact writes u b' run
  | error e b' =>
    rw [write] at run
    split at run
    · cases run
    · cases run
      rfl

/-- A write appends bits. -/
lemma between_of_write {w : Bits.Write} {u : Unit} {b' : Builder} (run : write w.run b = .ok u b') :
    ∃ xs, Between b xs [] b' := by
  obtain ⟨xs, _, between⟩ := write_eq_ok.1 run
  exact ⟨xs, between⟩

/-- Bits may be written in front of references for which there is room. -/
lemma atomic_write_then {f : Bits → Except Error Bits} {next : Store Unit}
    (writes : ∀ u b', write f b = .ok u b' → ∃ xs, Between b xs [] b')
    (total : ∀ b', b'.availableRefs = b.availableRefs →
      ∃ u b'', next b' = .ok u b'' ∧ Extends b' b'') :
    Atomic b (fun _ b' => Extends b b') ((do write f; next) b) := by
  refine (atomic_write writes).bind_total fun _ b' h => ?_
  obtain ⟨xs, between⟩ := h
  obtain ⟨u, b'', run, ext⟩ := total b' between.availableRefs_eq
  exact ⟨u, b'', run, (between.extends (Nat.zero_le _)).trans ext⟩

/-- Asking for room for bits changes nothing. -/
lemma atomic_ensureBits (count : Nat) :
    Atomic b (fun _ b' => b' = b ∧ count ≤ b.availableBits) (ensureBits count b) := by
  rw [ensureBits]
  split
  case isTrue room => exact ⟨rfl, room⟩
  case isFalse => rfl

/-- Asking for room for references changes nothing. -/
lemma atomic_ensureRefs (count : Nat) :
    Atomic b (fun _ b' => b' = b ∧ count ≤ b.availableRefs) (ensureRefs count b) := by
  rw [ensureRefs]
  split
  case isTrue room => exact ⟨rfl, room⟩
  case isFalse => rfl

/-- A write succeeds where there is room for its bits. -/
lemma exists_write {w : Bits.Write} (denotes : w.Denotes xs) (room : xs.length ≤ b.availableBits) :
    ∃ u b', write w.run b = .ok u b' ∧ Extends b b' := by
  obtain ⟨b', between⟩ := exists_between room
  exact ⟨(), b', write_eq_ok.2 ⟨xs, denotes, between⟩, between.extends (Nat.zero_le _)⟩

/-- References are appended where there is room for them. -/
lemma exists_appendRefs (cs : List Cell) (room : cs.length ≤ b.availableRefs) :
    ∃ u b', appendRefs cs b = .ok u b' ∧ Extends b b' := by
  have between : Between b [] cs ⟨b.bits, b.refs ++ cs, b.exotic⟩ :=
    ⟨(List.append_nil _).symm, rfl, rfl⟩
  exact ⟨(), _, rfl, between.extends room⟩

/-- A reference is stored where there is room for one. -/
lemma exists_ref {c : Cell} (room : 1 ≤ b.availableRefs) :
    ∃ u b', ref c b = .ok u b' ∧ Extends b b' := by
  obtain ⟨u, b', run, ext⟩ := exists_appendRefs [c] room
  exact ⟨u, b', ref_eq_ok.2 ⟨room, appendRefs_eq_ok.1 run⟩, ext⟩

/-- What is done behind a question for room matters only where there is room. -/
lemma ensureBits_congr {count : Nat} {action next : Store Unit}
    (same : ∀ b, count ≤ b.availableBits → action b = next b) :
    (do ensureBits count; action) = (do ensureBits count; next) := by
  funext b
  rcases Nat.lt_or_ge b.availableBits count with full | room
  · have stop : ensureBits count b = .error (.capacity .bits count b.availableBits) b :=
      if_neg (Nat.not_le.2 full)
    rw [action_bind_of_error stop, action_bind_of_error stop]
  · have ask : ensureBits count b = .ok () b := ensureBits_eq_ok.2 ⟨room, rfl⟩
    rw [action_bind_of_ok ask, action_bind_of_ok ask, same b room]

/-- Room for bits is asked for by their write as well. -/
lemma ensureBits_append (xs : List Bool) :
    (do ensureBits xs.length; write (·.append xs)) = write (·.append xs) := by
  funext b
  rcases Nat.lt_or_ge b.availableBits xs.length with full | room
  · have lacking : ¬ xs.length ≤ b.bits.available := Nat.not_le.2 full
    have stop : ensureBits xs.length b = .error (.capacity .bits xs.length b.availableBits) b :=
      if_neg lacking
    rw [action_bind_of_error stop, write, Bits.append, dif_neg lacking]
    rfl
  · have ask : ensureBits xs.length b = .ok () b := ensureBits_eq_ok.2 ⟨room, rfl⟩
    rw [action_bind_of_ok ask]

/-- Where there is room for both, two writes are the same as one of both parts. -/
lemma append_append (ys : List Bool) (room : (xs ++ ys).length ≤ b.availableBits) :
    (do write (·.append xs); write (·.append ys)) b = write (·.append (xs ++ ys)) b := by
  obtain ⟨b', between⟩ := exists_between room
  obtain ⟨middle, front, rest⟩ := (@between_append b b' xs ys [] []).1 between
  have first : write (·.append xs) b = .ok () middle := append_eq_ok.2 front
  have second : write (·.append ys) middle = .ok () b' := append_eq_ok.2 rest
  have both : write (·.append (xs ++ ys)) b = .ok () b' := append_eq_ok.2 between
  rw [action_bind_of_ok first, second, both]

/-- A write appends its spelling. -/
lemma write_of_spelling {w : Bits.Write} (spelled : w.spelling = .ok xs) :
    write w.run = write (·.append xs) := by
  funext b
  rw [write, write, Bits.Write.run_eq, spelled]
  rfl

/-- A natural number that fits is spelled by its numeral. -/
lemma spelling_nat {n width : Nat} (lt : n < 2 ^ width) :
    (Bits.Write.nat n width).spelling = .ok (Binary.ofNat width n) :=
  if_neg (Nat.not_lt.2 (Binary.width_le lt))

end Steps

/-- An action puts something behind what a builder has, or fails and leaves it as it was. -/
def Appends (action : Store Unit) : Prop :=
  ∀ b, Atomic b (fun _ b' => Extends b b') (action b)

section Composites

/-- Bits are appended or change nothing. -/
lemma appends_append (xs : List Bool) : Appends (write (·.append xs)) := by
  intro b
  apply atomic_write
  intro u b' run
  exact (append_eq_ok.1 run).extends (Nat.zero_le _)

/-- A write appends its bits or changes nothing. -/
lemma appends_write (w : Bits.Write) : Appends (write w.run) := by
  intro b
  apply atomic_write
  intro u b' run
  obtain ⟨xs, between⟩ := between_of_write run
  exact between.extends (Nat.zero_le _)

/-- A reference is appended or changes nothing. -/
lemma appends_ref (c : Cell) : Appends (ref c) := by
  intro b
  refine (atomic_ensureRefs 1).bind_look fun _ room => ?_
  obtain ⟨u, b', run, ext⟩ := exists_appendRefs [c] room
  rw [run]
  exact ext

/-- Bits and references are appended together or change nothing. -/
lemma appends_pair (xs : List Bool) (cs : List Cell) (count : Nat) :
    Appends (do
      ensureBits count
      ensureRefs cs.length
      write (·.append xs)
      appendRefs cs) := by
  intro b
  refine (atomic_ensureBits count).bind_look fun _ _ => ?_
  refine (atomic_ensureRefs cs.length).bind_look fun _ room => ?_
  apply atomic_write_then
  · intro u b' run
    exact ⟨xs, append_eq_ok.1 run⟩
  · intro b' same
    exact exists_appendRefs cs (same ▸ room)

/-- An optional reference is appended with its bit or changes nothing. -/
lemma appends_maybeRef (value : Option Cell) : Appends (maybeRef value) := by
  cases value with
  | none => exact appends_write (.bit false)
  | some c =>
    intro b
    refine (atomic_ensureBits 1).bind_look fun _ _ => ?_
    refine (atomic_ensureRefs 1).bind_look fun _ room => ?_
    apply atomic_write_then
    · intro u b' run
      exact between_of_write (w := .bit true) run
    · intro b' same
      exact exists_ref (same ▸ room)

/-- Behind a size there is room for as many bytes. -/
lemma atomic_varLength (size lengthBits : Nat) :
    Atomic b (fun _ b' => Extends b b' ∧ 8 * size ≤ b'.availableBits)
      (varLength size lengthBits b) := by
  rw [varLength]
  split
  case isTrue => rfl
  case isFalse =>
    refine (atomic_ensureBits _).bind_look fun _ room => ?_
    apply atomic_write
    intro u b' run
    obtain ⟨xs, denotes, between⟩ := (write_eq_ok (w := .nat size lengthBits)).1 run
    have len : xs.length = lengthBits := denotes.1
    refine ⟨between.extends (Nat.zero_le _), ?_⟩
    rw [between.availableBits_eq, len]
    omega

/-- A value behind the number of its bytes is appended or changes nothing. -/
lemma appends_sized {w : Bits.Write} {size : Nat} (lengthBits : Nat) (denotes : w.Denotes xs)
    (len : xs.length = 8 * size) :
    Appends (do varLength size lengthBits; write w.run) := by
  intro b
  refine (atomic_varLength size lengthBits).bind_total fun _ b' h => ?_
  obtain ⟨first, room⟩ := h
  rw [← len] at room
  obtain ⟨u, b'', run, second⟩ := exists_write denotes room
  exact ⟨u, b'', run, first.trans second⟩

/-- A natural number of variable length is appended or changes nothing. -/
lemma appends_varNat (value lengthBits : Nat) : Appends (varNat value lengthBits) := by
  have fits := Binary.octetsFor_width_le_iff.1 (Nat.le_refl (Binary.octetsFor (Binary.width value)))
  have denotes := Bits.Write.eq_ofNat_iff.1 ⟨fits, rfl⟩
  exact appends_sized (w := .nat value _) lengthBits denotes denotes.1

/-- An integer is in the range of the bytes that it takes. -/
lemma inRange_intSize (value : Int) : Binary.InRange value (8 * intSize value) := by
  rw [← Bits.fitsInt_iff, intSize]
  split
  case isTrue zero =>
    subst zero
    rfl
  case isFalse =>
    obtain ⟨width, e, le⟩ : ∃ width,
        8 * Binary.octetsFor (Binary.width (Binary.magnitude value) + 1) = width + 1 ∧
          Binary.width (Binary.magnitude value) ≤ width := by
      refine ⟨8 * Binary.octetsFor (Binary.width (Binary.magnitude value) + 1) - 1, ?_, ?_⟩
      all_goals
        rw [Binary.octetsFor]
        omega
    rw [e, Bits.fitsInt]
    exact decide_eq_true le

/-- An integer of variable length is appended or changes nothing. -/
lemma appends_varInt (value : Int) (lengthBits : Nat) : Appends (varInt value lengthBits) := by
  have denotes := Bits.Write.eq_ofInt_iff.1 ⟨inRange_intSize value, rfl⟩
  exact appends_sized (w := .int value _) lengthBits denotes denotes.1

/-- The bits and references of a cell are appended or change nothing. -/
lemma appends_cell (c : Cell) : Appends (cell c) :=
  appends_pair c.bits.toList c.refs c.bits.length

/-- What is left of a slice is appended or changes nothing. -/
lemma appends_slice (s : Slice) : Appends (slice s) := by
  have refs : s.refsLeft = s.remainingRefs.length := (List.length_drop ..).symm
  rw [slice, refs]
  exact appends_pair s.remainingBits s.remainingRefs s.bitsLeft

/-- An external address is appended at once. It might as well be stored field by field, when room
for all of it has been asked for. -/
lemma externalAddress_eq_steps (value : ExternalAddress) :
    externalAddress value = (do
      ensureBits (2 + 9 + value.bits.length)
      nat 1 2
      nat value.bits.length 9
      bitString value.bits) := by
  have len : value.encoding.length = 2 + 9 + value.bits.length := by
    rw [ExternalAddress.encoding, List.length_append, List.length_append, Binary.length_ofNat]
    rfl
  have tag : nat 1 2 = write (·.append [false, true]) :=
    write_of_spelling (spelling_nat (by decide))
  have width : nat value.bits.length 9 =
      write (·.append (Binary.ofNat 9 value.bits.length)) :=
    write_of_spelling (spelling_nat (Nat.lt_succ_of_le value.length_le))
  rw [← len, externalAddress, ← ensureBits_append, tag, width]
  apply ensureBits_congr
  intro b room
  rw [ExternalAddress.encoding] at room ⊢
  have front : ([false, true] ++ Binary.ofNat 9 value.bits.length).length ≤ b.availableBits := by
    rw [List.length_append] at room
    omega
  rw [← append_append value.bits.toList room, ← bind_assoc]
  exact action_bind_congr (append_append _ front).symm

/-- The address of a message is appended or changes nothing. -/
lemma appends_messageAddress (value : MessageAddress) : Appends (messageAddress value) := by
  cases value with
  | none => exact appends_write (.address none)
  | account a => exact appends_write (.address (some a))
  | external a => exact appends_append a.encoding

/-- A dictionary is appended or changes nothing. -/
lemma appends_dictionary (value : Option Dictionary) : Appends (dictionary value) := by
  cases value with
  | none => exact appends_maybeRef none
  | some d =>
    intro b
    exact (atomic_ofExcept d.toRoot).bind_look fun root _ => appends_maybeRef root b

/-- The tail of a snake is made before the first byte is written, and the reference to it has room
then. -/
lemma appends_snake (value : List UInt8) : Appends (snake value) := by
  intro b
  show Atomic b _ ((if value.length ≤ b.availableBytes then bytes value else do
    ensureRefs 1
    let tail ← ofExcept (Snake.ofBytes (value.drop b.availableBytes))
    bytes (value.take b.availableBytes)
    ref tail : Store Unit) b)
  split
  case isTrue => exact appends_write (.bytes value) b
  case isFalse =>
    refine (atomic_ensureRefs 1).bind_look fun _ room => ?_
    refine (atomic_ofExcept _).bind_look fun tail _ => ?_
    apply atomic_write_then
    · intro u b' run
      exact between_of_write (w := .bytes _) run
    · intro b' same
      exact exists_ref (same ▸ room)

end Composites

end Store

end CellBag
