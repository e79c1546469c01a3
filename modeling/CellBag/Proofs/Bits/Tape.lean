import CellBag.Proofs.Arithmetic
import CellBag.Proofs.Bits.Buffer
import Mathlib

/-!
# Steps of tapes and buffers

A buffer does at each step what the tape does whose bits it packs (`Tape.Step.onBuffer_pack`). So
every buffer that is reached by steps, successful or not, packs the bits of a tape
(`Buffer.Reachable.exists_tape`), and its steps append and read the bits that denote their values
(`Buffer.steps_on_bits`). The exception is a part of some bytes whose end is too large for a machine
word (`Tape.Step.Overflows`): no error is returned for it.
-/

namespace CellBag

/-- The steps of a tape or a buffer, with their values. -/
inductive Tape.Step where
  | write (w : Bits.Write)
  | writePart (arith : Arithmetic) (source : List UInt8) (offset count : Nat)
  | readBit
  | readWord (width : Nat)
  | readSignedWord (width : Nat)
  | skip (count : Nat)
  | rewind

/-- What stands in for a write when only bytes are at hand: another bit string is written from its
bytes. -/
def Bits.Write.fromBytes : Bits.Write → Bits.Write
  | .all other => .bits other.toBytes other.length
  | w => w

namespace Tape.Step

/-- What a step gives. -/
def Result : Step → Type
  | write _ | writePart _ _ _ _ | skip _ | rewind => Unit
  | readBit => Bool
  | readWord _ | readSignedWord _ => BitVec 64

/-- The step on a tape. -/
def onTape : (s : Step) → Tape.Action s.Result
  | write w => Tape.write w.run
  | writePart arith source offset count => Tape.write (·.writeFrom arith source offset count)
  | readBit => Tape.readBit
  | readWord width => Tape.readWord width
  | readSignedWord width => Tape.readSignedWord width
  | skip count => Tape.skip count
  | rewind => Tape.rewind

/-- The step on a buffer. -/
def onBuffer : (s : Step) → Buffer.Action s.Result
  | write w => Buffer.follow w.fromBytes.plan
  | writePart arith source offset count =>
    Buffer.follow (Bits.Plan.part arith source offset count)
  | readBit => Buffer.readBit
  | readWord width => Buffer.readWord width
  | readSignedWord width => Buffer.readSignedWord width
  | skip count => Buffer.skip count
  | rewind => Buffer.rewind

end Tape.Step

section Simulation
variable {α : Type} {t : Tape}

/-- The outcome of a step with its tape packed into a buffer. -/
def Tape.packOutcome : EStateM.Result Error Tape α → EStateM.Result Error Buffer α
  | .ok a t => .ok a t.pack
  | .error e t => .error e t.pack

/-- Another bit string is spelled by its bytes as well. -/
lemma Bits.Write.spelling_fromBytes (w : Bits.Write) : w.fromBytes.spelling = w.spelling := by
  cases w with
  | all other =>
    have le : other.length ≤ 8 * other.toBytes.length := by
      rw [Bits.toBytes, Octets.length_pack, Binary.octetsFor, Bits.length]
      omega
    rw [fromBytes, spelling, spelling, frontOf, if_pos le, Bits.toBytes, Octets.unpack_pack]
    exact congrArg Except.ok (List.take_left' rfl)
  | bit | repeated | bits | bytes | text | word | wide | signedWord | nat | int | coins
  | address => rfl

/-- A write asks for as much room as its bits take. -/
lemma Bits.Write.length_plan {w : Bits.Write} {p : Bits.Plan} (planned : w.plan = .ok p) :
    (p.bits ()).length ≤ p.room := by
  rw [plan_eq] at planned
  cases spelled : w.spelling with
  | error e =>
    rw [spelled] at planned
    cases planned
  | ok xs =>
    rw [spelled] at planned
    cases planned
    exact Nat.le_refl _

/-- A part of some bytes has no more bits than it asks room for, even when its end has wrapped
around. -/
lemma Bits.Plan.length_part {arith : Arithmetic} {source : List UInt8} {offset count : Nat}
    {p : Bits.Plan} (planned : part arith source offset count = .ok p) :
    (p.bits ()).length ≤ p.room := by
  obtain ⟨stop, summed, planned⟩ := Outcome.bind_eq_ok.1 planned
  have le : stop ≤ offset + count := Arithmetic.size_le summed
  cases (Outcome.check_eq_ok.1 planned).2
  show (List.take _ _).length ≤ count
  rw [List.length_take]
  omega

/-- Looks at the bits and moves the read position over them. -/
def Tape.take (g : Bits → Nat → Except Error α) (width : Nat) : Action α := do
  let a ← peek g
  advance width
  return a

/-- A read gives what it has looked at and moves on, or changes nothing. -/
lemma Tape.take_eq (g : Bits → Nat → Except Error α) (width : Nat) (t : Tape) :
    take g width t =
      match g t.bits t.position with
      | .ok a => .ok a ⟨t.bits, t.position + width⟩
      | .error e => .error e t := by
  rw [take]
  cases seen : g t.bits t.position with
  | ok a =>
    have peeked : peek g t = .ok a t := by rw [peek, seen]
    rw [Outcome.action_bind_of_ok peeked]
    rfl
  | error e =>
    have peeked : peek g t = .error e t := by rw [peek, seen]
    rw [Outcome.action_bind_of_error peeked]

/-- A read that gives the same for the bits and for the bytes moves both read positions. -/
lemma Buffer.take_pack {f : Buffer → Except Error α} {g : Bits → Nat → Except Error α}
    (same : f t.pack = g t.bits t.position) (width : Nat) :
    take f width t.pack = Tape.packOutcome (Tape.take g width t) := by
  have steps : take f width t.pack = (do
      let a ← ofExcept (f t.pack)
      modify fun b => { b with position := b.position + width }
      return a : Action α) t.pack := rfl
  rw [steps, same, Tape.take_eq]
  cases g t.bits t.position with
  | ok a => rfl
  | error e => rfl

/-- A plan that asks for enough room is followed on the bytes as it is written on the bits. -/
lemma Buffer.follow_eq_write {plan : Except Error Bits.Plan} {f : Bits → Except Error Bits}
    (sound : ∀ p, plan = .ok p → (p.bits ()).length ≤ p.room)
    (follows : f t.bits = t.bits.follow plan) :
    follow plan t.pack = Tape.packOutcome (Tape.write f t) := by
  rw [follow_pack sound, Tape.write, follows]
  cases t.bits.follow plan with
  | ok bits => rfl
  | error e => rfl

/-- A buffer does what the tape does whose bits it packs. -/
theorem Tape.Step.onBuffer_pack (s : Step) (within : t.position ≤ t.bits.length) :
    s.onBuffer t.pack = Tape.packOutcome (s.onTape t) := by
  cases s with
  | write w =>
    have same : w.fromBytes.plan = w.plan := by
      rw [Bits.Write.plan_eq, Bits.Write.plan_eq, Bits.Write.spelling_fromBytes]
    show Buffer.follow w.fromBytes.plan t.pack = Tape.packOutcome (Tape.write w.run t)
    rw [same]
    exact Buffer.follow_eq_write (fun p => Bits.Write.length_plan) (w.run_eq_follow t.bits)
  | writePart arith source offset count =>
    exact Buffer.follow_eq_write (f := (·.writeFrom arith source offset count))
      (fun p => Bits.Plan.length_part) rfl
  | readBit => exact Buffer.take_pack (Buffer.bit_pack t) 1
  | readWord width =>
    exact Buffer.take_pack (g := fun b offset => b.wordAt 64 offset width)
      (Buffer.word_pack within width) width
  | readSignedWord width =>
    exact Buffer.take_pack (g := fun b offset => b.signedWordAt 64 offset width)
      (Buffer.signedWord_pack within width) width
  | skip count =>
    exact Buffer.take_pack (g := fun b offset => b.ensureReadable offset count) rfl count
  | rewind => rfl

end Simulation

section Readings
variable {b : Bits} {offset width : Nat}

/-- A bit that is read is the range of width one. -/
lemma Bits.range_of_bitAt {bit : Bool} (e : b.bitAt offset = .ok bit) :
    b.range offset 1 = [bit] := by
  rw [bitAt] at e
  split at e
  case h_1 here =>
    cases e
    rw [range, List.take_one, List.head?_drop, here]
    rfl
  case h_2 => cases e

/-- A word that is read is denoted by its range. -/
lemma Bits.range_of_wordAt {word : BitVec 64} (e : b.wordAt 64 offset width = .ok word) :
    (b.range offset width).length = width ∧ Binary.toNat (b.range offset width) = word.toNat := by
  have fits : width ≤ 64 := Nat.not_lt.1 (Outcome.guard_eq_ok.1 e).1
  obtain ⟨left, lt, range⟩ := (Bits.wordAt_eq_ok_iff fits).1 e
  refine ⟨Bits.length_range left, ?_⟩
  rw [range, Binary.toNat_ofNat, Nat.mod_eq_of_lt lt]

/-- A signed word that is read is denoted by its range in two's complement. -/
lemma Bits.range_of_signedWordAt {word : BitVec 64}
    (e : b.signedWordAt 64 offset width = .ok word) :
    (b.range offset width).length = width ∧ Binary.toInt (b.range offset width) = word.toInt := by
  obtain ⟨unsigned, first, _⟩ := Outcome.bind_eq_ok.1 e
  have fits : width ≤ 64 := Nat.not_lt.1 (Outcome.guard_eq_ok.1 first).1
  have len := (Bits.range_of_wordAt first).1
  have range := Binary.inRange_toInt (b.range offset width)
  rw [len] at range
  rw [Bits.signedWordAt_of_le fits (Bits.le_of_length_range len)] at e
  cases e
  rw [BitVec.toInt_ofInt, Binary.inRange_iff_bmod.1 (range.mono fits)]
  exact ⟨len, rfl⟩

/-- Bits that can be read are there. -/
lemma Bits.length_range_of_ensureReadable (e : b.ensureReadable offset width = .ok ()) :
    (b.range offset width).length = width :=
  Bits.length_range (Outcome.check_eq_ok.1 e).1

end Readings

section Returns
open Outcome

/-- A lack of room is an error that is returned. -/
lemma Bits.avoids_append (b : Bits) (xs : List Bool) (cause : Panic) :
    Avoids (.panic cause) (b.append xs) := by
  rw [append]
  split
  · exact avoids_ok _
  · refine avoids_error fun same => ?_
    cases same

/-- What is planned without a panic is appended without one. -/
lemma Bits.avoids_follow (b : Bits) {plan : Except Error Plan} {cause : Panic}
    (planned : Avoids (.panic cause) plan) : Avoids (.panic cause) (b.follow plan) := by
  refine planned.bind fun p _ => ?_
  have ensured : Avoids (.panic cause) (b.ensure p.room) := Avoids.check nofun (avoids_ok _)
  exact ensured.bind fun _ _ => b.avoids_append _ cause

/-- No write panics. -/
lemma Bits.Write.avoids_run (w : Write) (b : Bits) (cause : Panic) :
    Avoids (.panic cause) (w.run b) := by
  rw [run_eq_follow]
  apply avoids_follow
  cases w with
  | bit | repeated | all => exact avoids_ok _
  | bits | bytes | text => exact Avoids.check nofun (avoids_ok _)
  | word | wide | nat | coins => exact Avoids.guard nofun (avoids_ok _)
  | signedWord => exact Avoids.check nofun (avoids_ok _)
  | int => exact Avoids.check nofun (Avoids.guard nofun (avoids_ok _))
  | address value =>
    cases value with
    | none => exact avoids_ok _
    | some a => exact avoids_ok _

/-- Too few bits are an error that is returned. -/
lemma Bits.avoids_ensureReadable (b : Bits) (offset count : Nat) (cause : Panic) :
    Avoids (.panic cause) (b.ensureReadable offset count) :=
  Avoids.check nofun (avoids_ok _)

/-- No read of a bit panics. -/
lemma Bits.avoids_bitAt (b : Bits) (offset : Nat) (cause : Panic) :
    Avoids (.panic cause) (b.bitAt offset) := by
  rw [bitAt]
  split
  · exact avoids_ok _
  · refine avoids_error fun same => ?_
    cases same

/-- No read of a word panics. -/
lemma Bits.avoids_wordAt (b : Bits) (w offset width : Nat) (cause : Panic) :
    Avoids (.panic cause) (b.wordAt w offset width) :=
  Avoids.guard nofun ((b.avoids_ensureReadable offset width cause).bind fun _ _ => avoids_ok _)

/-- A part of some bytes whose end fits into a machine word is appended if it is there. -/
lemma Bits.writeFrom_eq (b : Bits) (arith : Arithmetic) (source : List UInt8) {offset count : Nat}
    (fits : offset + count < Arithmetic.limit) :
    b.writeFrom arith source offset count =
      if offset + count ≤ 8 * source.length then
        b.append (((Octets.unpack source).drop offset).take count)
      else .error (.underrun .bits count (8 * source.length - offset)) := by
  have planned : Plan.part arith source offset count =
      Plan.range source offset (offset + count) count := by
    rw [Plan.part, Arithmetic.size_of_lt fits]
    rfl
  rw [writeFrom, planned, Plan.range]
  split
  case isTrue inside =>
    rw [Nat.add_sub_cancel_left]
    refine Write.ensure_append b ?_
    show (List.take count (List.drop offset (Octets.unpack source))).length = count
    rw [List.length_take, List.length_drop, Octets.length_unpack]
    omega
  case isFalse => rfl

end Returns

section Effects
variable {t : Tape}

/-- These bits are the next ones, and the read position moves over them. -/
structure Buffer.Reads (b : Buffer) (xs : List Bool) (b' : Buffer) : Prop where
  next : xs <+: b.bits.drop b.position
  moved : b' = { b with position := b.position + xs.length }

/-- What a step that succeeds does to the bits: a write appends what denotes its value, and a read
gives what the next bits denote. -/
def Tape.Step.Effect : (s : Step) → Buffer → s.Result → Buffer → Prop
  | write w, b, _, b' => b'.position = b.position ∧ ∃ xs, w.Denotes xs ∧ b'.bits = b.bits ++ xs
  | writePart _ source offset count, b, _, b' =>
    b'.position = b.position ∧ offset + count ≤ 8 * source.length ∧
      b'.bits = b.bits ++ ((Octets.unpack source).drop offset).take count
  | readBit, b, bit, b' => ∃ xs, b.Reads xs b' ∧ xs = [bit]
  | readWord width, b, word, b' =>
    ∃ xs, b.Reads xs b' ∧ xs.length = width ∧ Binary.toNat xs = BitVec.toNat word
  | readSignedWord width, b, word, b' =>
    ∃ xs, b.Reads xs b' ∧ xs.length = width ∧ Binary.toInt xs = BitVec.toInt word
  | skip count, b, _, b' => ∃ xs, b.Reads xs b' ∧ xs.length = count
  | rewind, b, _, b' => b' = { b with position := 0 }

/-- The end of a part of some bytes is too large for a machine word. -/
def Tape.Step.Overflows : Step → Prop
  | writePart _ _ offset count => Arithmetic.limit ≤ offset + count
  | _ => False

/-- An outcome with some effect, or an error that is returned and changes nothing. -/
def Buffer.Atomic {α : Type} (b : Buffer) (effect : α → Buffer → Prop) :
    EStateM.Result Error Buffer α → Prop
  | .ok a b' => effect a b'
  | .error e b' => b' = b ∧ ∀ cause, e ≠ .panic cause

/-- A read whose value stands next, and which does not panic, is atomic. -/
lemma atomic_read {α : Type} {g : Bits → Nat → Except Error α} {P : α → List Bool → Prop}
    {width : Nat} (returns : ∀ cause, Outcome.Avoids (.panic cause) (g t.bits t.position))
    (reads : ∀ a, g t.bits t.position = .ok a →
      (t.bits.range t.position width).length = width ∧ P a (t.bits.range t.position width)) :
    t.pack.Atomic (fun a b' => ∃ xs, t.pack.Reads xs b' ∧ P a xs)
      (Tape.packOutcome (Tape.take g width t)) := by
  rw [Tape.take_eq]
  cases seen : g t.bits t.position with
  | ok a =>
    obtain ⟨len, holds⟩ := reads a seen
    refine ⟨t.bits.range t.position width, ⟨?_, ?_⟩, holds⟩
    · rw [Buffer.bits_pack]
      exact List.take_prefix _ _
    · rw [len]
      rfl
  | error e =>
    refine ⟨rfl, fun cause same => returns cause ?_⟩
    rw [seen, same]

/-- A write that has its effect where it succeeds, and does not panic, is atomic. -/
lemma atomic_write {f : Bits → Except Error Bits} {E : Unit → Buffer → Prop}
    (returns : ∀ cause, Outcome.Avoids (.panic cause) (f t.bits))
    (writes : ∀ bits, f t.bits = .ok bits → E () (Tape.pack ⟨bits, t.position⟩)) :
    t.pack.Atomic E (Tape.packOutcome (Tape.write f t)) := by
  rw [Tape.write]
  cases run : f t.bits with
  | ok bits => exact writes bits run
  | error e =>
    refine ⟨rfl, fun cause same => returns cause ?_⟩
    rw [run, same]

/-- Each step on the bits of a tape has its effect or returns an error, unless a size overflows. -/
theorem Tape.Step.atomic {s : Step} (fits : ¬ s.Overflows) (within : t.position ≤ t.bits.length) :
    t.pack.Atomic (s.Effect t.pack) (s.onBuffer t.pack) := by
  rw [onBuffer_pack s within]
  cases s with
  | write w =>
    refine atomic_write (f := w.run) (w.avoids_run t.bits) fun bits run => ?_
    obtain ⟨xs, denotes, appended⟩ := Bits.Write.run_eq_ok.1 run
    refine ⟨rfl, xs, denotes, ?_⟩
    rw [Buffer.bits_pack, Buffer.bits_pack, appended]
  | writePart arith source offset count =>
    have steps := Bits.writeFrom_eq t.bits arith source (Nat.not_le.1 fits)
    refine atomic_write (f := (·.writeFrom arith source offset count)) ?_ fun bits run => ?_
    · intro cause
      rw [steps]
      exact Outcome.Avoids.check nofun (Bits.avoids_append _ _ cause)
    · rw [steps] at run
      obtain ⟨inside, run⟩ := Outcome.check_eq_ok.1 run
      refine ⟨rfl, inside, ?_⟩
      rw [Buffer.bits_pack, Buffer.bits_pack, Bits.Write.append_eq_ok.1 run]
  | readBit =>
    refine atomic_read (g := Bits.bitAt) (P := fun bit xs => xs = [bit]) ?_ ?_
    · exact Bits.avoids_bitAt t.bits t.position
    · intro bit seen
      have range := Bits.range_of_bitAt seen
      exact ⟨congrArg List.length range, range⟩
  | readWord width =>
    refine atomic_read (g := fun b offset => b.wordAt 64 offset width)
      (P := fun word xs => xs.length = width ∧ Binary.toNat xs = word.toNat) ?_ ?_
    · exact Bits.avoids_wordAt t.bits 64 t.position width
    · intro word seen
      have range := Bits.range_of_wordAt seen
      exact ⟨range.1, range⟩
  | readSignedWord width =>
    refine atomic_read (g := fun b offset => b.signedWordAt 64 offset width)
      (P := fun word xs => xs.length = width ∧ Binary.toInt xs = word.toInt) ?_ ?_
    · intro cause
      exact (Bits.avoids_wordAt t.bits 64 t.position width cause).bind fun _ _ =>
        Outcome.avoids_ok _
    · intro word seen
      have range := Bits.range_of_signedWordAt seen
      exact ⟨range.1, range⟩
  | skip count =>
    refine atomic_read (g := fun b offset => b.ensureReadable offset count)
      (P := fun _ xs => xs.length = count) ?_ ?_
    · exact Bits.avoids_ensureReadable t.bits t.position count
    · intro _ seen
      have range := Bits.length_range_of_ensureReadable seen
      exact ⟨range, range⟩
  | rewind => rfl

/-- A buffer has as many bits as are in use. -/
lemma Buffer.length_bits (b : Buffer) : b.bits.length = b.length := by
  rw [bits, List.length_map, List.length_range]

/-- The read position stays within bits to which others are appended. -/
lemma Buffer.within_of_append {b b' : Buffer} {xs : List Bool} (position : b'.position = b.position)
    (appended : b'.bits = b.bits ++ xs) (within : b.position ≤ b.length) :
    b'.position ≤ b'.length := by
  have longer := congrArg List.length appended
  rw [List.length_append, Buffer.length_bits, Buffer.length_bits] at longer
  rw [position, longer]
  exact Nat.le_trans within (Nat.le_add_right _ _)

/-- Bits that have been read are within those in use. -/
lemma Buffer.Reads.within {b b' : Buffer} {xs : List Bool} (h : b.Reads xs b')
    (within : b.position ≤ b.length) : b'.position ≤ b'.length := by
  obtain ⟨next, rfl⟩ := h
  have le := next.length_le
  rw [List.length_drop, Buffer.length_bits] at le
  exact Nat.add_le_of_le_sub' within le

/-- The read position stays within the bits. -/
lemma Tape.Step.Effect.within {s : Step} {b b' : Buffer} {a : s.Result} (h : s.Effect b a b')
    (within : b.position ≤ b.length) : b'.position ≤ b'.length := by
  cases s with
  | write w =>
    obtain ⟨position, xs, _, appended⟩ := h
    exact Buffer.within_of_append position appended within
  | writePart arith source offset count =>
    obtain ⟨position, _, appended⟩ := h
    exact Buffer.within_of_append position appended within
  | readBit | readWord | readSignedWord | skip =>
    obtain ⟨xs, reads, _⟩ := h
    exact reads.within within
  | rewind =>
    cases h
    exact Nat.zero_le _

end Effects

namespace Buffer

/-- The buffers that can be made: without bits or from bytes, and then by steps that succeed or
fail. -/
inductive Reachable : Buffer → Prop where
  | empty : Reachable empty
  | ofBytes {bytes : List UInt8} {count : Nat} {b : Buffer} :
    Buffer.ofBytes bytes count = .ok b →
    Reachable b
  | ofTaggedBytes {bytes : List UInt8} {whole : Bool} {b : Buffer} :
    Buffer.ofTaggedBytes bytes whole = .ok b →
    Reachable b
  | ok {s : Tape.Step} {a : s.Result} {b b' : Buffer} :
    Reachable b →
    s.onBuffer b = .ok a b' →
    Reachable b'
  | error {s : Tape.Step} {e : Error} {b b' : Buffer} :
    Reachable b →
    s.onBuffer b = .error e b' →
    Reachable b'

/-- A buffer that is made of a bit string packs the tape at its front. -/
lemma exists_tape_of_map {x : Except Error Bits} {b : Buffer}
    (e : x.map (fun bits => (Tape.ofBits bits).pack) = .ok b) :
    ∃ t : Tape, t.position ≤ t.bits.length ∧ t.pack = b := by
  cases x with
  | error => cases e
  | ok bits =>
    cases e
    exact ⟨Tape.ofBits bits, Nat.zero_le _, rfl⟩

/-- A checked build panics if the end of a part of some bytes is too large for a machine word. -/
lemma checked_of_overflow {source : List UInt8} {offset count : Nat}
    (overflows : Arithmetic.limit ≤ offset + count) (b : Buffer) :
    Tape.Step.onBuffer (.writePart .checked source offset count) b =
      .error (.panic .overflow) b := by
  show follow (Bits.Plan.part .checked source offset count) b = .error (.panic .overflow) b
  rw [Bits.Plan.part, Arithmetic.checked_size overflows]
  rfl

/-- The other build appends no bits then, whether it succeeds or fails. -/
lemma wrapping_of_overflow {source : List UInt8} {offset count : Nat}
    (overflows : Arithmetic.limit ≤ offset + count) (b : Buffer) :
    Tape.Step.onBuffer (.writePart .wrapping source offset count) b = .ok () b ∨
      ∃ e, Tape.Step.onBuffer (.writePart .wrapping source offset count) b = .error e b := by
  have planned : Bits.Plan.part .wrapping source offset count =
      Bits.Plan.range source offset ((offset + count) % Arithmetic.limit) count := by
    rw [Bits.Plan.part, Arithmetic.wrapping_size]
    rfl
  show follow (Bits.Plan.part .wrapping source offset count) b = .ok () b ∨
    ∃ e, follow (Bits.Plan.part .wrapping source offset count) b = .error e b
  rw [planned, Bits.Plan.range]
  by_cases inside : (offset + count) % Arithmetic.limit ≤ 8 * source.length
  case neg =>
    rw [if_neg inside]
    exact .inr ⟨_, rfl⟩
  case pos =>
    rw [if_pos inside, follow]
    by_cases room : count ≤ Bits.capacity - b.length
    case neg => exact .inr ⟨_, if_neg room⟩
    case pos =>
      -- there is room for fewer bits than a word counts, so the end has wrapped around to a place
      -- in front of the start
      have none : (offset + count) % Arithmetic.limit - offset = 0 := by
        rw [Bits.capacity] at room
        rw [Arithmetic.limit_eq] at overflows ⊢
        omega
      refine .inl ((if_pos room).trans ?_)
      dsimp only
      rw [none, List.take_zero, List.foldl_nil]

/-- Whatever a step does, also if it overflows, the read position stays within the bits, and an
error changes nothing. -/
lemma onBuffer_keeps (s : Tape.Step) {t : Tape} (within : t.position ≤ t.bits.length) :
    (∃ a b', s.onBuffer t.pack = .ok a b' ∧ b'.position ≤ b'.length) ∨
      ∃ e, s.onBuffer t.pack = .error e t.pack := by
  by_cases overflows : s.Overflows
  case neg =>
    have atomic := Tape.Step.atomic overflows within
    cases run : s.onBuffer t.pack with
    | ok a b' =>
      rw [run] at atomic
      exact .inl ⟨a, b', rfl, Tape.Step.Effect.within atomic within⟩
    | error e b' =>
      rw [run] at atomic
      exact .inr ⟨e, by rw [atomic.1]⟩
  case pos =>
    cases s with
    | writePart arith source offset count =>
      cases arith with
      | checked => exact .inr ⟨_, checked_of_overflow overflows t.pack⟩
      | wrapping =>
        exact (wrapping_of_overflow overflows t.pack).imp_left fun still => ⟨_, _, still, within⟩
    | write | readBit | readWord | readSignedWord | skip | rewind => exact overflows.elim

/-- Each of them packs the bits of a tape. -/
theorem Reachable.exists_tape {b : Buffer} (h : Reachable b) :
    ∃ t : Tape, t.position ≤ t.bits.length ∧ t.pack = b := by
  induction h with
  | empty => exact ⟨Tape.ofBits Bits.empty, Nat.zero_le _, rfl⟩
  | ofBytes e => exact exists_tape_of_map ((ofBytes_eq _ _).symm.trans e)
  | ofTaggedBytes e => exact exists_tape_of_map ((ofTaggedBytes_eq _ _).symm.trans e)
  | @ok s a b b' _ run ih =>
    obtain ⟨t, within, rfl⟩ := ih
    have within' : b'.position ≤ b'.length := by
      rcases onBuffer_keeps s within with ⟨_, _, done, le⟩ | ⟨_, failed⟩
      · rw [done] at run
        cases run
        exact le
      · rw [failed] at run
        cases run
    rw [s.onBuffer_pack within] at run
    cases out : s.onTape t with
    | ok _ t' =>
      rw [out] at run
      cases run
      exact ⟨t', within', rfl⟩
    | error =>
      rw [out] at run
      cases run
  | @error s e b b' _ run ih =>
    obtain ⟨t, within, rfl⟩ := ih
    rcases onBuffer_keeps s within with ⟨_, _, done, _⟩ | ⟨_, failed⟩
    · rw [done] at run
      cases run
    · rw [failed] at run
      cases run
      exact ⟨t, within, rfl⟩

/-- A buffer that can be made has as many bytes as its bits take, with zeros behind them, and is
equal to any other one with the same bits. Each step appends or reads the bits that denote its value,
or returns an error and changes nothing, unless the end of a part of some bytes is too large for a
machine word: nothing is appended then, but a checked build panics, and the other one may succeed.
The steps do the same on the tape with these bits. -/
theorem steps_on_bits {b : Buffer} (h : Reachable b) :
    (b.bytes.length = Binary.octetsFor b.length ∧ (∀ i, b.length ≤ i → b.bitAt i = false) ∧
      b.length ≤ 1023 ∧ b.position ≤ b.length) ∧
    (∀ b', Reachable b' → b.bits = b'.bits → b.bytes = b'.bytes ∧ (b == b') = true) ∧
    (∀ s : Tape.Step, ¬ s.Overflows → b.Atomic (s.Effect b) (s.onBuffer b)) ∧
    (∀ source offset count, Arithmetic.limit ≤ offset + count →
      Tape.Step.onBuffer (.writePart .checked source offset count) b =
          .error (.panic .overflow) b ∧
        (Tape.Step.onBuffer (.writePart .wrapping source offset count) b = .ok () b ∨
          ∃ e, Tape.Step.onBuffer (.writePart .wrapping source offset count) b = .error e b)) ∧
    ∃ t : Tape, t.bits.toList = b.bits ∧ t.pack = b ∧
      ∀ s : Tape.Step, s.onBuffer b = Tape.packOutcome (s.onTape t) := by
  obtain ⟨t, within, rfl⟩ := h.exists_tape
  refine ⟨⟨Octets.length_pack _, ?_, t.bits.length_le, within⟩, ?_, ?_, ?_, ?_⟩
  · intro i behind
    rw [bitAt_pack]
    exact List.getD_eq_default _ _ behind
  · intro b' h' same
    obtain ⟨t', _, rfl⟩ := h'.exists_tape
    rw [bits_pack, bits_pack] at same
    have equal : t.bits = t'.bits := Bits.ext same
    have bytes : t.pack.bytes = t'.pack.bytes := congrArg Bits.toBytes equal
    have length : t.pack.length = t'.pack.length := congrArg Bits.length equal
    exact ⟨bytes, Bool.and_eq_true_iff.2 ⟨beq_iff_eq.2 length, beq_iff_eq.2 bytes⟩⟩
  · intro s fits
    exact Tape.Step.atomic fits within
  · intro source offset count overflows
    exact ⟨checked_of_overflow overflows _, wrapping_of_overflow overflows _⟩
  · exact ⟨t, (bits_pack t).symm, rfl, fun s => s.onBuffer_pack within⟩

/-- Three ones and a negative number behind them, of which two bits have been read. A bit of one
byte from the largest offset on is not appended. -/
theorem steps_on_bits_negative :
    ∃ b : Buffer, Reachable b ∧ b.bytes = [0xFF, 0x40] ∧ b.length = 10 ∧ b.position = 2 ∧
      b.bytes.length = Binary.octetsFor b.length ∧
      b.Atomic ((Tape.Step.readSignedWord 8).Effect b) (Tape.Step.onBuffer (.readSignedWord 8) b) ∧
      Tape.Step.onBuffer (.writePart .checked [0xFF] (2 ^ 64 - 1) 1) b =
        .error (.panic .overflow) b ∧
      Tape.Step.onBuffer (.writePart .wrapping [0xFF] (2 ^ 64 - 1) 1) b = .ok () b := by
  have made : Buffer.ofBytes [0xFF] 3 = .ok ⟨[0xE0], 3, 0⟩ := rfl
  have written : Tape.Step.onBuffer (.write (.signedWord (BitVec.ofInt 64 (-3)) 7)) ⟨[0xE0], 3, 0⟩ =
      .ok () ⟨[0xFF, 0x40], 10, 0⟩ := by rfl
  have failed : Tape.Step.onBuffer (.readWord 11) ⟨[0xFF, 0x40], 10, 0⟩ =
      .error (.underrun .bits 11 10) ⟨[0xFF, 0x40], 10, 0⟩ := rfl
  have read : Tape.Step.onBuffer (.readWord 2) ⟨[0xFF, 0x40], 10, 0⟩ =
      .ok (3 : BitVec 64) ⟨[0xFF, 0x40], 10, 2⟩ := by rfl
  have reachable : Reachable ⟨[0xFF, 0x40], 10, 2⟩ :=
    .ok (.error (.ok (.ofBytes made) written) failed) read
  obtain ⟨⟨whole, _⟩, _, atomic, overflow, _⟩ := steps_on_bits reachable
  exact ⟨_, reachable, rfl, rfl, rfl, whole, atomic (.readSignedWord 8) id,
    (overflow [0xFF] (2 ^ 64 - 1) 1 (by decide)).1, rfl⟩

end Buffer

end CellBag
