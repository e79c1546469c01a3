import CellBag.Proofs.Bits.Lookup
import Mathlib

/-!
# Ways in which readers end

The positional readers do on the bytes of a buffer what they do on its bits (`Reader.onBuffer_pack`).
A reader that is asked for too much says so, and any other one finds the bytes that it looks for,
with one exception: a range without width at a multiple of eight behind the last byte is copied
from bytes that are not there (`Reader.Outside`). `Reader.ends_on_buffers` says how each reader ends
at each offset.
-/

namespace CellBag

namespace Binary

/-- In two's complement a one in front takes away the power of two of the width. -/
lemma toInt_cons_eq (sign : Bool) (bits : List Bool) :
    toInt (sign :: bits) =
      if sign then (toNat (sign :: bits) : Int) - 2 ^ (bits.length + 1)
      else toNat (sign :: bits) := by
  rw [toInt, toNat_cons]
  cases sign with
  | false =>
    rw [if_neg Bool.false_ne_true, Bool.toNat_false]
    push_cast
    ring
  | true =>
    rw [if_pos rfl, Bool.toNat_true]
    push_cast
    ring

end Binary

/-- The positional readers, with the widths that they are asked for. -/
inductive Reader where
  | bit
  | word (w width : Nat)
  | signedWord (width : Nat)
  | nat (width : Nat)
  | int (width : Nat)
  | bytes (width : Nat)
  | part (width : Nat)

namespace Reader

/-- What a reader gives. -/
def Result : Reader → Type
  | bit => Bool
  | word w _ => BitVec w
  | signedWord _ => BitVec 64
  | nat _ => Nat
  | int _ => Int
  | bytes _ => List UInt8
  | part _ => Buffer

/-- The reader on the bytes of a buffer. -/
def onBuffer : (r : Reader) → Buffer → Nat → Except Error r.Result
  | bit, b, offset => b.usedBitAt offset
  | word w width, b, offset => b.wordAt w offset width
  | signedWord width, b, offset => b.signedWordAt offset width
  | nat width, b, offset => b.natAt offset width
  | int width, b, offset => b.intAt offset width
  | bytes width, b, offset => b.bytesAt offset width
  | part width, b, offset => b.substring offset width

/-- The reader on bits, of which a part is packed. -/
def onBits : (r : Reader) → Bits → Nat → Except Error r.Result
  | bit, b, offset => b.bitAt offset
  | word w width, b, offset => b.wordAt w offset width
  | signedWord width, b, offset => b.signedWordAt 64 offset width
  | nat width, b, offset => b.natAt offset width
  | int width, b, offset => b.intAt offset width
  | bytes width, b, offset => b.bytesAt offset width
  | part width, b, offset => (b.substring offset width).map fun bits => (Tape.ofBits bits).pack

/-- How many bits a reader is asked for. -/
def width : Reader → Nat
  | bit => 1
  | word _ width | signedWord width | nat width | int width | bytes width | part width => width

/-- The largest width that a reader takes, if there is one. -/
def limit : Reader → Option Nat
  | word w _ => some w
  | signedWord _ => some 64
  | _ => none

/-- Whether a reader begins with the bytes of its range, and not with single bits. -/
def takesBytes : Reader → Bool
  | nat _ | int _ | bytes _ | part _ => true
  | _ => false

end Reader

namespace Buffer
variable {t : Tape} {offset width : Nat}

/-- A word is looked up bit by bit where it stands on the tape. -/
lemma wordAt_pack (t : Tape) (w offset width : Nat) :
    t.pack.wordAt w offset width = t.bits.wordAt w offset width := by
  rw [wordAt, Bits.wordAt, ensureRange_pack, Bits.ensureReadable]
  by_cases left : width ≤ t.bits.length - offset
  case neg =>
    rw [if_neg left]
    rfl
  case pos =>
    have each : ∀ i ∈ List.range' offset width, ∀ word : BitVec w,
        (do return Bits.pushBit word (← t.pack.lookUp i)) =
          (.ok (Bits.pushBit word (t.pack.bitAt i)) : Except Error (BitVec w)) := by
      intro i mem word
      have bounds := List.mem_range'_1.1 mem
      rw [lookUp_pack (by omega)]
      rfl
    have folded := Outcome.foldlM_eq_ok each 0
    rw [← List.foldl_map, ← rangeAt, rangeAt_pack left] at folded
    rw [if_pos left, Outcome.ok_bind, Outcome.ok_bind, folded]
    rfl

/-- A signed word is looked up where it stands on the tape. -/
lemma signedWordAt_pack (t : Tape) (offset width : Nat) :
    t.pack.signedWordAt offset width = t.bits.signedWordAt 64 offset width := by
  rw [signedWordAt, Bits.signedWordAt, wordAt_pack]

/-- A natural number is looked up where it stands on the tape. -/
lemma natAt_pack (t : Tape) (offset width : Nat) :
    t.pack.natAt offset width = t.bits.natAt offset width := by
  rw [natAt, Bits.natAt, bytesAt_pack]

/-- A natural number that is read is denoted by a range that is there. -/
lemma natAt_eq_ok {b : Bits} {n : Nat} (e : b.natAt offset width = .ok n) :
    width ≤ b.length - offset ∧ n = Binary.toNat (b.range offset width) := by
  obtain ⟨bytes, run, e⟩ := Outcome.bind_eq_ok.1 e
  obtain ⟨left, rfl⟩ := Bits.bytesAt_eq_ok run
  have shifted := Bits.toNat_pack_shift (b.range offset width)
  rw [Bits.length_range left] at shifted
  exact ⟨left, (Outcome.pure_eq_ok.1 e).symm.trans shifted⟩

/-- The sign of a number is the bit at its offset. -/
lemma intAt_pack (t : Tape) (offset width : Nat) :
    t.pack.intAt offset width = t.bits.intAt offset width := by
  rw [intAt, Bits.intAt, natAt_pack]
  cases run : t.bits.natAt offset width with
  | error e => rfl
  | ok n =>
    obtain ⟨left, rfl⟩ := natAt_eq_ok run
    have len := Bits.length_range left
    have denoted := Binary.toInt_eq (t.bits.range offset width)
    rw [len] at denoted
    rw [Outcome.ok_bind, Outcome.ok_bind, ← denoted]
    cases range : t.bits.range offset width with
    | nil =>
      rw [range] at len
      obtain rfl : 0 = width := len
      rfl
    | cons sign bits =>
      rw [range, List.length_cons] at len
      have used : offset < t.bits.length := by omega
      have first : t.pack.bitAt offset = sign := by
        have head := congrArg List.head? range
        rw [Bits.range, List.head?_take, List.head?_drop, if_neg (by omega)] at head
        rw [bitAt_pack, List.getD_eq_getElem?_getD, head]
        rfl
      rw [if_neg (by omega), lookUp_pack used, Outcome.ok_bind, first, Binary.toInt_cons_eq, len,
        Nat.one_shiftLeft, Nat.cast_pow]
      cases sign with
      | false => rfl
      | true => rfl

end Buffer

namespace Reader
variable {r : Reader} {b : Buffer} {t : Tape} {offset : Nat}

/-- A reader does on bytes what it does on bits. -/
theorem onBuffer_pack (r : Reader) (t : Tape) (offset : Nat) :
    r.onBuffer t.pack offset = r.onBits t.bits offset := by
  cases r with
  | bit => exact Buffer.usedBitAt_pack t offset
  | word w width => exact Buffer.wordAt_pack t w offset width
  | signedWord width => exact Buffer.signedWordAt_pack t offset width
  | nat width => exact Buffer.natAt_pack t offset width
  | int width => exact Buffer.intAt_pack t offset width
  | bytes width => exact Buffer.bytesAt_pack t offset width
  | part width => exact Buffer.substring_pack t offset width

/-- A reader that is asked for no bits copies bytes from behind the last one. -/
structure Outside (r : Reader) (b : Buffer) (offset : Nat) : Prop where
  takesBytes : r.takesBytes = true
  width_eq : r.width = 0
  whole : offset % 8 = 0
  behind : b.bytes.length < offset / 8

/-- A reader takes so many bits, and they are in use. -/
structure Answers (r : Reader) (b : Buffer) (offset : Nat) : Prop where
  narrow : ∀ w, r.limit = some w → r.width ≤ w
  left : r.width ≤ b.length - offset
  inside : ¬ r.Outside b offset

/-- The ways in which a reader ends, and when it does so. -/
inductive Ends (r : Reader) (b : Buffer) (offset : Nat) : Except Error r.Result → Prop where
  | tooWide {w : Nat} :
    r.limit = some w →
    w < r.width →
    Ends r b offset (.error (.intOverflow w))
  | tooFew :
    (∀ w, r.limit = some w → r.width ≤ w) →
    b.length - offset < r.width →
    Ends r b offset (.error (.underrun .bits r.width (b.length - offset)))
  | outside :
    r.Outside b offset →
    Ends r b offset (.error (.panic (.range (offset / 8) (offset / 8) b.bytes.length)))
  | answer (a : r.Result) :
    r.Answers b offset →
    Ends r b offset (.ok a)

section Ends
variable {r r' : Reader} {x : Except Error r.Result} {f : r.Result → Except Error r'.Result}

/-- A reader that works on what another one gives ends as the other one does, if it takes all of
it. -/
lemma Ends.bind (h : r.Ends b offset x) (width : r.width = r'.width) (limit : r.limit = r'.limit)
    (takes : r.takesBytes = r'.takesBytes) (total : ∀ a, x = .ok a → ∃ a', f a = .ok a') :
    r'.Ends b offset (x >>= f) := by
  cases h with
  | tooWide taken wide => exact .tooWide (limit ▸ taken) (width ▸ wide)
  | tooFew narrow few =>
    rw [limit, width] at narrow
    rw [width] at few ⊢
    exact .tooFew narrow few
  | outside out => exact .outside ⟨takes ▸ out.takesBytes, width ▸ out.width_eq, out.whole, out.behind⟩
  | answer a answers =>
    obtain ⟨a', run⟩ := total a rfl
    rw [Outcome.ok_bind, run]
    refine .answer a' ⟨?_, width ▸ answers.left, fun out => answers.inside ?_⟩
    · rw [← limit, ← width]
      exact answers.narrow
    · exact ⟨takes ▸ out.takesBytes, width ▸ out.width_eq, out.whole, out.behind⟩

end Ends

/-- A bit is read, or it is not there. -/
lemma ends_bit (t : Tape) (offset : Nat) : bit.Ends t.pack offset (t.bits.bitAt offset) := by
  have narrow : ∀ w, bit.limit = some w → bit.width ≤ w := by rintro w ⟨⟩
  rw [Bits.bitAt]
  rcases Nat.lt_or_ge offset t.bits.toList.length with used | behind
  · rw [List.getElem?_eq_getElem used]
    exact .answer _ ⟨narrow, Nat.sub_pos_of_lt used, fun out => Bool.false_ne_true out.takesBytes⟩
  · have none : t.pack.length - offset = 0 := Nat.sub_eq_zero_of_le behind
    have few := Ends.tooFew narrow (none ▸ Nat.zero_lt_one)
    rw [none] at few
    rw [List.getElem?_eq_none behind]
    exact few

/-- A word is too wide, is not there, or is read. -/
lemma ends_word (t : Tape) (w offset width : Nat) :
    (word w width).Ends t.pack offset (t.bits.wordAt w offset width) := by
  rcases Nat.lt_or_ge w width with wide | fits
  · have refused : t.bits.wordAt w offset width = .error (.intOverflow w) := if_pos wide
    rw [refused]
    exact .tooWide rfl wide
  · have narrow : ∀ w', (word w width).limit = some w' → width ≤ w' := by
      rintro _ ⟨⟩
      exact fits
    rcases Nat.lt_or_ge (t.bits.length - offset) width with few | left
    · rw [Bits.wordAt_of_lt fits few]
      exact .tooFew narrow few
    · rw [Bits.wordAt_of_le fits left]
      exact .answer _ ⟨narrow, left, fun out => Bool.false_ne_true out.takesBytes⟩

/-- Bytes are not there, begin behind the last byte, or are read. -/
lemma ends_bytes (t : Tape) (offset width : Nat) :
    (bytes width).Ends t.pack offset (t.bits.bytesAt offset width) := by
  have narrow : ∀ w, (bytes width).limit = some w → width ≤ w := by rintro w ⟨⟩
  rcases Nat.lt_or_ge (t.bits.length - offset) width with few | left
  · rw [Bits.bytesAt_of_lt few]
    exact .tooFew narrow few
  · by_cases out : (bytes width).Outside t.pack offset
    case pos =>
      obtain rfl : width = 0 := out.width_eq
      have refused : t.bits.bytesAt offset 0 =
          .error (.panic (.range (offset / 8) (offset / 8) t.bits.toBytes.length)) := by
        rw [Bits.bytesAt, Bits.ensureReadable, if_pos left, Outcome.ok_bind,
          if_pos ⟨out.whole, out.behind⟩]
        rfl
      rw [refused]
      exact .outside out
    case neg =>
      -- a range with bits begins within the bits, so that the copy begins within the bytes
      have there : ¬ (offset % 8 = 0 ∧ t.bits.toBytes.length < offset / 8) := by
        rintro ⟨whole, behind⟩
        refine out ⟨rfl, ?_, whole, behind⟩
        rw [Bits.toBytes, Octets.length_pack, Binary.octetsFor, ← Bits.length] at behind
        show width = 0
        omega
      have read : t.bits.bytesAt offset width = .ok (Octets.pack (t.bits.range offset width)) := by
        rw [Bits.bytesAt, Bits.ensureReadable, if_pos left, Outcome.ok_bind, if_neg there]
        rfl
      rw [read]
      exact .answer _ ⟨narrow, left, out⟩

/-- A natural number is read as its bytes are. -/
lemma ends_nat (t : Tape) (offset width : Nat) :
    (nat width).Ends t.pack offset (t.bits.natAt offset width) :=
  (ends_bytes t offset width).bind rfl rfl rfl fun _ _ => ⟨_, rfl⟩

/-- The bits of a reader end as its bytes do. -/
theorem ends_onBits (r : Reader) (t : Tape) (offset : Nat) :
    r.Ends t.pack offset (r.onBits t.bits offset) := by
  cases r with
  | bit => exact ends_bit t offset
  | word w width => exact ends_word t w offset width
  | signedWord width => exact (ends_word t 64 offset width).bind rfl rfl rfl fun _ _ => ⟨_, rfl⟩
  | nat width => exact ends_nat t offset width
  | int width => exact (ends_nat t offset width).bind rfl rfl rfl fun _ _ => ⟨_, rfl⟩
  | bytes width => exact ends_bytes t offset width
  | part width =>
    have steps : (part width).onBits t.bits offset = (do
        let bytes ← t.bits.bytesAt offset width
        (Bits.ofBytes bytes width).map fun bits => (Tape.ofBits bits).pack) := by
      show (t.bits.substring offset width).map _ = _
      rw [Bits.substring]
      cases t.bits.bytesAt offset width with
      | error => rfl
      | ok => rfl
    rw [steps]
    refine (ends_bytes t offset width).bind rfl rfl rfl fun bytes run => ?_
    obtain ⟨left, rfl⟩ := Bits.bytesAt_eq_ok run
    have made := Bits.ofBytes_pack (Bits.length_range_le t.bits offset width)
    rw [Bits.length_range left] at made
    rw [made]
    exact ⟨_, rfl⟩

/-- A reader panics only outside. -/
lemma Ends.panic_iff {x : Except Error r.Result} (h : r.Ends b offset x) :
    (∃ cause, x = .error (.panic cause)) ↔ r.Outside b offset := by
  constructor
  · rintro ⟨cause, rfl⟩
    cases h with
    | outside out => exact out
  · intro out
    cases h with
    | tooWide taken _ =>
      have takes := out.takesBytes
      cases r with
      | bit | word | signedWord => cases takes
      | nat | int | bytes | part => cases taken
    | tooFew _ few => exact absurd (out.width_eq ▸ few) (Nat.not_lt_zero _)
    | outside => exact ⟨_, rfl⟩
    | answer _ answers => exact absurd out answers.inside

/-- On every buffer that can be made and at every offset a reader is too wide, is asked for more bits
than are left, or answers from bytes that are there. It panics only if it is a reader of bytes which
is asked for no bits at a multiple of eight behind the last byte. -/
theorem ends_on_buffers {b : Buffer} (h : b.Reachable) (r : Reader) (offset : Nat) :
    r.Ends b offset (r.onBuffer b offset) ∧
      ((∃ cause, r.onBuffer b offset = .error (.panic cause)) ↔ r.Outside b offset) ∧
      ∃ t : Tape, t.pack = b ∧ r.onBuffer b offset = r.onBits t.bits offset := by
  obtain ⟨t, _, rfl⟩ := h.exists_tape
  have ends := r.ends_onBits t offset
  rw [← onBuffer_pack] at ends
  exact ⟨ends, ends.panic_iff, t, rfl, onBuffer_pack r t offset⟩

/-- No bits are found behind an empty buffer, but a reader of bytes panics there when they would
begin with a whole byte. -/
theorem ends_on_buffers_empty :
    Buffer.empty.Reachable ∧ (bytes 0).Outside .empty 8 ∧
      (bytes 0).onBuffer .empty 8 = .error (.panic (.range 1 1 0)) ∧
      (bytes 0).Ends .empty 8 (.error (.panic (.range 1 1 0))) ∧
      (bytes 0).onBuffer .empty 9 = .ok [] ∧
      (word 64 0).onBuffer .empty 8 = .ok (0 : BitVec 64) := by
  have run : (bytes 0).onBuffer .empty 8 = .error (.panic (.range 1 1 0)) := rfl
  have ends := ends_on_buffers .empty (bytes 0) 8
  exact ⟨.empty, ends.2.1.1 ⟨_, run⟩, run, run ▸ ends.1, rfl, rfl⟩

end Reader

end CellBag
