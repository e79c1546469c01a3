import CellBag.Address.Stored
import CellBag.Dictionary.Basic
import CellBag.Proofs.Arithmetic
import CellBag.Proofs.Atomic
import Mathlib

/-!
# Reads

A load reads a slice when it moves the read positions on within the cell, or fails and leaves them
where they were (`Load.Reads`). One that looks at a value first does because the value had to be
there (`Load.reads_take`), and any sequence of loads does when it runs atomically
(`Load.Advances.atomically`). A load in place gives what has been looked at (`Load.inPlace_take`).
-/

namespace CellBag

namespace Slice
variable {s t u : Slice}

/-- The read positions stand within the bits and the references. -/
structure Within (s : Slice) : Prop where
  bits_le : s.bitPosition ≤ s.cell.bits.length
  refs_le : s.refPosition ≤ s.cell.refs.length

/-- A slice reads on in the same cell: no read position goes back or leaves the cell. -/
structure Moves (s t : Slice) : Prop where
  cell_eq : t.cell = s.cell
  bits_le : s.bitPosition ≤ t.bitPosition
  refs_le : s.refPosition ≤ t.refPosition
  within : t.Within

/-- Reading on twice is reading on. -/
lemma Moves.trans (first : Moves s t) (second : Moves t u) : Moves s u :=
  ⟨second.cell_eq.trans first.cell_eq, first.bits_le.trans second.bits_le,
    first.refs_le.trans second.refs_le, second.within⟩

/-- A slice that stays where it is does not leave its cell. -/
lemma Within.moves_self (h : s.Within) : Moves s s :=
  ⟨rfl, Nat.le_refl _, Nat.le_refl _, h⟩

/-- A slice moves on over what is left of it. -/
lemma Within.moves_advance (h : s.Within) {bits refs : Nat} (left : bits ≤ s.bitsLeft)
    (left' : refs ≤ s.refsLeft) : Moves s (s.advance bits refs) :=
  ⟨rfl, Nat.le_add_right _ _, Nat.le_add_right _ _,
    Nat.add_le_of_le_sub' h.bits_le left, Nat.add_le_of_le_sub' h.refs_le left'⟩

/-- A slice moves on to its end. -/
lemma Within.moves_atEnd (h : s.Within) : Moves s s.atEnd :=
  ⟨rfl, h.bits_le, h.refs_le, Nat.le_refl _, Nat.le_refl _⟩

/-- Nothing is left of an empty slice. -/
lemma remaining_of_isEmpty (empty : s.isEmpty = true) :
    s.remainingBits = [] ∧ s.remainingRefs = [] := by
  obtain ⟨bits, refs⟩ := Bool.and_eq_true_iff.1 empty
  exact ⟨List.eq_nil_of_length_eq_zero ((List.length_drop ..).trans (beq_iff_eq.1 bits)),
    List.eq_nil_of_length_eq_zero ((List.length_drop ..).trans (beq_iff_eq.1 refs))⟩

/-- At its front a slice stands within its cell. -/
lemma within_ofCell (c : Cell) : (ofCell c).Within :=
  ⟨Nat.zero_le _, Nat.zero_le _⟩

end Slice

namespace Bits
variable {α β : Type} {width : Nat}

/-- A positional reader succeeds only where bits of this width stand behind the offset. -/
def Covers (f : Bits → Nat → Except Error α) (width : Nat) : Prop :=
  ∀ b offset a, f b offset = .ok a → width ≤ b.length - offset

/-- Bits that can be read are there. -/
lemma covers_ensureReadable (width : Nat) :
    Covers (fun b offset => b.ensureReadable offset width) width := by
  intro b offset _ e
  exact (Outcome.check_eq_ok.1 e).1

/-- A bit that is read is there. -/
lemma covers_bitAt : Covers bitAt 1 := by
  intro b offset bit e
  rw [bitAt] at e
  split at e
  case h_1 here =>
    obtain ⟨lt, _⟩ := List.getElem?_eq_some_iff.1 here
    exact Nat.sub_pos_of_lt lt
  case h_2 => cases e

/-- What follows a reader does not look at fewer bits. -/
lemma Covers.bind {f : Bits → Nat → Except Error α} {g : Bits → Nat → α → Except Error β}
    (covers : Covers f width) : Covers (fun b offset => f b offset >>= g b offset) width := by
  intro b offset _ e
  obtain ⟨a, first, _⟩ := Outcome.bind_eq_ok.1 e
  exact covers b offset a first

/-- A word that is read is there. -/
lemma covers_wordAt (w width : Nat) : Covers (fun b offset => b.wordAt w offset width) width := by
  intro b offset word e
  obtain ⟨_, e⟩ := Outcome.guard_eq_ok.1 e
  obtain ⟨_, readable, _⟩ := Outcome.bind_eq_ok.1 e
  exact covers_ensureReadable width b offset _ readable

/-- A signed word that is read is there. -/
lemma covers_signedWordAt (w width : Nat) :
    Covers (fun b offset => b.signedWordAt w offset width) width :=
  (covers_wordAt w width).bind

/-- The bits of bytes that are read are there. -/
lemma covers_bytesAt (width : Nat) : Covers (fun b offset => b.bytesAt offset width) width :=
  (covers_ensureReadable width).bind

/-- A part that is read is there. -/
lemma covers_substring (width : Nat) : Covers (fun b offset => b.substring offset width) width :=
  (covers_bytesAt width).bind

/-- A natural number that is read is there. -/
lemma covers_natAt (width : Nat) : Covers (fun b offset => b.natAt offset width) width :=
  (covers_bytesAt width).bind

/-- An integer that is read is there. -/
lemma covers_intAt (width : Nat) : Covers (fun b offset => b.intAt offset width) width :=
  (covers_natAt width).bind

end Bits

namespace Load
open Outcome Slice
variable {α β : Type} {s t : Slice}

section Looks
variable {f : Bits → Nat → Except Error α}

/-- An action in place: it gives what it would give, and the slice stays as it is. -/
def inPlace (action : Load α) : Load α := fun s =>
  match action s with
  | .ok a _ => .ok a s
  | .error e _ => .error e s

/-- Looking at a value changes nothing. -/
lemma atomic_peek :
    Atomic s (fun a t => t = s ∧ f s.cell.bits s.bitPosition = .ok a) (peek f s) := by
  rw [peek]
  cases f s.cell.bits s.bitPosition with
  | ok a => exact ⟨rfl, rfl⟩
  | error e => rfl

/-- A look at the next reference finds it and changes nothing. -/
lemma atomic_peekNextRef :
    Atomic s (fun c t => t = s ∧ s.remainingRefs[0]? = some c) (peekNextRef s) := by
  rw [peekNextRef]
  split
  case h_1 here => exact ⟨rfl, here⟩
  case h_2 => rfl

/-- What a look at a reference gives: one that is left, or an error. -/
lemma peekRef_eq (arith : Arithmetic) (index : Nat) :
    peekRef arith index s =
      match s.remainingRefs[index]? with
      | some c => .ok c s
      | none =>
        match arith.size (index + 1) with
        | .ok count => .error (.underrun .refs count s.refsLeft) s
        | .error e => .error e s := by
  show (match s.remainingRefs[index]? with
    | some c => (pure c : Load Cell)
    | none => do
      let count ← ofExcept (arith.size (index + 1))
      throw (Error.underrun .refs count (← get).refsLeft)) s = _
  cases s.remainingRefs[index]? with
  | some c => rfl
  | none =>
    cases arith.size (index + 1) with
    | ok count => rfl
    | error e => rfl

/-- A look at a reference finds it and changes nothing. -/
lemma atomic_peekRef (arith : Arithmetic) (index : Nat) :
    Atomic s (fun c t => t = s ∧ s.remainingRefs[index]? = some c) (peekRef arith index s) := by
  rw [peekRef_eq]
  split
  case h_1 here => exact ⟨rfl, here⟩
  case h_2 =>
    split
    · rfl
    · rfl

/-- The next reference is the one with index zero. -/
lemma peekRef_zero (arith : Arithmetic) : peekRef arith 0 s = peekNextRef s := by
  have one : arith.size (0 + 1) = .ok 1 := Arithmetic.size_of_lt (by decide)
  have steps := peekRef_eq (s := s) arith 0
  rw [one] at steps
  exact steps

/-- Looking at coins changes nothing, and finds as many bits as they take. -/
lemma atomic_peekCoins :
    Atomic s (fun _ t => t = s ∧ ∀ size, peekWord 4 s = .ok size s →
      4 + 8 * size.toNat ≤ s.bitsLeft) (peekCoins s) := by
  refine atomic_peek.bind_look fun size first => ?_
  apply atomic_peek.imp
  intro amount t h
  obtain ⟨rfl, second⟩ := h
  refine ⟨rfl, fun size' found => ?_⟩
  obtain rfl : size = size' := by
    rw [peekWord, peek, first] at found
    cases found
    rfl
  have four := Bits.covers_wordAt 64 4 _ _ _ first
  have more := Bits.covers_wordAt 128 _ _ _ _ second
  rw [bitsLeft]
  omega

/-- A load that looks first gives in place what it has looked at. -/
lemma inPlace_of_look {look : Load α} {P : α → Prop} (bits refs : Nat)
    (still : Atomic s (fun a t => t = s ∧ P a) (look s)) :
    inPlace (do let a ← look; advance bits refs; return a) s = look s := by
  cases run : look s with
  | ok a t =>
    rw [run] at still
    obtain ⟨rfl, _⟩ := still
    rw [inPlace, action_bind_of_ok run]
    rfl
  | error e t =>
    rw [run] at still
    cases still
    rw [inPlace, action_bind_of_error run]

/-- A value that is loaded in place is what has been looked at. -/
lemma inPlace_take (f : Bits → Nat → Except Error α) (width : Nat) :
    inPlace (take f width) s = peek f s :=
  inPlace_of_look width 0 atomic_peek

/-- Bytes are loaded from as many bits as there are in them. -/
lemma inPlace_bytes (arith : Arithmetic) (size : Nat) :
    inPlace (bytes arith size) s = peekBytes arith size s := by
  have steps : bytes arith size s = (do bits (← ofExcept (arith.size (8 * size))) : Load _) s := rfl
  have looks : peekBytes arith size s =
      (do peekBits (← ofExcept (arith.size (8 * size))) : Load _) s := rfl
  rw [inPlace, steps, looks]
  cases arith.size (8 * size) with
  | ok width => exact inPlace_take (fun b offset => b.bytesAt offset width) width
  | error e => rfl

/-- A reference that is loaded in place is the next one. -/
lemma inPlace_ref : inPlace ref s = peekNextRef s :=
  inPlace_of_look 0 1 atomic_peekNextRef

/-- Coins that are loaded in place are what has been looked at. -/
lemma inPlace_coins : inPlace coins s = peekCoins s := by
  have still := atomic_peek (f := fun b offset => b.wordAt 64 offset 4) (s := s)
  cases run : peekWord 4 s with
  | ok size t =>
    rw [← peekWord, run] at still
    obtain ⟨rfl, _⟩ := still
    have same : coins t =
        (do let amount ← peekCoins; advance (4 + 8 * size.toNat) 0; return amount) t :=
      action_bind_of_ok run
    rw [inPlace, same]
    exact inPlace_of_look _ _ atomic_peekCoins
  | error e t =>
    rw [← peekWord, run] at still
    cases still
    rw [inPlace, coins, action_bind_of_error run, peekCoins, action_bind_of_error run]

/-- A look at a reference finds the one at its index. -/
lemma peekRef_eq_ok {arith : Arithmetic} {index : Nat} {c : Cell} :
    peekRef arith index s = .ok c t ↔ s.remainingRefs[index]? = some c ∧ t = s := by
  constructor
  · intro e
    have found := atomic_peekRef (s := s) arith index
    rw [e] at found
    exact found.symm
  · intro h
    obtain ⟨here, rfl⟩ := h
    rw [peekRef_eq, here]

/-- A look at the next reference finds the first one that is left. -/
lemma peekNextRef_eq_ok {c : Cell} :
    peekNextRef s = .ok c t ↔ s.remainingRefs[0]? = some c ∧ t = s := by
  rw [← peekRef_zero .checked]
  exact peekRef_eq_ok

/-- One of the references that are left is the one that is loaded behind the others. -/
lemma peekRef_eq_ok_iff_skip {arith : Arithmetic} {index : Nat} {c : Cell} :
    peekRef arith index s = .ok c t ↔ t = s ∧ ∃ u, (do skipRefs index; ref) s = .ok c u := by
  have behind : (s.advance 0 index).remainingRefs[0]? = s.remainingRefs[index]? := by
    rw [remainingRefs, remainingRefs, List.getElem?_drop, List.getElem?_drop]
    rfl
  rw [peekRef_eq_ok, ← behind, and_comm]
  apply and_congr_right'
  constructor
  · intro here
    have left : index ≤ s.refsLeft := by
      rw [behind] at here
      obtain ⟨lt, _⟩ := List.getElem?_eq_some_iff.1 here
      rw [remainingRefs, List.length_drop] at lt
      exact Nat.le_of_lt lt
    have skipped : skipRefs index s = .ok () (s.advance 0 index) := if_pos left
    have looked : peekNextRef (s.advance 0 index) = .ok c (s.advance 0 index) :=
      peekNextRef_eq_ok.2 ⟨here, rfl⟩
    refine ⟨(s.advance 0 index).advance 0 1, ?_⟩
    rw [action_bind_of_ok skipped, ref, action_bind_of_ok looked]
    rfl
  · intro h
    obtain ⟨u, run⟩ := h
    obtain ⟨_, t, skipped, loaded⟩ := action_bind_eq_ok.1 run
    obtain ⟨d, _, looked, rest⟩ := action_bind_eq_ok.1 loaded
    rw [skipRefs] at skipped
    split at skipped
    case isTrue =>
      cases skipped
      cases rest
      exact (peekNextRef_eq_ok.1 looked).1
    case isFalse => cases skipped

end Looks

/-- An action moves on, or fails and leaves the slice as it was. -/
def Reads (action : Load α) : Prop :=
  ∀ s, s.Within → Atomic s (fun _ t => Moves s t) (action s)

/-- An action moves on when it succeeds. -/
def Advances (action : Load α) : Prop :=
  ∀ s a t, s.Within → action s = .ok a t → Moves s t

section Composition

/-- An action that reads a slice moves on when it succeeds. -/
lemma Reads.advances {action : Load α} (h : Reads action) : Advances action := by
  intro s a t within run
  have moves := h s within
  rwa [run] at moves

/-- A returned value does not move a slice. -/
lemma advances_pure (a : α) : Advances (pure a) := by
  intro s _ t within run
  cases run
  exact within.moves_self

/-- An error is no success. -/
lemma advances_throw (e : Error) : Advances (throw e : Load α) := by
  intro s a t _ run
  cases run

/-- An outcome that is lifted into a load does not move a slice. -/
lemma advances_ofExcept (x : Except Error α) : Advances (ofExcept x) := by
  intro s a t within run
  obtain ⟨_, rfl⟩ := action_ofExcept_eq_ok.1 run
  exact within.moves_self

/-- Actions that move on do so one after the other. -/
lemma Advances.bind {x : Load α} {f : α → Load β} (first : Advances x)
    (rest : ∀ a, Advances (f a)) : Advances (x >>= f) := by
  intro s b u within run
  obtain ⟨a, t, run, run'⟩ := action_bind_eq_ok.1 run
  have moves := first s a t within run
  exact moves.trans (rest a t b u moves.within run')

/-- What moves on reads a slice when it runs atomically. -/
lemma Advances.atomically {action : Load α} (h : Advances action) : Reads (atomically action) := by
  intro s within
  rw [Load.atomically]
  cases run : action s with
  | ok a t => exact h s a t within run
  | error e t => rfl

end Composition

section Actions

/-- A load that finds its bits reads a slice. -/
lemma reads_take {f : Bits → Nat → Except Error α} {width : Nat} (covers : Bits.Covers f width) :
    Reads (take f width) := by
  intro s within
  refine atomic_peek.bind_look fun a seen => ?_
  exact within.moves_advance (covers _ _ _ seen) (Nat.zero_le _)

/-- Loading a bit reads a slice. -/
lemma reads_bit : Reads bit :=
  reads_take Bits.covers_bitAt

/-- Loading bits reads a slice. -/
lemma reads_bits (count : Nat) : Reads (bits count) :=
  reads_take (Bits.covers_bytesAt count)

/-- Loading bytes reads a slice, however many bits they are taken for. -/
lemma reads_bytes (arith : Arithmetic) (size : Nat) : Reads (bytes arith size) := by
  intro s within
  exact (atomic_ofExcept _).bind_look fun width _ => reads_bits width s within

/-- In a wrapping build one byte is loaded for a size whose bits are eight more than a word
counts. -/
example : ∃ c, Cell.leaf [0xAB, 0xCD] 16 = .ok c ∧
    bytes .wrapping (2 ^ 61 + 1) (ofCell c) = .ok [0xAB] ⟨c, 8, 0⟩ ∧
    bytes .checked (2 ^ 61 + 1) (ofCell c) = .error (.panic .overflow) (ofCell c) :=
  ⟨_, rfl, rfl, rfl⟩

/-- Loading a bit string reads a slice. -/
lemma reads_bitString (count : Nat) : Reads (bitString count) :=
  reads_take (Bits.covers_substring count)

/-- Loading a word reads a slice. -/
lemma reads_word (width : Nat) : Reads (word width) :=
  reads_take (Bits.covers_wordAt 64 width)

/-- Loading a signed word reads a slice. -/
lemma reads_signedWord (width : Nat) : Reads (signedWord width) :=
  reads_take (Bits.covers_signedWordAt 64 width)

/-- Loading a natural number reads a slice. -/
lemma reads_nat (width : Nat) : Reads (nat width) :=
  reads_take (Bits.covers_natAt width)

/-- Loading an integer reads a slice. -/
lemma reads_int (width : Nat) : Reads (int width) :=
  reads_take (Bits.covers_intAt width)

/-- Skipping bits reads a slice. -/
lemma reads_skipBits (count : Nat) : Reads (skipBits count) := by
  intro s within
  rw [skipBits]
  split
  case isTrue left => exact within.moves_advance left (Nat.zero_le _)
  case isFalse => rfl

/-- Skipping references reads a slice. -/
lemma reads_skipRefs (count : Nat) : Reads (skipRefs count) := by
  intro s within
  rw [skipRefs]
  split
  case isTrue left => exact within.moves_advance (Nat.zero_le _) left
  case isFalse => rfl

/-- Loading a reference reads a slice. -/
lemma reads_ref : Reads ref := by
  intro s within
  refine atomic_peekNextRef.bind_look fun c here => ?_
  obtain ⟨lt, _⟩ := List.getElem?_eq_some_iff.1 here
  rw [remainingRefs, List.length_drop] at lt
  exact within.moves_advance (Nat.zero_le _) lt

/-- Loading coins reads a slice. -/
lemma reads_coins : Reads coins := by
  intro s within
  have look : Atomic s (fun size t => t = s ∧ peekWord 4 s = .ok size s) (peekWord 4 s) := by
    apply atomic_peek.imp
    intro size t h
    obtain ⟨rfl, found⟩ := h
    rw [peekWord, peek, found]
    exact ⟨rfl, rfl⟩
  refine look.bind_look fun size found => ?_
  refine atomic_peekCoins.bind_look fun amount room => ?_
  exact within.moves_advance (room size found) (Nat.zero_le _)

/-- Loading text reads a slice, also when its bytes are no text. -/
lemma reads_text (arith : Arithmetic) (size : Nat) : Reads (text arith size) := by
  intro s within
  refine (atomic_ofExcept _).bind_look fun width _ => ?_
  refine atomic_peek.bind_look fun bytes seen => ?_
  cases Text.ofUtf8? bytes with
  | some value => exact within.moves_advance (Bits.covers_bytesAt _ _ _ _ seen) (Nat.zero_le _)
  | none => rfl

/-- Loading an optional reference reads a slice. -/
lemma reads_maybeRef : Reads maybeRef := by
  apply Advances.atomically
  refine reads_bit.advances.bind fun present => ?_
  split
  · exact reads_ref.advances.bind fun c => advances_pure _
  · exact advances_pure _

/-- Loading a natural number of variable length reads a slice. -/
lemma reads_varNat (arith : Arithmetic) (lengthBits : Nat) : Reads (varNat arith lengthBits) := by
  apply Advances.atomically
  refine (reads_word lengthBits).advances.bind fun size => ?_
  exact (advances_ofExcept _).bind fun width => (reads_nat width).advances

/-- Loading an integer of variable length reads a slice. -/
lemma reads_varInt (arith : Arithmetic) (lengthBits : Nat) : Reads (varInt arith lengthBits) := by
  apply Advances.atomically
  refine (reads_word lengthBits).advances.bind fun size => ?_
  exact (advances_ofExcept _).bind fun width => (reads_int width).advances

/-- Skipping an anycast prefix moves on. -/
lemma advances_skipAnycast : Advances skipAnycast := by
  refine reads_bit.advances.bind fun present => ?_
  split
  · refine (reads_word 5).advances.bind fun depth => ?_
    split
    · exact (reads_skipBits _).advances
    · exact advances_throw _
  · exact advances_pure _

/-- Loading an account behind its tag moves on. -/
lemma advances_accountBody : Advances accountBody := by
  refine advances_skipAnycast.bind fun _ => ?_
  refine (reads_signedWord 8).advances.bind fun workchain => ?_
  refine (reads_bits (8 * 32)).advances.bind fun hash => ?_
  split
  · exact advances_pure _
  · exact advances_throw _

/-- Loading an account address reads a slice. -/
lemma reads_address : Reads address := by
  apply Advances.atomically
  refine (reads_word 2).advances.bind fun tag => ?_
  split
  · exact advances_pure _
  · exact advances_accountBody.bind fun a => advances_pure _
  · exact advances_throw _

/-- Loading the address of a message reads a slice. -/
lemma reads_messageAddress : Reads messageAddress := by
  apply Advances.atomically
  refine (reads_word 2).advances.bind fun tag => ?_
  split
  · exact advances_pure _
  · exact advances_accountBody.bind fun a => advances_pure _
  · refine (reads_word 9).advances.bind fun length => ?_
    refine (reads_bitString _).advances.bind fun value => ?_
    split
    · exact advances_pure _
    · exact advances_throw _
  · exact advances_throw _

/-- Loading a dictionary reads a slice, also when its tree is refused. -/
lemma reads_dictionary (keyWidth limit : Nat) : Reads (dictionary keyWidth limit) := by
  apply Advances.atomically
  refine reads_maybeRef.advances.bind fun root => ?_
  split
  · exact advances_ofExcept _
  · exact advances_pure _

/-- Loading what is left reads a slice. -/
lemma reads_remainder : Reads remainder := by
  intro s within
  show Atomic s _ ((do
    let cell ← ofExcept (remainderOf s)
    modify (·.atEnd)
    return cell : Load Cell) s)
  exact (atomic_ofExcept _).bind_look fun c _ => within.moves_atEnd

end Actions

end Load

end CellBag
