import CellBag.Proofs.Stream.Codec
import Mathlib

/-!
# Streams of fields

A stream is a list of typed fields. Fields that were stored one after the other into a cell are
loaded again in the same order, each from where its store began to where it ended, and nothing is
left of the cell then (`Stream.loadAll_storeAll`).
-/

namespace CellBag.Stream

/-- The types of fields, with what a load has to know of them. -/
inductive FieldType where
  | bit
  | word (width : Nat)
  | signedWord (width : Nat)
  | nat (width : Nat)
  | int (width : Nat)
  | bitString (length : Nat)
  | bytes (size : Nat)
  | coins
  | varNat (lengthBits : Nat)
  | varInt (lengthBits : Nat)
  | address
  | messageAddress
  | ref
  | maybeRef

namespace FieldType

/-- The values of a type. -/
def Value : FieldType → Type
  | bit => Bool
  | word _ | signedWord _ => BitVec 64
  | nat _ | varNat _ => Nat
  | int _ | varInt _ => Int
  | bitString _ => Bits
  | bytes _ => List UInt8
  | coins => BitVec 128
  | address => Option Address
  | messageAddress => MessageAddress
  | ref => Cell
  | maybeRef => Option Cell

/-- How a value is stored. -/
def store : (t : FieldType) → t.Value → Store Unit
  | bit, value => Store.bit value
  | word width, value => Store.word value width
  | signedWord width, value => Store.signedWord value width
  | nat width, value => Store.nat value width
  | int width, value => Store.int value width
  | bitString _, value => Store.bitString value
  | bytes _, value => Store.bytes value
  | coins, value => Store.coins value
  | varNat lengthBits, value => Store.varNat value lengthBits
  | varInt lengthBits, value => Store.varInt value lengthBits
  | address, value => Store.address value
  | messageAddress, value => Store.messageAddress value
  | ref, value => Store.ref value
  | maybeRef, value => Store.maybeRef value

/-- How a value is loaded in a build. -/
def load (arith : Arithmetic) : (t : FieldType) → Load t.Value
  | bit => Load.bit
  | word width => Load.word width
  | signedWord width => Load.signedWord width
  | nat width => Load.nat width
  | int width => Load.int width
  | bitString length => Load.bitString length
  | bytes size => Load.bytes arith size
  | coins => Load.coins
  | varNat lengthBits => Load.varNat arith lengthBits
  | varInt lengthBits => Load.varInt arith lengthBits
  | address => Load.address
  | messageAddress => Load.messageAddress
  | ref => Load.ref
  | maybeRef => Load.maybeRef

/-- Words have at most 64 bits, lengths fewer than 32, and the length of bits and bytes is the one
that is loaded. -/
def Fits : (t : FieldType) → t.Value → Prop
  | word width, _ | signedWord width, _ => width ≤ 64
  | bitString length, value => Bits.length value = length
  | bytes size, value => List.length value = size
  | varNat lengthBits, _ | varInt lengthBits, _ => lengthBits < 32
  | _, _ => True

/-- The same value, where addresses are compared without their flags. -/
def Same : (t : FieldType) → t.Value → t.Value → Prop
  | address, a, b => ((show Option Address from a) == b) = true
  | messageAddress, a, b => ((show MessageAddress from a) == b) = true
  | _, a, b => a = b

/-- A value of any type is recovered. -/
theorem exists_recovers (arith : Arithmetic) {t : FieldType} {value : t.Value}
    (fits : t.Fits value) :
    ∃ value', t.Same value value' ∧ Recovers (t.load arith) (t.store value) value' := by
  cases t with
  | bit => exact ⟨value, rfl, recovers_bit value⟩
  | word width => exact ⟨value, rfl, recovers_word value fits⟩
  | signedWord width => exact ⟨value, rfl, recovers_signedWord value fits⟩
  | nat width => exact ⟨value, rfl, recovers_nat value width⟩
  | int width => exact ⟨value, rfl, recovers_int value width⟩
  | bitString length =>
    have recovers := recovers_bitString value
    rw [show Bits.length value = length from fits] at recovers
    exact ⟨value, rfl, recovers⟩
  | bytes size =>
    have recovers := recovers_bytes arith value
    rw [show List.length value = size from fits] at recovers
    exact ⟨value, rfl, recovers⟩
  | coins => exact ⟨value, rfl, recovers_coins value⟩
  | varNat lengthBits => exact ⟨value, rfl, recovers_varNat arith value lengthBits⟩
  | varInt lengthBits => exact ⟨value, rfl, recovers_varInt arith value lengthBits⟩
  | address =>
    refine ⟨Option.map Address.stored value, ?_, recovers_address value⟩
    cases value with
    | none => rfl
    | some a => exact a.beq_stored
  | messageAddress => exact ⟨_, MessageAddress.beq_stored value, recovers_messageAddress value⟩
  | ref => exact ⟨value, rfl, recovers_ref value⟩
  | maybeRef => exact ⟨value, rfl, recovers_maybeRef value⟩

end FieldType

/-- A value with its type. -/
structure Field where
  type : FieldType
  value : type.Value

namespace Field

/-- How the field is stored. -/
def store (f : Field) : Store Unit := f.type.store f.value

/-- The field can be loaded by its type. -/
def Fits (f : Field) : Prop := f.type.Fits f.value

/-- A field of the same type with the same value. -/
def Same (f g : Field) : Prop :=
  ∃ value, g = ⟨f.type, value⟩ ∧ f.type.Same f.value value

end Field

/-- Stores fields in order. -/
def storeAll : List Field → Store Unit
  | [] => pure ()
  | f :: fs => do
    f.store
    storeAll fs

/-- Loads fields of these types in order. -/
def loadAll (arith : Arithmetic) : List FieldType → Load (List Field)
  | [] => return []
  | t :: ts => do
    let value ← t.load arith
    return ⟨t, value⟩ :: (← loadAll arith ts)

/-- Fields are recovered one after the other. -/
lemma exists_recovers_all (arith : Arithmetic) {fs : List Field} (fits : ∀ f ∈ fs, f.Fits) :
    ∃ gs, List.Forall₂ Field.Same fs gs ∧
      Recovers (loadAll arith (fs.map Field.type)) (storeAll fs) gs := by
  induction fs with
  | nil => exact ⟨[], .nil, Recovers.pure []⟩
  | cons f fs ih =>
    obtain ⟨first, fits⟩ := List.forall_mem_cons.1 fits
    obtain ⟨value, same, recovers⟩ := FieldType.exists_recovers arith first
    obtain ⟨gs, all, later⟩ := ih fits
    exact ⟨⟨f.type, value⟩ :: gs, .cons ⟨value, rfl, same⟩ all, recovers.bind (later.map _)⟩

/-- Two lists of fields are stored one after the other. -/
lemma storeAll_append {fs gs : List Field} {b b'' : Builder} {u : Unit} :
    storeAll (fs ++ gs) b = .ok u b'' ↔
      ∃ b', storeAll fs b = .ok () b' ∧ storeAll gs b' = .ok u b'' := by
  induction fs generalizing b with
  | nil =>
    constructor
    · intro run
      exact ⟨b, rfl, run⟩
    · intro h
      obtain ⟨b', first, run⟩ := h
      cases first
      exact run
  | cons f fs ih =>
    rw [List.cons_append, storeAll, storeAll, Outcome.action_bind_eq_ok]
    simp only [ih, Outcome.action_bind_eq_ok]
    constructor
    · intro h
      obtain ⟨v, b₁, first, b', rest, run⟩ := h
      exact ⟨b', ⟨v, b₁, first, rest⟩, run⟩
    · intro h
      obtain ⟨b', ⟨v, b₁, first, rest⟩, run⟩ := h
      exact ⟨v, b₁, first, b', rest, run⟩

/-- Fields that were stored into a cell are loaded from it in the same order, with nothing left. The
load of each one begins behind those before it, and moves on by the bits and references that its
store has appended. -/
theorem loadAll_storeAll (arith : Arithmetic) {fs : List Field} {b : Builder} {c : Cell}
    (fits : ∀ f ∈ fs, f.Fits) (stored : storeAll fs Builder.empty = .ok () b)
    (ended : b.finish = .ok c) :
    (∃ gs t, loadAll arith (fs.map Field.type) (Slice.ofCell c) = .ok gs t ∧
      List.Forall₂ Field.Same fs gs ∧ Load.finish t = .ok () t) ∧
    ∀ front f back, fs = front ++ f :: back → ∃ b₀ b₁ gs s₀ value s₁,
      storeAll front Builder.empty = .ok () b₀ ∧ f.store b₀ = .ok () b₁ ∧
      loadAll arith (front.map Field.type) (Slice.ofCell c) = .ok gs s₀ ∧
      f.type.load arith s₀ = .ok value s₁ ∧ f.type.Same f.value value ∧
      s₁ = s₀.advance (b₁.bits.length - b₀.bits.length) (b₁.refs.length - b₀.refs.length) := by
  constructor
  · obtain ⟨gs, same, recovers⟩ := exists_recovers_all arith fits
    obtain ⟨xs, cs, between, loads⟩ := recovers _ _ _ stored
    refine ⟨gs, _, loads _ _ (Slice.spans_of_finish between ended), same, ?_⟩
    rw [Load.finish, if_pos (Slice.isEmpty_atEnd _)]
  · intro front f back parts
    subst parts
    obtain ⟨before, fits⟩ := List.forall_mem_append.1 fits
    obtain ⟨here, after⟩ := List.forall_mem_cons.1 fits
    -- the run of the stores parts at the field, and so do the bits and references of the cell
    obtain ⟨b₀, first, run⟩ := storeAll_append.1 stored
    obtain ⟨_, b₁, second, third⟩ := Outcome.action_bind_eq_ok.1 run
    obtain ⟨gs, _, recovers⟩ := exists_recovers_all arith before
    obtain ⟨value, same, recovers'⟩ := FieldType.exists_recovers arith here
    obtain ⟨_, _, recovers''⟩ := exists_recovers_all arith after
    obtain ⟨xs, cs, between, loads⟩ := recovers _ _ _ first
    obtain ⟨ys, ds, between', loads'⟩ := recovers' _ _ _ second
    obtain ⟨zs, es, between'', _⟩ := recovers'' _ _ _ third
    have behind := Builder.between_append.2 ⟨b₁, between', between''⟩
    have all := Builder.between_append.2 ⟨b₀, between, behind⟩
    obtain ⟨s₀, spans, rest⟩ := (Slice.spans_of_finish all ended).exists_middle
    obtain ⟨s₁, spans', _⟩ := rest.exists_middle
    refine ⟨b₀, b₁, gs, s₀, value, s₁, first, second, loads _ _ spans, loads' _ _ spans', same, ?_⟩
    rw [spans'.eq_advance, Bits.length, Bits.length, between'.bits_eq, between'.refs_eq,
      List.length_append, List.length_append, Nat.add_sub_cancel_left, Nat.add_sub_cancel_left]

/-- A bit, signed and unsigned numbers, an account with flags and a reference in one cell. -/
theorem loadAll_storeAll_mixed :
    ∃ fs b c gs t,
      fs.map Field.type = [.bit, .signedWord 7, .varNat 5, .int 70, .address, .maybeRef] ∧
      storeAll fs Builder.empty = .ok () b ∧ b.finish = .ok c ∧
      loadAll .checked (fs.map Field.type) (Slice.ofCell c) = .ok gs t ∧
      List.Forall₂ Field.Same fs gs ∧ Load.finish t = .ok () t := by
  let account : Address := { workchain := -1, account := default, bounceable := false }
  let fs : List Field := [⟨.bit, true⟩, ⟨.signedWord 7, BitVec.ofInt 64 (-64)⟩,
    ⟨.varNat 5, (70000 : Nat)⟩,
    ⟨.int 70, (-5 : Int)⟩, ⟨.address, some account⟩, ⟨.maybeRef, some Cell.empty⟩]
  have fits : ∀ f ∈ fs, f.Fits := by
    simp [fs, Field.Fits, FieldType.Fits]
  have made : (Store.toCell (storeAll fs)).isOk = true := by decide +kernel
  cases e : Store.toCell (storeAll fs) with
  | error =>
    rw [e] at made
    cases made
  | ok c =>
    obtain ⟨_, b, stored, ended⟩ := Store.toCell_eq_ok_iff_finish.1 e
    obtain ⟨gs, t, loaded, same, finished⟩ := (loadAll_storeAll .checked fits stored ended).1
    exact ⟨fs, b, c, gs, t, rfl, stored, ended, loaded, same, finished⟩

end CellBag.Stream
