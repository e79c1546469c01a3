import CellBag.Proofs.Arithmetic
import CellBag.Proofs.Stream.Recovery
import CellBag.Proofs.Cell.Layout
import Mathlib

/-!
# Codecs

Each kind of value is read back by its load: numbers, bit strings, coins, addresses and references,
at every position in a cell. The only part of a value that is lost is how an address is to be
written for people.
-/

namespace CellBag

namespace Slice
variable {s t : Slice} {xs : List Bool}

/-- What stands between two slices begins within the bits. -/
lemma Between.within (h : Between s xs t) : s.bitPosition ≤ s.cell.bits.length :=
  Nat.le_trans (Nat.le_add_right _ _) h.le

/-- What stands between two slices is left of the first one. -/
lemma Between.room (h : Between s xs t) : xs.length ≤ s.cell.bits.length - s.bitPosition :=
  Nat.le_sub_of_add_le' h.le

end Slice

namespace Load
variable {s t : Slice} {xs : List Bool}

/-- A word is read from bits that are not too many for it. -/
lemma wordAt_of_between {w : Nat} (fits : xs.length ≤ w) (h : Slice.Between s xs t) :
    s.cell.bits.wordAt w s.bitPosition xs.length = .ok (BitVec.ofNat w (Binary.toNat xs)) := by
  rw [Bits.wordAt_of_le fits h.room, h.range_eq]

/-- A word is loaded from bits that are not too many for it. -/
lemma word_of_between (fits : xs.length ≤ 64) (h : Slice.Between s xs t) :
    word xs.length s = .ok (BitVec.ofNat 64 (Binary.toNat xs)) t :=
  take_eq_ok.2 ⟨wordAt_of_between fits h, h.eq_advance⟩

/-- A signed word is loaded from bits that are not too many for it. -/
lemma signedWord_of_between (fits : xs.length ≤ 64) (h : Slice.Between s xs t) :
    signedWord xs.length s = .ok (BitVec.ofInt 64 (Binary.toInt xs)) t := by
  apply take_eq_ok.2
  rw [Bits.signedWordAt_of_le fits h.room, h.range_eq]
  exact ⟨rfl, h.eq_advance⟩

/-- A natural number is loaded from its bits. -/
lemma nat_of_between (h : Slice.Between s xs t) :
    nat xs.length s = .ok (Binary.toNat xs) t := by
  apply take_eq_ok.2
  rw [Bits.natAt_of_le h.within h.room, h.range_eq]
  exact ⟨rfl, h.eq_advance⟩

/-- An integer is loaded from its bits. -/
lemma int_of_between (h : Slice.Between s xs t) :
    int xs.length s = .ok (Binary.toInt xs) t := by
  apply take_eq_ok.2
  rw [Bits.intAt_of_le h.within h.room, h.range_eq]
  exact ⟨rfl, h.eq_advance⟩

/-- Bytes are loaded from their bits. -/
lemma bits_of_between {source : List UInt8} (h : Slice.Between s (Octets.unpack source) t) :
    bits (8 * source.length) s = .ok source t := by
  have room := h.room
  have range := h.range_eq
  have next := h.eq_advance
  rw [Octets.length_unpack] at room range next
  apply take_eq_ok.2
  rw [Bits.bytesAt_of_le h.within room, range, Octets.pack_unpack]
  exact ⟨rfl, next⟩

/-- The bits of a size are counted alike in both builds if they fit into a machine word. -/
lemma byteWidth_of_lt {arith : Arithmetic} {size : Nat} (fits : 8 * size < Arithmetic.limit) :
    byteWidth arith size s = .ok (8 * size) s := by
  rw [byteWidth, Arithmetic.size_of_lt fits]
  rfl

/-- A look gives what is read. -/
lemma peek_of_eq {α : Type} {f : Bits → Nat → Except Error α} {a : α}
    (e : f s.cell.bits s.bitPosition = .ok a) : peek f s = .ok a s := by
  rw [peek, e]

/-- A look fails as what is read does. -/
lemma peek_of_error {α : Type} {f : Bits → Nat → Except Error α} {e : Error}
    (stop : f s.cell.bits s.bitPosition = .error e) : peek f s = .error e s := by
  rw [peek, stop]

/-- A reference is loaded where it stands. -/
lemma ref_of_spans {c : Cell} (h : Slice.Spans s [] [c] t) : ref s = .ok c t := by
  have first : s.remainingRefs[0]? = some c := by rw [h.refs_eq]; rfl
  have peeked : peekNextRef s = .ok c s := by rw [peekNextRef, first]
  rw [h.eq_advance]
  exact Outcome.action_bind_eq_ok.2 ⟨c, s, peeked, rfl⟩

end Load

section Numbers
variable {width : Nat}

/-- A bit is read back. -/
lemma recovers_bit (b : Bool) : Recovers Load.bit (Store.bit b) b := by
  apply recovers_write (w := .bit b)
  intro xs s t denotes between
  cases denotes
  exact Load.bit_eq_ok.2 between

/-- A word is read back. -/
lemma recovers_word (x : BitVec 64) (fits : width ≤ 64) :
    Recovers (Load.word width) (Store.word x width) x := by
  apply recovers_write (w := .word x width)
  intro xs s t denotes between
  obtain ⟨rfl, value⟩ := denotes
  rw [Load.word_of_between fits between, value, BitVec.ofNat_toNat, BitVec.setWidth_eq]

/-- A signed word is read back. -/
lemma recovers_signedWord (x : BitVec 64) (fits : width ≤ 64) :
    Recovers (Load.signedWord width) (Store.signedWord x width) x := by
  apply recovers_write (w := .signedWord x width)
  intro xs s t denotes between
  obtain ⟨rfl, value⟩ := denotes
  rw [Load.signedWord_of_between fits between, value, BitVec.ofInt_toInt]

/-- A natural number is read back. -/
lemma recovers_nat (n width : Nat) : Recovers (Load.nat width) (Store.nat n width) n := by
  apply recovers_write (w := .nat n width)
  intro xs s t denotes between
  obtain ⟨rfl, value⟩ := denotes
  rw [Load.nat_of_between between, value]

/-- An integer is read back. -/
lemma recovers_int (i : Int) (width : Nat) : Recovers (Load.int width) (Store.int i width) i := by
  apply recovers_write (w := .int i width)
  intro xs s t denotes between
  obtain ⟨rfl, value⟩ := denotes
  rw [Load.int_of_between between, value]

/-- A bit string is read back. -/
lemma recovers_bitString (value : Bits) :
    Recovers (Load.bitString value.length) (Store.bitString value) value := by
  apply recovers_write (w := .all value)
  intro xs s t denotes between
  cases denotes
  exact (Load.bitString_eq_ok between.within).2 ⟨rfl, between⟩

/-- What has been written into a builder has so few bits that a machine word counts them. -/
lemma Store.exists_denotes {w : Bits.Write} {u : Unit} {b b' : Builder}
    (run : Store.write w.run b = .ok u b') :
    ∃ xs, w.Denotes xs ∧ xs.length < Arithmetic.limit := by
  obtain ⟨xs, denotes, between⟩ := Store.write_eq_ok.1 run
  have few : b.availableBits ≤ 1023 := Nat.sub_le _ _
  have le := between.length_le.trans few
  refine ⟨xs, denotes, Nat.lt_of_le_of_lt le ?_⟩
  decide

/-- A load that is told how many bits so many bytes have recovers a write of them. -/
lemma recovers_byteWidth {α : Type} {load : Nat → Load α} {w : Bits.Write} {a : α} {size : Nat}
    (arith : Arithmetic) (len : ∀ xs, w.Denotes xs → xs.length = 8 * size)
    (r : Recovers (load (8 * size)) (Store.write w.run) a) :
    Recovers (do load (← Load.byteWidth arith size)) (Store.write w.run) a := by
  apply Recovers.assume (p := 8 * size < Arithmetic.limit)
  · intro u b b' run
    obtain ⟨xs, denotes, lt⟩ := Store.exists_denotes run
    rwa [len xs denotes] at lt
  · intro fits
    have same : (do load (← Load.byteWidth arith size)) = load (8 * size) := by
      funext s
      exact Outcome.action_bind_of_ok (Load.byteWidth_of_lt fits)
    rwa [same]

/-- Bytes are read back. -/
lemma recovers_bytes (arith : Arithmetic) (value : List UInt8) :
    Recovers (Load.bytes arith value.length) (Store.bytes value) value := by
  apply recovers_byteWidth (w := .bytes value) arith
  · intro xs denotes
    cases denotes
    exact Octets.length_unpack value
  · apply recovers_write (w := .bytes value)
    intro xs s t denotes between
    cases denotes
    exact Load.bits_of_between between

/-- Coins are read back. -/
lemma recovers_coins (amount : BitVec 128) :
    Recovers Load.coins (Store.coins amount) amount := by
  apply recovers_write (w := .coins amount)
  intro xs s t denotes between
  obtain ⟨size, ys, rfl, small, len, value, _⟩ := denotes
  obtain ⟨u, front, rest⟩ := Slice.between_append.1 between
  have width : (Binary.ofNat 4 size).length = 4 := Binary.length_ofNat _ _
  have count : (BitVec.ofNat 64 size).toNat = size := by
    rw [BitVec.toNat_ofNat, Nat.mod_eq_of_lt (by omega)]
  have peeked : Load.peekWord 4 s = .ok (BitVec.ofNat 64 size) s := by
    have word := Load.wordAt_of_between (w := 64) (by rw [width]; decide) front
    rw [width, Binary.toNat_ofNat, Nat.mod_eq_of_lt small] at word
    exact Load.peek_of_eq word
  have amounts : Load.peekCoins s = .ok amount s := by
    have word := Load.wordAt_of_between (w := 128) (by omega) rest
    rw [len, value, BitVec.ofNat_toNat, BitVec.setWidth_eq, front.eq_advance, width] at word
    rw [← count] at word
    exact Outcome.action_bind_eq_ok.2 ⟨_, s, peeked, Load.peek_of_eq word⟩
  have next : t = s.advance (4 + 8 * size) 0 := by
    rw [between.eq_advance, List.length_append, width, len]
  rw [next, ← count]
  exact Outcome.action_bind_eq_ok.2 ⟨_, s, peeked, Outcome.action_bind_eq_ok.2 ⟨_, s, amounts, rfl⟩⟩

/-- A number that is stored in some bits may be loaded as a word. -/
lemma recovers_natWord (n : Nat) (fits : width ≤ 64) :
    Recovers (Load.word width) (Store.nat n width) (BitVec.ofNat 64 n) := by
  apply recovers_write (w := .nat n width)
  intro xs s t denotes between
  obtain ⟨rfl, value⟩ := denotes
  rw [Load.word_of_between fits between, value]

/-- A number that is stored in front of others may be loaded as a word. -/
lemma recovers_nat_bind {α : Type} {load : BitVec 64 → Load α} {store : Store Unit} {a : α}
    {n : Nat} (fits : width ≤ 64) (r : ∀ x : BitVec 64, x.toNat = n → Recovers (load x) store a) :
    Recovers (Load.word width >>= load) (do Store.nat n width; store) a := by
  apply Recovers.assume (p := n < 2 ^ width)
  · intro u b b' run
    obtain ⟨_, _, run, _⟩ := Outcome.action_bind_eq_ok.1 run
    obtain ⟨xs, ⟨rfl, rfl⟩, _⟩ := (Store.write_eq_ok (w := .nat n width)).1 run
    exact Binary.toNat_lt xs
  · intro lt
    have le : 2 ^ width ≤ 2 ^ 64 := Nat.pow_le_pow_right (by decide) fits
    have same : (BitVec.ofNat 64 n).toNat = n := by
      rw [BitVec.toNat_ofNat, Nat.mod_eq_of_lt (Nat.lt_of_lt_of_le lt le)]
    exact (recovers_natWord n fits).bind (r _ same)

/-- A number may be stored in two parts, of which the lower one fits its width. -/
lemma recovers_nat_split {α : Type} {load : Load α} {store : Store Unit} {a : α} {n m w v : Nat}
    (lt : m < 2 ^ v) (r : Recovers load (do Store.nat n w; Store.nat m v; store) a) :
    Recovers load (do Store.nat (n * 2 ^ v + m) (w + v); store) a := by
  apply Recovers.of_imp _ r
  intro u b b'' run
  obtain ⟨_, b', run, later⟩ := Outcome.action_bind_eq_ok.1 run
  obtain ⟨xs, ⟨len, value⟩, between⟩ := (Store.write_eq_ok (w := .nat _ _)).1 run
  have front : (xs.take w).length = w := by
    rw [List.length_take, len]
    exact Nat.min_eq_left (Nat.le_add_right _ _)
  have back : (xs.drop w).length = v := by
    rw [List.length_drop, len, Nat.add_sub_cancel_left]
  have lt' := Binary.toNat_lt (xs.drop w)
  rw [← List.take_append_drop w xs, Binary.toNat_append, back, Nat.mul_comm,
    Nat.mul_comm n] at value
  rw [back] at lt'
  have high : Binary.toNat (xs.take w) = n := by
    have quotient := congrArg (· / 2 ^ v) value
    simpa only [Nat.mul_add_div (Nat.two_pow_pos v), Nat.div_eq_of_lt lt, Nat.div_eq_of_lt lt',
      Nat.add_zero] using quotient
  rw [high] at value
  have low := Nat.add_left_cancel value
  rw [← List.take_append_drop w xs, ← List.nil_append []] at between
  obtain ⟨b₁, first, second⟩ := Builder.between_append.1 between
  have first := (Store.write_eq_ok (w := .nat n w) (u := ())).2 ⟨_, ⟨front, high⟩, first⟩
  have second := (Store.write_eq_ok (w := .nat m v) (u := ())).2 ⟨_, ⟨back, low⟩, second⟩
  exact Outcome.action_bind_eq_ok.2
    ⟨(), b₁, first, Outcome.action_bind_eq_ok.2 ⟨(), b', second, later⟩⟩

/-- A bit that is stored as a number is read back. -/
lemma recovers_natBit (b : Bool) : Recovers Load.bit (Store.nat b.toNat 1) b := by
  apply recovers_write (w := .nat b.toNat 1)
  intro xs s t denotes between
  obtain ⟨len, value⟩ := denotes
  obtain ⟨x, rfl⟩ := List.length_eq_one_iff.1 len
  obtain rfl : x = b := by
    cases x with
    | false =>
      cases b with
      | false => rfl
      | true => cases value
    | true =>
      cases b with
      | false => cases value
      | true => rfl
  exact Load.bit_eq_ok.2 between

/-- A number of bytes is stored in fewer than 64 bits. -/
lemma varLength_eq_ok {size lengthBits : Nat} {u : Unit} {b b' : Builder}
    (run : Store.varLength size lengthBits b = .ok u b') :
    lengthBits < 64 ∧ Store.nat size lengthBits b = .ok u b' := by
  simp only [Store.varLength, Outcome.action_guard_bind_eq_ok, Outcome.action_bind_eq_ok,
    Store.ensureBits_eq_ok] at run
  obtain ⟨fits, _, _, ⟨_, rfl⟩, run⟩ := run
  rw [not_or, Nat.not_le] at fits
  exact ⟨fits.1, run⟩

/-- A value that is stored behind its size is loaded behind it. -/
lemma recovers_sized {α : Type} (load : Nat → Load α) {store : Store Unit} {a : α}
    {size lengthBits : Nat} (r : Recovers (load size) store a) :
    Recovers (do let n ← Load.word lengthBits; load n.toNat)
      (do Store.varLength size lengthBits; store) a := by
  apply Recovers.assume (p := lengthBits < 64)
  · intro u b b' run
    obtain ⟨_, _, run, _⟩ := Outcome.action_bind_eq_ok.1 run
    exact (varLength_eq_ok run).1
  · intro narrow
    have behind : Recovers (do let n ← Load.word lengthBits; load n.toNat)
        (do Store.nat size lengthBits; store) a := by
      apply recovers_nat_bind (Nat.le_of_lt narrow)
      intro x same
      rw [same]
      exact r
    apply Recovers.of_imp _ behind
    intro u b b'' run
    obtain ⟨v, b', first, second⟩ := Outcome.action_bind_eq_ok.1 run
    exact Outcome.action_bind_eq_ok.2 ⟨v, b', (varLength_eq_ok first).2, second⟩

/-- A natural number of variable length is read back. -/
lemma recovers_varNat (arith : Arithmetic) (n lengthBits : Nat) :
    Recovers (Load.varNat arith lengthBits) (Store.varNat n lengthBits) n := by
  apply Recovers.atomically
  apply recovers_sized fun size => do Load.nat (← Load.byteWidth arith size)
  refine recovers_byteWidth (w := .nat n _) arith ?_ (recovers_nat n _)
  intro xs denotes
  exact denotes.1

/-- An integer of variable length is read back. -/
lemma recovers_varInt (arith : Arithmetic) (i : Int) (lengthBits : Nat) :
    Recovers (Load.varInt arith lengthBits) (Store.varInt i lengthBits) i := by
  apply Recovers.atomically
  apply recovers_sized fun size => do Load.int (← Load.byteWidth arith size)
  refine recovers_byteWidth (w := .int i _) arith ?_ (recovers_int i _)
  intro xs denotes
  exact denotes.1

end Numbers

section References

/-- A reference is read back. -/
lemma recovers_ref (c : Cell) : Recovers Load.ref (Store.ref c) c := by
  intro u b b' run
  exact ⟨[], [c], (Store.ref_eq_ok.1 run).2, fun s t spans => Load.ref_of_spans spans⟩

/-- An optional reference is read back. -/
lemma recovers_maybeRef (value : Option Cell) :
    Recovers Load.maybeRef (Store.maybeRef value) value := by
  apply Recovers.atomically
  cases value with
  | none => exact (recovers_bit false).then_return fun _ => rfl
  | some c =>
    apply Recovers.of_check (fun _ _ _ run => (Store.ensureBits_eq_ok.1 run).2)
    apply Recovers.of_check (fun _ _ _ run => (Store.ensureRefs_eq_ok.1 run).2)
    exact (recovers_bit true).bind ((recovers_ref c).map some)

end References

section Addresses
variable {s t : Slice}

/-- What an address is after it was stored: without its flags. -/
def Address.stored (a : Address) : Address := { workchain := a.workchain, account := a.account }

/-- An address is equal to itself without its flags. -/
lemma Address.beq_stored (a : Address) : (a == a.stored) = true :=
  Bool.and_eq_true_iff.2 ⟨beq_self_eq_true _, beq_self_eq_true _⟩

/-- A byte is the low byte of the word with the same integer. -/
lemma setWidth_ofInt_toInt (x : BitVec 8) : (BitVec.ofInt 64 x.toInt).setWidth 8 = x := by
  have extended : BitVec.ofInt 64 x.toInt = x.signExtend 64 := rfl
  apply BitVec.eq_of_getLsbD_eq
  intro k within
  have below : k < 64 := by omega
  rw [extended, BitVec.getLsbD_setWidth, BitVec.getLsbD_signExtend, if_pos within,
    decide_eq_true within, decide_eq_true below, Bool.true_and, Bool.true_and]

namespace Load

/-- The two bits in front of an address tell its kind. -/
lemma tag_of_between {first second : Bool} (h : Slice.Between s [first, second] t) :
    word 2 s = .ok (BitVec.ofNat 64 (Binary.toNat [first, second])) t :=
  word_of_between (by simp) h

/-- An account is loaded in two steps: its tag, and what stands behind it. -/
lemma exists_accountBody {a : Address} (h : Slice.Between s a.bits t) :
    ∃ u, word 2 s = .ok (BitVec.ofNat 64 (Binary.toNat [true, false])) u ∧
      accountBody u = .ok a.stored t := by
  rw [Address.bits, List.append_assoc, List.append_assoc] at h
  obtain ⟨u, tag, h⟩ := Slice.between_append.1 h
  obtain ⟨s₁, anycast, h⟩ := Slice.between_append.1 h
  obtain ⟨s₂, workchain, account⟩ := Slice.between_append.1 h
  refine ⟨u, tag_of_between tag, ?_⟩
  have first : skipAnycast u = .ok () s₁ :=
    Outcome.action_bind_eq_ok.2 ⟨false, s₁, bit_eq_ok.2 anycast, rfl⟩
  have second : signedWord 8 s₁ = .ok (BitVec.ofInt 64 a.workchain.toBitVec.toInt) s₂ := by
    have word := signedWord_of_between (by rw [Binary.length_ofWord]; decide) workchain
    rwa [Binary.length_ofWord, Binary.toInt_ofWord] at word
  have third : bits (8 * 32) s₂ = .ok a.account.bytes t := by
    have bytes := bits_of_between account
    rwa [a.account.length_bytes] at bytes
  have digest := Digest.ofBytes?_eq_some.2 (rfl : a.account.bytes = _)
  refine Outcome.action_bind_eq_ok.2 ⟨(), s₁, first, ?_⟩
  refine Outcome.action_bind_eq_ok.2 ⟨_, s₂, second, ?_⟩
  refine Outcome.action_bind_eq_ok.2 ⟨_, t, third, ?_⟩
  rw [digest, setWidth_ofInt_toInt]
  rfl

end Load

/-- An account address is read back without its flags. -/
lemma recovers_address (value : Option Address) :
    Recovers Load.address (Store.address value) (value.map Address.stored) := by
  apply Recovers.atomically
  apply recovers_write (w := .address value)
  intro xs s t denotes between
  cases value with
  | none =>
    cases denotes
    exact Outcome.action_bind_eq_ok.2 ⟨_, t, Load.tag_of_between between, rfl⟩
  | some a =>
    cases Bits.Write.address_iff.2 denotes
    obtain ⟨u, tag, body⟩ := Load.exists_accountBody between
    refine Outcome.action_bind_eq_ok.2 ⟨_, u, tag, ?_⟩
    exact Outcome.action_bind_eq_ok.2 ⟨a.stored, t, body, rfl⟩

/-- What one end of a message is after it was stored. -/
def MessageAddress.stored : MessageAddress → MessageAddress
  | .none => .none
  | .account a => .account a.stored
  | .external a => .external a

/-- The address of a message is equal to itself without its flags. -/
lemma MessageAddress.beq_stored (a : MessageAddress) : (a == a.stored) = true := by
  cases a with
  | none => rfl
  | account a => exact a.beq_stored
  | external a => exact beq_self_eq_true a

/-- The address of a message is read back without its flags. -/
lemma recovers_messageAddress (value : MessageAddress) :
    Recovers Load.messageAddress (Store.messageAddress value) value.stored := by
  apply Recovers.atomically
  cases value with
  | none =>
    apply recovers_write (w := .address none)
    intro xs s t denotes between
    cases denotes
    exact Outcome.action_bind_eq_ok.2 ⟨_, t, Load.tag_of_between between, rfl⟩
  | account a =>
    apply recovers_write (w := .address (some a))
    intro xs s t denotes between
    cases Bits.Write.address_iff.2 denotes
    obtain ⟨u, tag, body⟩ := Load.exists_accountBody between
    refine Outcome.action_bind_eq_ok.2 ⟨_, u, tag, ?_⟩
    exact Outcome.action_bind_eq_ok.2 ⟨a.stored, t, body, rfl⟩
  | external a =>
    intro u b b' run
    refine ⟨a.encoding, [], Store.append_eq_ok.1 run, ?_⟩
    intro s t spans
    have between := spans.toBetween
    rw [ExternalAddress.encoding, List.append_assoc] at between
    obtain ⟨s₁, tag, between⟩ := Slice.between_append.1 between
    obtain ⟨s₂, length, bits⟩ := Slice.between_append.1 between
    have lt : a.bits.length < 2 ^ 9 := by have := a.length_le; omega
    have count : Load.word 9 s₁ = .ok (BitVec.ofNat 64 a.bits.length) s₂ := by
      have word := Load.word_of_between (by rw [Binary.length_ofNat]; decide) length
      rwa [Binary.length_ofNat, Binary.toNat_ofNat, Nat.mod_eq_of_lt lt] at word
    have value : (BitVec.ofNat 64 a.bits.length).toNat = a.bits.length := by
      rw [BitVec.toNat_ofNat, Nat.mod_eq_of_lt (by omega)]
    refine Outcome.action_bind_eq_ok.2 ⟨_, s₁, Load.tag_of_between tag, ?_⟩
    refine Outcome.action_bind_eq_ok.2 ⟨_, s₂, count, ?_⟩
    rw [value]
    refine Outcome.action_bind_eq_ok.2 ⟨a.bits, t, ?_, ?_⟩
    · exact (Load.bitString_eq_ok bits.within).2 ⟨rfl, bits⟩
    · have le : a.bits.length ≤ ExternalAddress.maxWidth := a.length_le
      have made : ExternalAddress.ofBits a.bits = .ok a := by
        rw [ExternalAddress.ofBits, dif_pos le]
      rw [made]
      rfl

end Addresses

end CellBag
