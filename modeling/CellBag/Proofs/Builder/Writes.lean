import CellBag.Proofs.Bits.Write
import CellBag.Proofs.Builder
import Mathlib

/-!
# Written parts

What an action of a builder appends does not depend on what the builder has: it is the same bits and
references wherever there is room for them (`Store.Writes`). Actions in sequence append their parts
in this order (`Store.Writes.bind`), and the cell that is made has all of them
(`Store.Writes.toCell_eq_ok`).
-/

namespace CellBag.Store
open Builder

/-- An action appends these bits and references exactly where there is room for them, and fails
elsewhere. -/
def Writes (action : Store Unit) (xs : List Bool) (cs : List Cell) : Prop :=
  ∀ b u b', action b = .ok u b' ↔ cs.length ≤ b.availableRefs ∧ Between b xs cs b'

variable {action next : Store Unit} {xs ys : List Bool} {cs ds : List Cell} {b b' : Builder}

/-- An action that appends no references needs no room for any. -/
lemma Writes.of_bits (h : ∀ b u b', action b = .ok u b' ↔ Between b xs [] b') :
    Writes action xs [] := by
  intro b u b'
  rw [h b u b']
  exact (and_iff_right (Nat.zero_le _)).symm

/-- What two actions append stands in the same order. -/
lemma Writes.bind (first : Writes action xs cs) (second : Writes next ys ds) :
    Writes (do action; next) (xs ++ ys) (cs ++ ds) := by
  intro b u b'
  rw [Outcome.action_bind_eq_ok, between_append, List.length_append]
  constructor
  · intro run
    obtain ⟨v, middle, run, run'⟩ := run
    obtain ⟨room, front⟩ := (first b v middle).1 run
    obtain ⟨room', rest⟩ := (second middle u b').1 run'
    rw [front.availableRefs_eq] at room'
    exact ⟨by omega, middle, front, rest⟩
  · intro h
    obtain ⟨room, middle, front, rest⟩ := h
    have room' : ds.length ≤ middle.availableRefs := by
      rw [front.availableRefs_eq]
      omega
    exact ⟨(), middle, (first b () middle).2 ⟨by omega, front⟩,
      (second middle u b').2 ⟨room', rest⟩⟩

/-- Room for what is appended may be asked for in front. -/
lemma Writes.ensure {bits refs : Nat} (h : Writes action xs cs) (leBits : bits ≤ xs.length)
    (leRefs : refs ≤ cs.length) :
    Writes (do ensureBits bits; ensureRefs refs; action) xs cs := by
  intro b u b'
  simp only [Outcome.action_bind_eq_ok, ensureBits_eq_ok, ensureRefs_eq_ok, h _ _ _]
  constructor
  · intro run
    obtain ⟨_, _, ⟨_, rfl⟩, _, _, ⟨_, rfl⟩, written⟩ := run
    exact written
  · intro written
    have room := Nat.le_trans leBits written.2.length_le
    have room' := Nat.le_trans leRefs written.1
    exact ⟨(), b, ⟨room, rfl⟩, (), b, ⟨room', rfl⟩, written⟩

/-- The cell that an action writes has the bits and references that it appends. -/
lemma Writes.toCell_eq_ok {c : Cell} (h : Writes action xs cs) :
    toCell action = .ok c ↔
      c.bits.toList = xs ∧ c.refs = cs ∧ c.isExotic = false ∧ c.WellFormed :=
  Store.toCell_eq_ok (h Builder.empty)

/-- Where there is room for what an action appends, it appends it. -/
lemma Writes.exists_run (h : Writes action xs cs) (room : xs.length ≤ b.availableBits)
    (room' : cs.length ≤ b.availableRefs) : ∃ b', action b = .ok () b' ∧ Between b xs cs b' := by
  obtain ⟨middle, bits, _, exotic⟩ := exists_between room
  have between : Between b xs cs ⟨middle.bits, b.refs ++ cs, middle.exotic⟩ := ⟨bits, rfl, exotic⟩
  exact ⟨_, (h b () _).2 ⟨room', between⟩, between⟩

/-- The cell that is made of what an action appends. -/
lemma Writes.exists_toCell (h : Writes action xs cs) (room : xs.length ≤ Bits.capacity)
    (few : cs.length ≤ Cell.maxRefs) :
    ∃ bits : Bits, bits.toList = xs ∧ toCell action = Cell.finalize bits cs false := by
  refine ⟨⟨xs, room⟩, rfl, ?_⟩
  have run := (h Builder.empty () ⟨⟨xs, room⟩, cs, false⟩).2 ⟨few, rfl, rfl, rfl⟩
  rw [toCell, run]
  rfl

section Parts

/-- A write that succeeds has appended what denotes its value. -/
lemma write_eq_ok {w : Bits.Write} {u : Unit} :
    write w.run b = .ok u b' ↔ ∃ xs, w.Denotes xs ∧ Between b xs [] b' := by
  rw [write, Bits.Write.run_eq]
  simp only [← Bits.Write.spelling_eq_ok]
  cases w.spelling with
  | ok xs =>
    simp only [Except.ok.injEq, exists_eq_left']
    exact append_eq_ok
  | error e =>
    apply iff_of_false
    · intro h
      cases h
    · intro h
      obtain ⟨_, h, _⟩ := h
      cases h

/-- Bits are written as they are. -/
lemma writes_append (xs : List Bool) : Writes (write (·.append xs)) xs [] :=
  .of_bits fun _ _ _ => append_eq_ok

/-- A bit is written as it is. -/
lemma writes_bit (value : Bool) : Writes (bit value) [value] [] :=
  writes_append [value]

/-- A natural number that fits is written as its numeral. -/
lemma writes_nat {n width : Nat} (lt : n < 2 ^ width) :
    Writes (nat n width) (Binary.ofNat width n) [] := by
  apply Writes.of_bits
  intro b u b'
  have denotes (xs : List Bool) : (Bits.Write.nat n width).Denotes xs ↔ xs = Binary.ofNat width n :=
    Bits.Write.eq_ofNat_iff.symm.trans (and_iff_right lt)
  refine (write_eq_ok (w := .nat n width)).trans ?_
  simp only [denotes, exists_eq_left]

/-- Bytes are written as their bits. -/
lemma writes_bytes (value : List UInt8) : Writes (bytes value) (Octets.unpack value) [] := by
  apply Writes.of_bits
  intro b u b'
  refine (write_eq_ok (w := .bytes value)).trans ?_
  simp only [Bits.Write.Denotes, exists_eq_left]

/-- A reference is written as it is. -/
lemma writes_ref (c : Cell) : Writes (ref c) [] [c] :=
  fun _ _ _ => ref_eq_ok

/-- A cell is written as its bits and references. -/
lemma writes_cell (c : Cell) : Writes (cell c) c.bits.toList c.refs :=
  fun _ _ _ => cell_eq_ok

/-- An optional reference is written behind a bit that says whether it is there. -/
lemma writes_maybeRef (value : Option Cell) :
    Writes (maybeRef value) [value.isSome] value.toList := by
  cases value with
  | none => exact writes_bit false
  | some c => exact ((writes_bit true).bind (writes_ref c)).ensure (Nat.le_refl 1) (Nat.le_refl 1)

end Parts

end CellBag.Store
