import CellBag.Proofs.Stack.Loading
import Mathlib

/-!
# Recovered stack values

Every value whose slices stay within their cells is recovered (`recovers_value`). The items of a
tuple are stored one after the other, the ones before always in one cell, and the cells are read
back in the other direction (`recovers_tupleItems`).
-/

namespace CellBag

/-- The slices in a value have read no more than their cells hold. -/
inductive Value.Proper : Value → Prop where
  | null : Proper .null
  | int {i : Int} : Proper (.int i)
  | nan : Proper .nan
  | cell {c : Cell} : Proper (.cell c)
  | slice {s : Slice} :
    s.bitPosition ≤ s.cell.bits.length →
    s.refPosition ≤ s.cell.refs.length →
    Proper (.slice s)
  | builder {c : Cell} : Proper (.builder c)
  | tuple {items : List Value} :
    (∀ v ∈ items, Proper v) →
    Proper (.tuple items)

section Tuples
variable {α : Type} {a : α} {store : Store Unit} {v : Value} {c : Cell}

/-- A whole cell is read when its action leaves nothing. -/
lemma Recovers.wholeCell {load : Load α} (r : Recovers load store a)
    (made : Store.toCell store = .ok c) : Value.wholeCell load c = .ok a := by
  obtain ⟨t, run, empty⟩ := r.exists_load made
  have finished : Load.finish t = .ok () t := by rw [Load.finish, if_pos empty]
  rw [Value.wholeCell, Load.fromCell, Outcome.action_bind_of_ok run,
    Outcome.action_bind_of_ok finished]
  rfl

/-- The cell of a reference is read behind it. -/
lemma recovers_next {f : Cell → Except Error α} (e : f c = .ok a) :
    Recovers (Load.next f) (Store.ref c) a := by
  apply (recovers_ref c).then_return
  intro s
  rw [e]
  rfl

/-- A value that is read back is read from its cell. -/
lemma Recovers.ofCell_eq (r : Recovers Load.value (Store.value v) v)
    (made : Store.toCell (Store.value v) = .ok c) : Value.ofCell c = .ok v := by
  rw [Value.ofCell_eq]
  exact r.wholeCell made

/-- The items of a tuple that a cell stands for while the others are still to be stored. -/
inductive Before : Option Cell → List Value → Prop where
  | none : Before none []
  | one {c : Cell} {v : Value} : Value.ofCell c = .ok v → Before (some c) [v]
  | several {c : Cell} {items : List Value} :
    2 ≤ items.length →
    Value.itemsOfCell items.length c = .ok items.reverse →
    Before (some c) items

/-- There are items in front of a head. -/
lemma Before.one_le {head : Cell} {done : List Value} (h : Before (some head) done) :
    1 ≤ done.length := by
  cases h with
  | one => exact Nat.le_refl 1
  | several two => exact Nat.le_of_succ_le two

/-- One more item behind those before makes a tuple. -/
lemma recovers_tuple_snoc {head : Cell} {done : List Value} (before : Before (some head) done)
    (last : Recovers (Load.next Value.ofCell) store v) :
    Recovers (Load.tuple (done.length + 1)) (do Store.ref head; store) (v :: done.reverse) := by
  cases before with
  | one e => exact (recovers_next e).bind (last.map fun last => [last, _])
  | several two e =>
    obtain ⟨count, len⟩ := Nat.exists_eq_add_of_le' two
    rw [len] at e ⊢
    exact (recovers_next e).bind (last.map fun last => last :: _)

section Equations
variable (head : Cell) (item second : Value) (items : List Value)

/-- A tuple of one item is stored as a reference to it. -/
lemma store_single : Store.tupleItems none [item] = (do
    let tail ← ofExcept (Store.toCell (Store.value item))
    Store.ref tail) := by
  simp only [Store.tupleItems]

/-- The last item is stored behind a reference to those before it. -/
lemma store_last : Store.tupleItems (some head) [item] = (do
    Store.ref head
    let tail ← ofExcept (Store.toCell (Store.value item))
    Store.ref tail) := by
  simp only [Store.tupleItems]

/-- The first item of a tuple is the head of the second one. -/
lemma store_first : Store.tupleItems none (item :: second :: items) = (do
    let here ← ofExcept (Store.toCell (Store.value item))
    Store.tupleItems (some here) (second :: items)) := by
  simp only [Store.tupleItems]

/-- An item in the middle is linked to those before it. -/
lemma store_next : Store.tupleItems (some head) (item :: second :: items) = (do
    let here ← ofExcept (Store.toCell (Store.value item))
    let more ← ofExcept (Store.toCell do
      Store.ref head
      Store.ref here)
    Store.tupleItems (some more) (second :: items)) := by
  simp only [Store.tupleItems]

end Equations

/-- Items are recovered behind those before. -/
theorem recovers_tupleItems {before : Option Cell} {done items : List Value}
    (values : ∀ v ∈ items, Recovers Load.value (Store.value v) v) (h : Before before done)
    (ne : items ≠ []) :
    Recovers (Load.tuple (done ++ items).length) (Store.tupleItems before items)
      (done ++ items).reverse := by
  -- the items are stored from the front, each behind the cell of all before it, so the induction is
  -- on what is left and lets that cell grow
  induction items generalizing before done with
  | nil => exact absurd rfl ne
  | cons item items ih =>
    obtain ⟨first, values⟩ := List.forall_mem_cons.1 values
    cases items with
    | nil =>
      have last : Recovers (Load.next Value.ofCell)
          (do let tail ← ofExcept (Store.toCell (Store.value item)); Store.ref tail) item :=
        Recovers.of_except fun tail made => recovers_next (first.ofCell_eq made)
      rw [List.reverse_append, List.length_append]
      cases before with
      | none =>
        rw [store_single]
        cases h
        exact last.map fun last => [last]
      | some head =>
        rw [store_last]
        exact recovers_tuple_snoc h last
    | cons second items =>
      rw [List.append_cons]
      cases before with
      | none =>
        rw [store_first]
        cases h
        apply Recovers.of_except
        intro here made
        exact ih values (.one (first.ofCell_eq made)) (List.cons_ne_nil _ _)
      | some head =>
        rw [store_next]
        apply Recovers.of_except
        intro here made
        have value := first.ofCell_eq made
        apply Recovers.of_except
        intro more made
        apply ih values _ (List.cons_ne_nil _ _)
        have two : 2 ≤ (done ++ [item]).length := by
          rw [List.length_append]
          exact Nat.succ_le_succ h.one_le
        apply Before.several two
        rw [Value.itemsOfCell_eq, List.length_append, List.reverse_append]
        exact (recovers_tuple_snoc h (recovers_next value)).wholeCell made

/-- The items of a tuple are read back. -/
lemma recovers_items {items : List Value}
    (values : ∀ v ∈ items, Recovers Load.value (Store.value v) v) :
    Recovers (Load.tuple items.length) (Store.tupleItems none items) items.reverse := by
  cases items with
  | nil =>
    rw [Store.tupleItems]
    exact Recovers.pure []
  | cons item items => exact recovers_tupleItems values .none (List.cons_ne_nil _ _)

end Tuples

/-- A window onto a cell is read back. -/
lemma recovers_window {s : Slice} (bits : s.bitPosition ≤ s.cell.bits.length)
    (refs : s.refPosition ≤ s.cell.refs.length) : Recovers Load.window (Store.window s) s := by
  apply (recovers_ref _).bind
  apply recovers_nat_bind (by decide)
  intro firstBit firstBit_eq
  apply recovers_nat_bind (by decide)
  intro endBit endBit_eq
  apply recovers_nat_bind (by decide)
  intro firstRef firstRef_eq
  rw [← bind_pure_unit (x := Store.nat s.cell.refs.length 3)]
  apply recovers_nat_bind (by decide)
  intro endRef endRef_eq
  rw [firstBit_eq, endBit_eq, firstRef_eq, endRef_eq]
  dsimp only
  rw [if_neg (by omega), if_neg (by omega), if_pos ⟨rfl, rfl⟩]
  exact Recovers.pure s

/-- A value is recovered as a whole. -/
theorem recovers_value {v : Value} (proper : v.Proper) :
    Recovers Load.value (Store.value v) v := by
  induction proper with
  | null =>
    rw [Load.value_eq, Store.value]
    exact (recovers_natWord 0 (by decide)).then_return fun _ => rfl
  | @int i =>
    rw [Load.value_eq, Store.value]
    split
    case isTrue tiny =>
      have same : (BitVec.ofInt 64 i).toInt = i := beq_iff_eq.1 tiny
      have word := (recovers_signedWord (BitVec.ofInt 64 i) (Nat.le_refl 64)).map
        fun x => Value.int x.toInt
      rw [same] at word
      exact (recovers_natWord 1 (by decide)).bind word
    case isFalse =>
      -- 15 bits are stored at once and read as the tag and the seven bits behind it
      apply recovers_nat_split (n := 2) (m := 0) (w := 8) (v := 7) (by decide)
      apply (recovers_natWord 2 (by decide)).bind
      exact (recovers_natWord 0 (by decide)).bind ((recovers_int i 257).map Value.int)
  | nan =>
    -- after the seven bits that are zero before an integer there is one more bit to read
    rw [Load.value_eq, Store.value, ← bind_pure_unit (x := Store.nat 0x2FF 16)]
    apply recovers_nat_split (n := 2) (m := 255) (w := 8) (v := 8) (by decide)
    apply (recovers_natWord 2 (by decide)).bind
    apply recovers_nat_split (n := 127) (m := 1) (w := 7) (v := 1) (by decide)
    apply (recovers_natWord 127 (by decide)).bind
    rw [bind_pure_unit]
    exact (recovers_natBit true).then_return fun _ => rfl
  | cell =>
    rw [Load.value_eq, Store.value]
    exact (recovers_natWord 3 (by decide)).bind ((recovers_ref _).map Value.cell)
  | slice bits refs =>
    rw [Load.value_eq, Store.value]
    exact (recovers_natWord 4 (by decide)).bind ((recovers_window bits refs).map Value.slice)
  | builder =>
    rw [Load.value_eq, Store.value]
    exact (recovers_natWord 5 (by decide)).bind ((recovers_ref _).map Value.builder)
  | @tuple items _ ih =>
    rw [Load.value_eq, Store.value]
    have all := (recovers_items ih).map fun items => Value.tuple items.reverse
    rw [List.reverse_reverse] at all
    split
    case isTrue =>
      -- too many items are refused before anything is stored
      intro u b b' run
      obtain ⟨_, _, thrown, _⟩ := Outcome.action_bind_eq_ok.1 run
      cases thrown
    case isFalse =>
      apply (recovers_natWord 7 (by decide)).bind
      apply recovers_nat_bind (by decide)
      intro count same
      rw [same]
      exact all

end CellBag
