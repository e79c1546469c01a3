import CellBag.Proofs.Stream.Codec
import CellBag.Stack.Basic
import Mathlib

/-!
# Loaded values

Loading a value looks up what the references of a cell stand for by their positions. The same is
loaded when each reference is read and what its cell stores is taken at once
(`Load.tuple_eq`, `Load.value_eq`, `Value.ofCell_eq`, `Value.itemsOfCell_eq`).
-/

namespace CellBag

namespace Load
variable {α β : Type} {s t : Slice}

/-- A load that stays within the cell of the slice. -/
def Stays (load : Load α) : Prop :=
  ∀ s a t, load s = .ok a t → t.cell = s.cell

/-- Behind a load that stays within the cell, only what loads do there matters. -/
lemma bind_congr {load : Load α} {f g : α → Load β} (stays : load.Stays)
    (same : ∀ a t, t.cell = s.cell → f a t = g a t) : (load >>= f) s = (load >>= g) s := by
  cases run : load s with
  | ok a t =>
    rw [Outcome.action_bind_of_ok run, Outcome.action_bind_of_ok run]
    exact same a t (stays s a t run)
  | error e t => rw [Outcome.action_bind_of_error run, Outcome.action_bind_of_error run]

/-- A value is loaded within the cell. -/
lemma stays_take {f : Bits → Nat → Except Error α} {width : Nat} : (take f width).Stays := by
  intro s a t run
  rw [(take_eq_ok.1 run).2]
  rfl

/-- A reference is loaded by its position. -/
lemma ref_eq (s : Slice) : ref s =
    match s.cell.refs[s.refPosition]? with
    | some c => .ok c (s.advance 0 1)
    | none => .error (.underrun .refs 1 s.refsLeft) s := by
  have next : s.remainingRefs[0]? = s.cell.refs[s.refPosition]? := by
    rw [Slice.remainingRefs, List.getElem?_drop, Nat.add_zero]
  rw [← next]
  cases first : s.remainingRefs[0]? with
  | some c =>
    have peeked : peekNextRef s = .ok c s := by rw [peekNextRef, first]
    exact Outcome.action_bind_of_ok peeked
  | none =>
    have peeked : peekNextRef s = .error (.underrun .refs 1 s.refsLeft) s := by
      rw [peekNextRef, first]
    exact Outcome.action_bind_of_error peeked

/-- What the cell of the next reference stores. -/
def next (f : Cell → Except Error α) : Load α := do
  let c ← ref
  ofExcept (f c)

/-- What the cell of a reference stores is loaded within the cell. -/
lemma stays_next {f : Cell → Except Error α} : (next f).Stays := by
  intro s a t run
  obtain ⟨c, u, first, second⟩ := Outcome.action_bind_eq_ok.1 run
  obtain ⟨_, rfl⟩ := Outcome.action_ofExcept_eq_ok.1 second
  rw [ref_eq] at first
  split at first
  · cases first
    rfl
  · cases first

/-- What a reference stores may be looked up by its position. -/
lemma lookup_eq {f : Cell → Except Error α} {g : Nat → Except Error α}
    (same : ∀ i c, s.cell.refs[i]? = some c → g i = f c) :
    (do ofExcept (g (← refIndex)) : Load α) s = next f s := by
  have steps : refIndex s = (do let _ ← ref; return s.refPosition : Load Nat) s := rfl
  cases here : s.cell.refs[s.refPosition]? with
  | some c =>
    have run : ref s = .ok c (s.advance 0 1) := by rw [ref_eq, here]
    have index : refIndex s = .ok s.refPosition (s.advance 0 1) := by
      rw [steps, Outcome.action_bind_of_ok run]
      rfl
    rw [next, Outcome.action_bind_of_ok run, Outcome.action_bind_of_ok index, same _ c here]
  | none =>
    have run : ref s = .error (.underrun .refs 1 s.refsLeft) s := by rw [ref_eq, here]
    have index : refIndex s = .error (.underrun .refs 1 s.refsLeft) s := by
      rw [steps, Outcome.action_bind_of_error run]
    rw [next, Outcome.action_bind_of_error run, Outcome.action_bind_of_error index]

/-- A reference may be looked up by its position. -/
lemma lookup_bind_eq {f : Cell → Except Error α} {g : Nat → Except Error α} {k k' : α → Load β}
    (same : ∀ i c, s.cell.refs[i]? = some c → g i = f c)
    (later : ∀ a t, t.cell = s.cell → k a t = k' a t) :
    (do let i ← refIndex; let a ← ofExcept (g i); k a) s = (do let a ← next f; k' a) s := by
  have first := lookup_eq same
  rw [← bind_assoc]
  trans (next f >>= k) s
  · exact Outcome.action_bind_congr first
  · exact bind_congr stays_next later

end Load

namespace Value

/-- The value of a reference is that of its cell. -/
lemma ofNth_of_getElem? {cs : List Cell} {i : Nat} {c : Cell} (at' : cs[i]? = some c) :
    ofNth cs i = ofCell c := by
  induction cs generalizing i with
  | nil => cases at'
  | cons first cs ih =>
    cases i with
    | zero =>
      cases at'
      rw [ofNth]
    | succ i =>
      rw [ofNth]
      exact ih at'

/-- The items of a reference are those of its cell. -/
lemma itemsOfNth_of_getElem? {cs : List Cell} {i count : Nat} {c : Cell} (at' : cs[i]? = some c) :
    itemsOfNth cs i count = itemsOfCell count c := by
  induction cs generalizing i with
  | nil => cases at'
  | cons first cs ih =>
    cases i with
    | zero =>
      cases at'
      rw [itemsOfNth]
    | succ i =>
      rw [itemsOfNth]
      exact ih at'

end Value

namespace Load

/-- The items of a tuple, the last one first: one more item behind those in another cell, or behind
another item if this is the only one before. -/
def tuple : (count : Nat) → Load (List Value)
  | 0 => return []
  | 1 => do
    let last ← next Value.ofCell
    return [last]
  | 2 => do
    let first ← next Value.ofCell
    let last ← next Value.ofCell
    return [last, first]
  | count + 1 => do
    let before ← next (Value.itemsOfCell count)
    let last ← next Value.ofCell
    return last :: before

/-- A tuple may be loaded by its references. -/
lemma tuple_eq {refs : List Cell} (count : Nat) {s : Slice} (here : s.cell.refs = refs) :
    tupleWith (Value.ofNth refs) (Value.itemsOfNth refs) count s = tuple count s := by
  have item {β : Type} {k k' : Value → Load β} {s : Slice} (here : s.cell.refs = refs)
      (later : ∀ a t, t.cell = s.cell → k a t = k' a t) :
      (do let i ← refIndex; let a ← ofExcept (Value.ofNth refs i); k a) s =
        (do let a ← next Value.ofCell; k' a) s := by
    apply lookup_bind_eq _ later
    intro i c at'
    rw [here] at at'
    exact Value.ofNth_of_getElem? at'
  match count with
  | 0 => rfl
  | 1 => exact item here fun _ _ _ => rfl
  | 2 =>
    apply item here
    intro first t same
    exact item (same ▸ here) fun _ _ _ => rfl
  | count + 3 =>
    have several (i : Nat) (c : Cell) (at' : s.cell.refs[i]? = some c) :
        Value.itemsOfNth refs i (count + 2) = Value.itemsOfCell (count + 2) c := by
      rw [here] at at'
      exact Value.itemsOfNth_of_getElem? at'
    apply lookup_bind_eq several
    intro before t same
    exact item (same ▸ here) fun _ _ _ => rfl

/-- Loads a value whose tuples are read from the cells of their references. -/
lemma value_eq : value = (do
    match (← word 8).toNat with
    | 0 => return .null
    | 1 => return .int (← signedWord 64).toInt
    | 2 =>
      match (← word 7).toNat with
      | 0 => return .int (← int 257)
      | 127 => if ← bit then return .nan else throw .invalidTag
      | _ => throw .invalidTag
    | 3 => return .cell (← ref)
    | 4 => return .slice (← window)
    | 5 => return .builder (← ref)
    | 6 => throw (.unexpectedValue .continuation)
    | 7 =>
      let count ← word 16
      let items ← tuple count.toNat
      return .tuple items.reverse
    | _ => throw .invalidTag) := by
  funext s
  show valueWith (Value.ofNth s.cell.refs) (Value.itemsOfNth s.cell.refs) s = _
  apply bind_congr stays_take
  intro tag t same
  generalize tag.toNat = kind
  match kind with
  | 0 | 1 | 2 | 3 | 4 | 5 | 6 => rfl
  | 7 =>
    apply bind_congr stays_take
    intro count u same'
    have refs : u.cell.refs = s.cell.refs := by rw [same', same]
    exact Outcome.action_bind_congr (tuple_eq count.toNat refs)
  | kind + 8 => rfl

end Load

namespace Value

/-- Loads that do the same at the front of a cell read the same from all of it. -/
lemma wholeCell_congr {α : Type} {load load' : Load α} {c : Cell}
    (same : load (Slice.ofCell c) = load' (Slice.ofCell c)) :
    wholeCell load c = wholeCell load' c := by
  have run := Outcome.action_bind_congr (f := fun a => do Load.finish; return a) same
  rw [wholeCell, wholeCell, Load.fromCell, Load.fromCell, run]

/-- The items of a cell are those of the tuple that it stores. -/
lemma itemsOfCell_eq (count : Nat) (c : Cell) :
    itemsOfCell count c = wholeCell (Load.tuple count) c := by
  cases c with
  | mk kind bits refs mask own =>
    rw [itemsOfCell]
    exact wholeCell_congr (Load.tuple_eq count rfl)

/-- The value of a cell is the one that it stores. -/
lemma ofCell_eq (c : Cell) : ofCell c = wholeCell Load.value c := by
  cases c with
  | mk kind bits refs mask own =>
    rw [ofCell]
    rfl

end Value

end CellBag
