import CellBag.Proofs.Stack.Value
import Mathlib

/-!
# Recovered stacks

A stack is written from the bottom to the top, each value into a cell of its own that refers to the
cell below it, and it is read from the top to the bottom. Both lead through the same cells
(`Stack.loadValues_listCell`), so that every stack is read back from its cell
(`Stack.roundTrip`).
-/

namespace CellBag

namespace Store
variable {b : Builder}

/-- Two writes succeed where there is room for both. -/
lemma exists_write_write {v w : Bits.Write} {xs ys : List Bool} (first : v.Denotes xs)
    (second : w.Denotes ys) (room : xs.length + ys.length ≤ b.availableBits) :
    ∃ b', (do write v.run; write w.run) b = .ok () b' := by
  rw [← List.length_append] at room
  obtain ⟨b'', all⟩ := Builder.exists_between room
  rw [← List.nil_append []] at all
  obtain ⟨b', front, rest⟩ := Builder.between_append.1 all
  refine ⟨b'', Outcome.action_bind_eq_ok.2 ⟨(), b', ?_, ?_⟩⟩
  · exact write_eq_ok.2 ⟨xs, first, front⟩
  · exact write_eq_ok.2 ⟨ys, second, rest⟩

/-- The integers that can be stored are those in range of 257 bits. -/
theorem exists_value_int {i : Int} :
    (∃ b, value (.int i) Builder.empty = .ok () b) ↔ Binary.InRange i 257 := by
  rw [value]
  split
  case isTrue tiny =>
    have same : (BitVec.ofInt 64 i).toInt = i := beq_iff_eq.1 tiny
    have range := Binary.inRange_toInt_word (BitVec.ofInt 64 i)
    apply iff_of_true
    · have tag := Bits.Write.eq_ofNat_iff.1 (show 1 < 2 ^ 8 ∧ _ = _ from ⟨by decide, rfl⟩)
      have word := Bits.Write.eq_ofInt_iff.1 ⟨range, rfl⟩
      exact exists_write_write (v := .nat 1 8) (w := .signedWord _ 64) tag word
        (by rw [tag.1, word.1]; decide)
    · rw [same] at range
      exact range.mono (by decide)
  case isFalse =>
    constructor
    · intro h
      obtain ⟨b, run⟩ := h
      obtain ⟨_, _, _, run⟩ := Outcome.action_bind_eq_ok.1 run
      obtain ⟨_, denotes, _⟩ := (write_eq_ok (w := .int i 257)).1 run
      exact (Bits.Write.eq_ofInt_iff.2 denotes).1
    · intro range
      have tag := Bits.Write.eq_ofNat_iff.1 (show 0x100 < 2 ^ 15 ∧ _ = _ from ⟨by decide, rfl⟩)
      have number := Bits.Write.eq_ofInt_iff.1 ⟨range, rfl⟩
      exact exists_write_write (v := .nat 0x100 15) (w := .int i 257) tag number
        (by rw [tag.1, number.1]; decide)

end Store

namespace Stack
variable {v : Value} {vs : List Value} {c below : Cell} {depth : Nat} {s t : Slice}

/-- What stands in front of a list: the cell of the values below, and the value on top. -/
def link : Load (Cell × Value) := do
  let below ← Load.ref
  let top ← Load.value
  return (below, top)

/-- A link of a stack is read back. -/
lemma recovers_link (proper : v.Proper) :
    Recovers link (do Store.ref below; Store.value v) (below, v) :=
  (recovers_ref below).bind ((recovers_value proper).map fun top => (below, top))

/-- Behind a link the values below it are loaded. -/
lemma loadValues_succ (here : link s = .ok (below, v) t) (ended : t.isEmpty = true)
    (later : loadValues depth (Slice.ofCell below) = .ok vs) :
    loadValues (depth + 1) s = .ok (v :: vs) := by
  obtain ⟨_, s₁, first, here⟩ := Outcome.action_bind_eq_ok.1 here
  obtain ⟨_, s₂, second, here⟩ := Outcome.action_bind_eq_ok.1 here
  cases here
  have finished : Load.finish t = .ok () t := by rw [Load.finish, if_pos ended]
  have run : (do
      let below ← Load.ref
      let top ← Load.value
      Load.finish
      return (below, top) : Load (Cell × Value)) s = .ok (below, v) t := by
    rw [Outcome.action_bind_of_ok first, Outcome.action_bind_of_ok second,
      Outcome.action_bind_of_ok finished]
    rfl
  simp only [loadValues, run, later]
  rfl

/-- The values of a list are loaded from its cell. -/
theorem loadValues_listCell (proper : ∀ v ∈ vs, v.Proper) (made : listCell vs = .ok c) :
    loadValues vs.length (Slice.ofCell c) = .ok vs := by
  induction vs generalizing c with
  | nil =>
    cases made
    rfl
  | cons v vs ih =>
    obtain ⟨first, proper⟩ := List.forall_mem_cons.1 proper
    obtain ⟨below, stored, made⟩ := Outcome.bind_eq_ok.1 made
    obtain ⟨t, here, ended⟩ := (recovers_link first).exists_load made
    exact loadValues_succ here ended (ih proper stored)

/-- A stack is loaded from its depth and its values. -/
lemma ofCell_of_word {depth : BitVec 64}
    (first : Load.word depthWidth (Slice.ofCell c) = .ok depth t)
    (later : loadValues depth.toNat t = .ok vs) : ofCell c = .ok ⟨vs⟩ := by
  rw [ofCell, first]
  dsimp only
  rw [later]
  rfl

/-- A stack is read back from its cell. -/
theorem ofCell_of_toCell {s : Stack} (proper : ∀ v ∈ s.values, v.Proper) (made : s.toCell = .ok c) :
    ofCell c = .ok s := by
  obtain ⟨vs⟩ := s
  rw [toCell] at made
  obtain ⟨few, made⟩ := Outcome.guard_eq_ok.1 made
  have few : vs.length < 2 ^ 24 := Nat.not_le.1 few
  have depth : (BitVec.ofNat 64 vs.length).toNat = vs.length := by
    rw [BitVec.toNat_ofNat, Nat.mod_eq_of_lt (by omega)]
  cases vs with
  | nil =>
    obtain ⟨t, here, ended⟩ := (recovers_natWord 0 (by decide)).exists_load made
    have finished : Load.finish t = .ok () t := by rw [Load.finish, if_pos ended]
    apply ofCell_of_word here
    show loadValues 0 t = .ok []
    rw [loadValues, finished]
  | cons v vs =>
    obtain ⟨first, proper⟩ := List.forall_mem_cons.1 proper
    obtain ⟨below, stored, made⟩ := Outcome.bind_eq_ok.1 made
    have all : Recovers (do
          let depth ← Load.word depthWidth
          let next ← link
          return (depth, next))
        (do
          Store.nat (vs.length + 1) depthWidth
          Store.ref below
          Store.value v)
        (BitVec.ofNat 64 (vs.length + 1), below, v) :=
      (recovers_natWord _ (by decide)).bind ((recovers_link first).map fun next => (_, next))
    obtain ⟨t, run, ended⟩ := all.exists_load made
    obtain ⟨_, s₁, word, run⟩ := Outcome.action_bind_eq_ok.1 run
    obtain ⟨_, s₂, here, run⟩ := Outcome.action_bind_eq_ok.1 run
    cases run
    apply ofCell_of_word word
    rw [List.length_cons] at depth
    rw [depth]
    exact loadValues_succ here ended (loadValues_listCell proper stored)

/-- Values are read back from their cells with nothing left, and so are stacks. The integers that
can be stored are those of 257 bits. -/
theorem roundTrip :
    (∀ (v : Value) (c : Cell), v.Proper → v.toCell = .ok c →
      Value.ofCell c = .ok v ∧
        ∃ t, Load.value (Slice.ofCell c) = .ok v t ∧ Load.finish t = .ok () t) ∧
    (∀ (s : Stack) (c : Cell), (∀ v ∈ s.values, v.Proper) → s.toCell = .ok c →
      ofCell c = .ok s) ∧
    ∀ i : Int, (∃ b, Store.value (.int i) Builder.empty = .ok () b) ↔
      -2 ^ 256 ≤ i ∧ i ≤ 2 ^ 256 - 1 := by
  refine ⟨?_, ?_, ?_⟩
  · intro v c proper made
    have recovers := recovers_value proper
    obtain ⟨t, run, ended⟩ := recovers.exists_load made
    have finished : Load.finish t = .ok () t := by rw [Load.finish, if_pos ended]
    exact ⟨recovers.ofCell_eq made, t, run, finished⟩
  · intro s c proper made
    exact ofCell_of_toCell proper made
  · intro i
    rw [Store.exists_value_int, Binary.InRange]
    omega

/-- A tuple in a tuple, alone and on top of a slice of which one bit has been read. -/
theorem roundTrip_nested :
    ∃ v c s c', v.toCell = .ok c ∧ Value.ofCell c = .ok v ∧
      s.values.length = 2 ∧ v ∈ s.values ∧ s.toCell = .ok c' ∧ ofCell c' = .ok s := by
  let octet : Cell := ((Store.toCell (Store.nat 0xA5 8)).toOption).getD Cell.empty
  let v : Value := .tuple [.null, .tuple [.nan, .int (-2 ^ 256)], .int 5]
  let s : Stack := ⟨[v, .slice ⟨octet, 1, 0⟩]⟩
  have inner : (Value.tuple [.nan, .int (-2 ^ 256)]).Proper := by
    apply Value.Proper.tuple
    simp only [List.forall_mem_cons]
    exact ⟨.nan, .int, List.forall_mem_nil _⟩
  have proper : v.Proper := by
    apply Value.Proper.tuple
    simp only [List.forall_mem_cons]
    exact ⟨.null, inner, .int, List.forall_mem_nil _⟩
  have all : ∀ v ∈ s.values, v.Proper := by
    simp only [s, List.forall_mem_cons]
    exact ⟨proper, .slice (by decide +kernel) (Nat.zero_le _), List.forall_mem_nil _⟩
  have stored : v.toCell.isOk = true := by decide +kernel
  have stored' : s.toCell.isOk = true := by decide +kernel
  cases made : v.toCell with
  | error =>
    rw [made] at stored
    cases stored
  | ok c =>
    cases made' : s.toCell with
    | error =>
      rw [made'] at stored'
      cases stored'
    | ok c' =>
      have alone := (roundTrip.1 v c proper made).1
      have within := roundTrip.2.1 s c' all made'
      exact ⟨v, c, s, c', made, alone, rfl, List.mem_cons_self, made', within⟩

end Stack
end CellBag
