import CellBag.Proofs.Cell.Binding
import CellBag.Proofs.Dictionary.Exotic
import CellBag.Proofs.StateInit.Layout
import Mathlib

/-!
# Round trip of initial states

An initial state is read back from the cell that it is stored as, if its libraries have keys of the
right width and ordinary values and are not too many (`StateInit.ofCell_toCell`). So the address of a
contract binds the state that it begins with: states with one address are the same, unless there is
a collision among the cells that store them.
-/

namespace CellBag

/-- A dictionary of ordinary values is read back from what it is stored as. -/
lemma Dictionary.WellFormed.ofRoot?_of_toRoot {d : Dictionary} {root : Option Cell} {limit : Nat}
    (wf : d.WellFormed) (ordinary : ∀ e ∈ d.entries, e.2.isExotic = false) (le : d.size ≤ limit)
    (stored : d.toRoot = .ok root) : ofRoot? d.keyWidth limit root = .ok d := by
  cases root with
  | some root =>
    obtain ⟨es, read, _, same⟩ := wf.exists_restored stored
    have back := read limit le
    rw [← same.2 ordinary] at back
    exact back
  | none =>
    cases toRoot_eq_ok.1 stored with
    | inl empty =>
      obtain ⟨width, es⟩ := d
      obtain ⟨rfl, _⟩ := empty
      rfl
    | inr full =>
      obtain ⟨_, _, _, _, _, h⟩ := full
      cases h

namespace StateInit
variable {s s' : StateInit} {c c' : Cell}

/-- The states whose parts can be made. -/
structure Sound (s : StateInit) : Prop where
  code : ∀ c ∈ s.code, c.Built
  data : ∀ c ∈ s.data, c.Built
  library : s.library.Reachable

/-- The states whose libraries can be read back: with keys of the right width, ordinary values, and
no more entries than are read. -/
structure Regular (s : StateInit) : Prop where
  keyWidth_eq : s.library.keyWidth = libraryKeyWidth
  ordinary : ∀ e ∈ s.library.entries, e.2.isExotic = false
  size_le : s.library.size ≤ Dictionary.defaultLimit

/-- The cell that a state is stored as can be made. -/
lemma Sound.built_of_toCell (sound : s.Sound) (made : s.toCell = .ok c) : c.Built := by
  obtain ⟨_, root, stored, laid, _, wf⟩ := toCell_eq_ok.1 made
  apply wf.built
  rw [laid.refs_eq]
  refine forall_mem_refsOver.2 ⟨sound.code, sound.data, fun r mem => ?_⟩
  cases mem
  exact sound.library.wellFormed.built_of_toRoot stored

/-- The cell that a regular state is stored as is read back. -/
lemma Regular.ofCell_of_toCell (sound : s.Sound) (regular : s.Regular) (made : s.toCell = .ok c) :
    ofCell c = .ok s := by
  obtain ⟨le, root, stored, laid, _⟩ := toCell_eq_ok.1 made
  have read := sound.library.wellFormed.ofRoot?_of_toRoot regular.ordinary regular.size_le stored
  rw [regular.keyWidth_eq] at read
  refine ofCell_eq_ok.2 ⟨fun d mem => ?_, root, read, laid⟩
  exact Nat.lt_of_le_of_lt (le d mem) (by decide)

/-- A regular state whose parts can be made is read back from the cell that it is stored as, and its
split depth is not too large then. Two such states with equal addresses are the same, if the messages
that are hashed for their cells do not collide. -/
theorem ofCell_toCell :
    (∀ s c, Sound s → Regular s → s.toCell = .ok c →
      (∀ d ∈ s.splitDepth, d.toNat ≤ maxSplitDepth) ∧ ofCell c = .ok s) ∧
    ∀ s s' c c' workchain workchain' a a', Sound s → Regular s → Sound s' → Regular s' →
      s.toCell = .ok c → s'.toCell = .ok c' → NoCollision c c' →
      s.address workchain = .ok a → s'.address workchain' = .ok a' → (a == a') = true → s = s' := by
  constructor
  · intro s c sound regular made
    exact ⟨(toCell_eq_ok.1 made).1, regular.ofCell_of_toCell sound made⟩
  · intro s s' c c' workchain workchain' a a' sound regular sound' regular' made made' clean ea ea'
      same
    have hash : c.hash = c'.hash := by
      obtain ⟨_, e, rfl⟩ := address_eq_ok.1 ea
      obtain ⟨_, e', rfl⟩ := address_eq_ok.1 ea'
      cases made.symm.trans e
      cases made'.symm.trans e'
      exact beq_iff_eq.1 (Bool.and_eq_true_iff.1 same).2
    have cells := (sound.built_of_toCell made).eq_of_hash (sound'.built_of_toCell made') clean hash
    have back := regular.ofCell_of_toCell sound made
    have back' := regular'.ofCell_of_toCell sound' made'
    rw [← cells, back] at back'
    exact Except.ok.inj back'

/-- Two states that differ in their flags, with a split depth, code and a library. -/
theorem ofCell_toCell_flags :
    ∃ code library c c', Cell.leaf [0xA0] 3 = .ok code ∧
      (Dictionary.empty 256).insert ⟨.replicate 256 false, by decide +kernel⟩ code = .ok library ∧
      toCell ⟨some 7, some ⟨true, false⟩, some code, none, library⟩ = .ok c ∧
      toCell ⟨some 7, some ⟨false, true⟩, some code, none, library⟩ = .ok c' ∧
      ofCell c = .ok ⟨some 7, some ⟨true, false⟩, some code, none, library⟩ ∧
      ∀ a a', address ⟨some 7, some ⟨true, false⟩, some code, none, library⟩ 0 = .ok a →
        address ⟨some 7, some ⟨false, true⟩, some code, none, library⟩ 0 = .ok a' →
        (a == a') = false := by
  have run : (do
      let code ← Cell.leaf [0xA0] 3
      let library ← (Dictionary.empty 256).insert ⟨.replicate 256 false, by decide +kernel⟩ code
      let c ← toCell ⟨some 7, some ⟨true, false⟩, some code, none, library⟩
      let c' ← toCell ⟨some 7, some ⟨false, true⟩, some code, none, library⟩
      return (library.keyWidth, library.size,
        decide (∀ e ∈ library.entries, e.2.isExotic = false), decide (NoCollision c c'))) =
        .ok (256, 1, true, true) := by
    decide +kernel
  simp only [Outcome.bind_eq_ok, Outcome.pure_eq_ok, Prod.mk.injEq, decide_eq_true_eq] at run
  obtain ⟨code, ec, library, el, c, made, c', made', width, size, ordinary, clean⟩ := run
  have built := Cell.Built.leaf ec
  have sound (flags : TickTock) : Sound ⟨some 7, some flags, some code, none, library⟩ := by
    refine ⟨?_, ?_, .insert .empty built el⟩
    · intro d mem
      cases mem
      exact built
    · intro d mem
      cases mem
  have regular (flags : TickTock) : Regular ⟨some 7, some flags, some code, none, library⟩ :=
    ⟨width, ordinary, Nat.le_trans (Nat.le_of_eq size) (by decide)⟩
  refine ⟨code, library, c, c', ec, el, made, made', ?_, ?_⟩
  · exact (ofCell_toCell.1 _ c (sound _) (regular _) made).2
  · intro a a' ea ea'
    apply Bool.eq_false_iff.2
    intro same
    have states := ofCell_toCell.2 _ _ c c' 0 0 a a' (sound _) (regular _) (sound _) (regular _)
      made made' clean ea ea' same
    cases states

end StateInit

end CellBag
