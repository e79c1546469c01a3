import CellBag.Bag.Table
import CellBag.Proofs.Outcome
import Mathlib

/-!
# Cells of records

Cells are made of the records of a table from the last one to the first. The run gives the cells
that the records make over one another, if every reference goes further on in the table, and fails
otherwise (`Table.cells_eq_ok`).
-/

namespace CellBag.Bag

/-- A record makes a cell over the cells that its references name. -/
structure Record.Makes (cells : List Cell) (r : Record) (c : Cell) : Prop where
  finalize : ∃ refs, List.Forall₂ (fun n d => cells[n]? = some d) r.refs refs ∧
    Cell.finalize r.bits refs r.exotic = .ok c
  mask_eq : c.mask = r.mask

/-- Every reference of the records from an index on goes further on. -/
def Forward (start : Nat) (records : List Record) : Prop :=
  ∀ i r, records[i]? = some r → ∀ n ∈ r.refs, start + i < n

/-- The references of all records lead forward if those of the first one and of the others do. -/
lemma forward_cons {start : Nat} {r : Record} {rs : List Record} :
    Forward start (r :: rs) ↔ (∀ n ∈ r.refs, start < n) ∧ Forward (start + 1) rs := by
  constructor
  · intro forward
    refine ⟨forward 0 r rfl, fun i s e n mem => ?_⟩
    have lt := forward (i + 1) s e n mem
    omega
  · rintro ⟨first, later⟩ i s e n mem
    cases i with
    | zero =>
      cases e
      exact first n mem
    | succ i =>
      have lt := later i s e n mem
      omega

/-- A cell behind the first `k + 1` cells of a table is found among those that were made before. -/
lemma getElem?_behind {suf pre : List Cell} {c d : Cell} {i : Nat} (lt : pre.length < i)
    (e : (pre ++ c :: suf)[i]? = some d) :
    i - pre.length ≤ suf.reverse.toArray.size ∧
      suf.reverse.toArray[suf.reverse.toArray.size - (i - pre.length)]? = some d := by
  obtain ⟨k, rfl⟩ := Nat.exists_eq_add_of_lt lt
  rw [List.getElem?_append_right (by omega), Nat.add_assoc, Nat.add_sub_cancel_left,
    List.getElem?_cons_succ] at e
  obtain ⟨bound, _⟩ := List.getElem?_eq_some_iff.1 e
  rw [List.size_toArray, List.length_reverse, List.getElem?_toArray,
    List.getElem?_reverse (by omega), Nat.add_assoc, Nat.add_sub_cancel_left]
  refine ⟨by omega, ?_⟩
  rw [← e]
  congr 1
  omega

/-- The cell that is looked up for a reference is the one that stands there in the table, and the
reference goes further on. -/
lemma lookup_eq_ok {pre suf : List Cell} {c d : Cell} {n : Nat} {fault : BagFault} :
    (match (if pre.length < n ∧ n - pre.length ≤ suf.reverse.toArray.size then
        suf.reverse.toArray[suf.reverse.toArray.size - (n - pre.length)]? else none) with
      | some c => Except.ok c
      | none => Except.error fault) = .ok d ↔
      pre.length < n ∧ (pre ++ c :: suf)[n]? = some d := by
  constructor
  · intro e
    split at e
    case h_1 x ex =>
      cases e
      split at ex
      case isTrue within =>
        obtain ⟨lt, le⟩ := within
        obtain ⟨k, rfl⟩ := Nat.exists_eq_add_of_lt lt
        rw [List.size_toArray, List.length_reverse] at le ex
        rw [List.getElem?_toArray, List.getElem?_reverse (by omega)] at ex
        refine ⟨lt, ?_⟩
        rw [List.getElem?_append_right (by omega), Nat.add_assoc, Nat.add_sub_cancel_left,
          List.getElem?_cons_succ, ← ex]
        congr 1
        omega
      case isFalse => cases ex
    case h_2 => cases e
  · rintro ⟨lt, e⟩
    obtain ⟨le, e⟩ := getElem?_behind lt e
    rw [if_pos ⟨lt, le⟩, e]

/-- A step of the run over the records: a cell is made of the next one, in front of those that come
after it. -/
lemma addCell_eq_ok {r : Record} {pre suf : List Cell} {made : Array Cell} :
    Table.addCell suf.reverse.toArray (r, pre.length) = .ok made ↔
      ∃ c, (∀ n ∈ r.refs, pre.length < n) ∧ r.Makes (pre ++ c :: suf) c ∧
        made = (c :: suf).reverse.toArray := by
  simp only [Table.addCell, Outcome.bind_eq_ok, Outcome.mapM_eq_ok]
  constructor
  · rintro ⟨refs, found, e⟩
    split at e
    case h_1 => cases e
    case h_2 c ec =>
      split at e
      case isTrue mask =>
        cases Outcome.pure_eq_ok.1 e
        have found := found.imp fun n d e => (lookup_eq_ok (c := c)).1 e
        obtain ⟨forward, found⟩ := (List.forall₂_and_left _ _).1 found
        refine ⟨c, forward, ⟨⟨refs, found, ec⟩, mask⟩, ?_⟩
        rw [List.reverse_cons, ← List.push_toArray]
      case isFalse => cases e
  · rintro ⟨c, forward, ⟨⟨refs, found, ec⟩, mask⟩, rfl⟩
    refine ⟨refs, ?_, ?_⟩
    · have found := (List.forall₂_and_left _ _).2 ⟨forward, found⟩
      exact found.imp fun n d e => lookup_eq_ok.2 e
    · rw [ec, List.reverse_cons, ← List.push_toArray]
      exact if_pos mask

/-- From the back to the front, each record makes a cell of those behind it. -/
lemma foldlM_addCell_eq_ok {records : List Record} {pre : List Cell} {made : Array Cell} :
    (records.zipIdx pre.length).reverse.foldlM Table.addCell #[] = .ok made ↔
      ∃ suf, made = suf.reverse.toArray ∧ Forward pre.length records ∧
        List.Forall₂ (Record.Makes (pre ++ suf)) records suf := by
  induction records generalizing pre made with
  | nil =>
    constructor
    · intro e
      cases Outcome.pure_eq_ok.1 e
      exact ⟨[], rfl, by rintro _ _ ⟨⟩, .nil⟩
    · rintro ⟨suf, rfl, _, makes⟩
      cases makes
      rfl
  | cons r rs ih =>
    have next (c : Cell) : pre.length + 1 = (pre ++ [c]).length := by
      rw [List.length_append, List.length_singleton]
    have behind (c : Cell) (suf : List Cell) : pre ++ c :: suf = (pre ++ [c]) ++ suf := by
      rw [List.append_assoc, List.singleton_append]
    rw [List.zipIdx_cons, List.reverse_cons, List.foldlM_append]
    simp only [Outcome.bind_eq_ok, List.foldlM_cons, List.foldlM_nil, Outcome.pure_eq_ok,
      exists_eq_right, forward_cons]
    constructor
    · rintro ⟨before, run, e⟩
      -- whichever cell stands at the index, the cells behind it are the same
      have later (c : Cell) := @ih (pre ++ [c]) before
      simp only [← next] at later
      obtain ⟨suf, rfl, _, _⟩ := (later default).1 run
      obtain ⟨c, first, makes, rfl⟩ := addCell_eq_ok.1 e
      obtain ⟨suf', same, forward, others⟩ := (later c).1 run
      have same : suf = suf' := List.reverse_injective (by simpa using same)
      subst same
      rw [← behind] at others
      exact ⟨c :: suf, rfl, ⟨first, forward⟩, .cons makes others⟩
    · rintro ⟨_, rfl, ⟨first, forward⟩, makes⟩
      obtain ⟨c, suf, makes, others, rfl⟩ := List.forall₂_cons_left_iff.1 makes
      have later := (@ih (pre ++ [c]) suf.reverse.toArray).2
      rw [← next] at later
      rw [behind] at others
      exact ⟨_, later ⟨suf, rfl, forward, others⟩, addCell_eq_ok.2 ⟨c, first, makes, rfl⟩⟩

/-- Cells are made of records when every record makes its cell over those that its references name,
and references go forward. -/
theorem Table.cells_eq_ok {records : List Record} {made : Array Cell} :
    Table.cells records = .ok made ↔
      ∃ cells, made = cells.reverse.toArray ∧ Forward 0 records ∧
        List.Forall₂ (Record.Makes cells) records cells :=
  @foldlM_addCell_eq_ok records [] made

/-- The cell that is looked up for a root is the one that stands there in the table. -/
lemma root_eq_ok {cells : List Cell} {n : Nat} {c : Cell} {fault : BagFault} :
    (match (if n < cells.reverse.toArray.size then
        cells.reverse.toArray[cells.reverse.toArray.size - 1 - n]? else none) with
      | some c => Except.ok c
      | none => Except.error fault) = .ok c ↔ cells[n]? = some c := by
  have same : (if n < cells.reverse.toArray.size then
      cells.reverse.toArray[cells.reverse.toArray.size - 1 - n]? else none) = cells[n]? := by
    rw [List.size_toArray, List.length_reverse]
    split
    case isTrue lt =>
      rw [List.getElem?_toArray, List.getElem?_reverse (by omega)]
      congr 1
      omega
    case isFalse ge => exact (List.getElem?_eq_none (Nat.not_lt.1 ge)).symm
  rw [same]
  cases cells[n]? with
  | none => exact ⟨by rintro ⟨⟩, by rintro ⟨⟩⟩
  | some d =>
    constructor
    · intro e
      exact congrArg some (Except.ok.inj e)
    · intro e
      exact congrArg Except.ok (Option.some.inj e)

end CellBag.Bag
