import CellBag.Proofs.Bag.Assembly
import CellBag.Proofs.Bag.Order
import CellBag.Proofs.Cell.Built
import Mathlib

/-!
# Records of a table

Every cell of an ordered table has a record (`Table.exists_records`), whose references go forward
(`Table.Ordered.forward`). The cells that are made of the records are those of the table again
(`Table.cells_eq`), as `finalize` gives the same cell over the same references.
-/

namespace CellBag.Bag.Table

/-- A cell at the end of a table has the last position. -/
lemma positions_concat (cs : List Cell) (c : Cell) :
    positions (cs ++ [c]) = (positions cs).insert c.hash cs.length := by
  rw [positions, positions, List.zipIdx_append, List.foldl_append]
  simp

/-- A cell is found where it stands, if no hash occurs twice. -/
lemma getElem?_positions {cs : List Cell} {c : Cell} {i : Nat} (nodup : (cs.map Cell.hash).Nodup)
    (e : cs[i]? = some c) : (positions cs)[c.hash]? = some i := by
  induction cs using List.reverseRecOn generalizing i with
  | nil => cases e
  | append_singleton cs last ih =>
    rw [List.map_append, List.nodup_append] at nodup
    obtain ⟨nodup, _, apart⟩ := nodup
    rw [positions_concat, Std.HashMap.getElem?_insert]
    rcases Nat.lt_or_ge i cs.length with lt | ge
    · rw [List.getElem?_append_left lt] at e
      have ne := apart _ (List.mem_map_of_mem (List.mem_of_getElem? e)) last.hash (by simp)
      rw [if_neg (by simpa using ne.symm), ih nodup e]
    · rw [List.getElem?_append_right ge, List.getElem?_singleton] at e
      split at e
      case isTrue same =>
        cases e
        rw [if_pos (by simp), Nat.le_antisymm (Nat.sub_eq_zero_iff_le.1 same) ge]
      case isFalse => cases e

variable {cs : List Cell}

/-- A cell of an ordered table is found at its position. -/
lemma find_of_getElem? {c : Cell} {i : Nat} (o : Ordered cs) (e : cs[i]? = some c) :
    find (positions cs) c = .ok i := by
  rw [find, getElem?_positions o.nodup e]

/-- A record describes a cell of a table when it has its data and names its references. -/
structure Describes (cs : List Cell) (c : Cell) (r : Record) : Prop where
  bits_eq : r.bits = c.bits
  exotic_eq : r.exotic = c.isExotic
  mask_eq : r.mask = c.mask
  refs : List.Forall₂ (fun d i => cs[i]? = some d) c.refs r.refs

/-- The cells of an ordered table have records, which describe them. -/
lemma exists_records (o : Ordered cs) :
    ∃ records, cs.mapM (record (positions cs)) = .ok records ∧
      List.Forall₂ (Describes cs) cs records := by
  apply Outcome.exists_mapM
  intro c mem
  have found : ∀ d ∈ c.refs, ∃ i, find (positions cs) d = .ok i ∧ cs[i]? = some d := by
    intro d ref
    obtain ⟨i, e⟩ := List.mem_iff_getElem?.1 (o.mem_of_ref mem ref)
    exact ⟨i, find_of_getElem? o e, e⟩
  obtain ⟨indexes, e, refs⟩ := Outcome.exists_mapM found
  refine ⟨⟨c.bits, c.isExotic, c.mask, indexes⟩, ?_, rfl, rfl, rfl, refs⟩
  rw [record, e]
  rfl

/-- What a record describes is the cell that it makes. -/
lemma Describes.makes {c : Cell} {r : Record} (d : Describes cs c r) (b : c.Built) :
    r.Makes cs c := by
  refine ⟨⟨c.refs, d.refs.flip, ?_⟩, d.mask_eq.symm⟩
  rw [d.bits_eq, d.exotic_eq, b.finalize_self]

/-- The references of the records of an ordered table go forward. -/
lemma Ordered.forward {records : List Record} (o : Ordered cs)
    (describe : List.Forall₂ (Describes cs) cs records) : Forward 0 records := by
  intro i r e n mem
  obtain ⟨len, each⟩ := List.forall₂_iff_get.1 describe
  obtain ⟨lt, rfl⟩ := List.getElem?_eq_some_iff.1 e
  obtain ⟨d, ref, e'⟩ := Outcome.exists_of_mem (each i (len ▸ lt) lt).refs mem
  rw [Nat.zero_add]
  exact o.lt_of_ref (List.getElem?_eq_getElem (len ▸ lt)) e' ref

/-- The cells that are made of the records of an ordered table are those of the table, the last one
first. -/
theorem cells_eq {records : List Record} (o : Ordered cs) (built : ∀ c ∈ cs, c.Built)
    (describe : List.Forall₂ (Describes cs) cs records) :
    cells records = .ok cs.reverse.toArray := by
  obtain ⟨len, each⟩ := List.forall₂_iff_get.1 describe
  refine cells_eq_ok.2 ⟨cs, rfl, o.forward describe, List.forall₂_iff_get.2 ⟨len.symm, ?_⟩⟩
  intro i h h'
  exact (each i h' h).makes (built _ (List.get_mem _ _))

end CellBag.Bag.Table
