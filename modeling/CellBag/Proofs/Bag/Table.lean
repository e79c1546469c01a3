import CellBag.Bag.Decode
import CellBag.Proofs.Cell.Built

/-!
# Cells of a decoded bag

Every cell that is made of the records of a bag is made by `finalize` over cells that were made
before it, so that the roots of a decoded bag are built (`Bag.decode_built`).
-/

namespace CellBag.Bag

/-- A cell that is looked up behind a guard is one of the cells. -/
lemma Table.mem_of_lookup {cells : Array Cell} {p : Prop} [Decidable p] {i : Nat} {fault : BagFault}
    {c : Cell}
    (e : (match (if p then cells[i]? else none) with
      | some c => Except.ok c
      | none => Except.error fault) = .ok c) : c ∈ cells := by
  split at e
  case h_1 d ed =>
    cases e
    split at ed
    · exact Array.mem_of_getElem? ed
    · cases ed
  case h_2 => cases e

/-- A cell that is added to cells that can be made can be made. -/
lemma Table.addCell_built {cells cells' : Array Cell} {entry : Record × Nat}
    (built : ∀ c ∈ cells, c.Built) (e : addCell cells entry = .ok cells') :
    ∀ c ∈ cells', c.Built := by
  obtain ⟨record, index⟩ := entry
  simp only [addCell, Outcome.bind_eq_ok] at e
  obtain ⟨refs, found, e⟩ := e
  have sub : ∀ r ∈ refs, r.Built := by
    intro r mem
    obtain ⟨_, _, h⟩ := Outcome.exists_of_mem_mapM found mem
    exact built r (mem_of_lookup h)
  split at e
  · cases e
  case h_2 c ef =>
    split at e
    · cases Outcome.pure_eq_ok.1 e
      intro d mem
      cases Array.mem_push.1 mem with
      | inl mem => exact built d mem
      | inr e => rw [e]; exact .finalize sub ef
    · cases e

/-- The cells that records make can be made. -/
lemma Table.cells_built {records : List Record} {made : Array Cell} (e : cells records = .ok made) :
    ∀ c ∈ made, c.Built := by
  have run (entries : List (Record × Nat)) (start : Array Cell) (built : ∀ c ∈ start, c.Built)
      (e : entries.foldlM addCell start = .ok made) : ∀ c ∈ made, c.Built := by
    induction entries generalizing start with
    | nil =>
      cases Outcome.pure_eq_ok.1 e
      exact built
    | cons entry entries ih =>
      rw [List.foldlM_cons] at e
      obtain ⟨next, step, e⟩ := Outcome.bind_eq_ok.1 e
      exact ih next (addCell_built built step) e
  exact run _ _ (by simp) e

/-- The roots of a decoded bag are built. -/
theorem decode_built {data : List UInt8} {limits : Limits} {roots : List Cell}
    (e : decode data limits = .ok roots) : ∀ r ∈ roots, r.Built := by
  simp only [decode, Outcome.bind_eq_ok] at e
  obtain ⟨⟨⟨indexes, records⟩, _⟩, _, made, em, found⟩ := e
  intro r mem
  obtain ⟨_, _, h⟩ := Outcome.exists_of_mem_mapM found mem
  exact Table.cells_built em r (Table.mem_of_lookup h)

end CellBag.Bag
