import CellBag.Bag.Table
import CellBag.Proofs.Cell.Subtree

/-!
# Order of a table

The table of some roots holds every cell below them once, and each in front of its references
(`Table.ofRoots_ordered`, `Table.mem_ofRoots`), if different cells have different hashes. The visit
is a depth-first search: cells whose references are still being visited have been seen, and are
pending until they are put in front. They are never met again, as no cell is below itself.
-/

namespace CellBag.Bag

/-- Different cells have different hashes. -/
def HashesApart (cs : List Cell) : Prop :=
  ∀ x ∈ cs, ∀ y ∈ cs, x.hash = y.hash → x = y

namespace Table

/-- Every cell stands in front of its references, and no hash occurs twice. -/
inductive Ordered : List Cell → Prop where
  | nil : Ordered []
  | cons {c cs} :
    (∀ r ∈ c.refs, r ∈ cs) →
    (∀ d ∈ cs, d.hash ≠ c.hash) →
    Ordered cs →
    Ordered (c :: cs)

namespace Ordered
variable {cs : List Cell}

/-- The hashes of a table are different. -/
lemma nodup (o : Ordered cs) : (cs.map Cell.hash).Nodup := by
  induction o with
  | nil => exact List.nodup_nil
  | cons _ apart _ ih =>
    refine List.nodup_cons.2 ⟨fun mem => ?_, ih⟩
    obtain ⟨d, mem, e⟩ := List.mem_map.1 mem
    exact apart d mem e

/-- The references of a cell are in the table. -/
lemma mem_of_ref {c r : Cell} (o : Ordered cs) (mem : c ∈ cs) (ref : r ∈ c.refs) : r ∈ cs := by
  induction o with
  | nil => cases mem
  | cons refs _ _ ih =>
    rcases List.mem_cons.1 mem with rfl | mem
    · exact List.mem_cons_of_mem _ (refs r ref)
    · exact List.mem_cons_of_mem _ (ih mem)

/-- A reference stands behind the cell. -/
lemma lt_of_ref {c r : Cell} {i j : Nat} (o : Ordered cs) (e : cs[i]? = some c)
    (e' : cs[j]? = some r) (ref : r ∈ c.refs) : i < j := by
  induction o generalizing i j with
  | nil => cases e
  | cons refs apart o ih =>
    cases j with
    | zero =>
      cases e'
      -- a cell is neither its own reference nor one of a cell behind it
      cases i with
      | zero =>
        cases e
        exact absurd (Cell.self_mem_subcells _) (Cell.not_mem_subcells_ref ref)
      | succ i => exact absurd rfl (apart r (o.mem_of_ref (List.mem_of_getElem? e) ref))
    | succ j =>
      cases i with
      | zero => exact Nat.succ_pos j
      | succ i => exact Nat.succ_lt_succ (ih e e')

/-- With a cell a table holds all cells below it. -/
lemma subcell {s c : Cell} (o : Ordered cs) (mem : c ∈ cs) (sub : s ∈ c.subcells) : s ∈ cs := by
  induction c using Cell.induction with
  | step c ih =>
    rcases Cell.mem_subcells.1 sub with rfl | ⟨r, ref, sub⟩
    · exact mem
    · exact ih r ref (o.mem_of_ref mem ref) sub

end Ordered

/-- What a visit of cells of `U` keeps: the complete cells are ordered, and the hashes that have
been seen are those of the cells that are complete or pending. -/
structure Invariant (U pending : List Cell) (v : Visit) : Prop where
  ordered : Ordered v.cells
  seen_iff : ∀ h, h ∈ v.seen ↔ ∃ c, (c ∈ v.cells ∨ c ∈ pending) ∧ c.hash = h
  within : ∀ c, c ∈ v.cells ∨ c ∈ pending → c ∈ U

/-- What a visit of some cells does: it keeps the invariant and what was complete, and completes
them. -/
structure Visited (U pending cs : List Cell) (v v' : Visit) : Prop where
  invariant : Invariant U pending v'
  mem : ∀ c ∈ cs, c ∈ v'.cells
  subset : v.cells ⊆ v'.cells

/-- A visit does nothing to a cell that has been seen, and puts any other one in front of what is
below it. -/
lemma visit_eq (c : Cell) (v : Visit) :
    visit c v = if c.hash ∈ v.seen then v else
      let below := visitAll c.refs ⟨v.seen.insert c.hash, v.cells⟩
      ⟨below.seen, c :: below.cells⟩ := by
  cases c
  rw [visit]
  rfl

section Visit
variable {U pending : List Cell} {v : Visit}

/-- What a visit of several cells adds lies below one of them if it does in each visit. -/
lemma mem_visitAll_of_each {cs : List Cell} {d : Cell}
    (each : ∀ c ∈ cs, ∀ v, d ∈ (visit c v).cells → d ∈ v.cells ∨ d ∈ c.subcells)
    (mem : d ∈ (visitAll cs v).cells) : d ∈ v.cells ∨ d ∈ Cell.subcellsOfAll cs := by
  induction cs generalizing v with
  | nil =>
    rw [visitAll] at mem
    exact Or.inl mem
  | cons c cs ih =>
    rw [visitAll] at mem
    rw [Cell.subcellsOfAll, List.mem_append]
    rcases ih (fun c' mem => each c' (List.mem_cons_of_mem _ mem)) mem with mem | mem
    · exact (each c List.mem_cons_self v mem).imp_right Or.inl
    · exact Or.inr (Or.inr mem)

/-- Nothing is added to the complete cells but cells below the one that is visited. -/
lemma mem_visit {c d : Cell} (mem : d ∈ (visit c v).cells) : d ∈ v.cells ∨ d ∈ c.subcells := by
  induction c using Cell.induction generalizing v with
  | step c ih =>
    rw [visit_eq] at mem
    split at mem
    case isTrue => exact Or.inl mem
    case isFalse =>
      rw [Cell.mem_subcells]
      rcases List.mem_cons.1 mem with rfl | mem
      · exact Or.inr (Or.inl rfl)
      · have below := mem_visitAll_of_each (fun r ref v mem => ih r ref mem) mem
        exact below.imp_right fun mem => Or.inr (Cell.mem_subcellsOfAll.1 mem)

/-- What a visit of several cells adds lies below one of them. -/
lemma mem_visitAll {cs : List Cell} {d : Cell} (mem : d ∈ (visitAll cs v).cells) :
    d ∈ v.cells ∨ d ∈ Cell.subcellsOfAll cs :=
  mem_visitAll_of_each (fun _ _ _ mem => mem_visit mem) mem

/-- Cells are visited one after the other. -/
lemma visitAll_visited {cs : List Cell} (inv : Invariant U pending v)
    (each : ∀ c ∈ cs, ∀ v, Invariant U pending v → Visited U pending [c] v (visit c v)) :
    Visited U pending cs v (visitAll cs v) := by
  induction cs generalizing v with
  | nil =>
    rw [visitAll]
    exact ⟨inv, List.forall_mem_nil _, List.Subset.refl _⟩
  | cons c cs ih =>
    have first := each c List.mem_cons_self v inv
    have later := ih first.invariant fun d mem => each d (List.mem_cons_of_mem _ mem)
    rw [visitAll]
    refine ⟨later.invariant, ?_, List.Subset.trans first.subset later.subset⟩
    intro d mem
    rcases List.mem_cons.1 mem with rfl | mem
    · exact later.subset (first.mem d (List.mem_singleton_self d))
    · exact later.mem d mem

/-- The invariant when a cell has been seen and what is below it is visited. -/
lemma Invariant.enter {c : Cell} (inv : Invariant U pending v) (mem : c ∈ U) :
    Invariant U (c :: pending) ⟨v.seen.insert c.hash, v.cells⟩ := by
  refine ⟨inv.ordered, fun h => ?_, fun d hd => ?_⟩
  · rw [Std.HashSet.mem_insert, beq_iff_eq, inv.seen_iff]
    constructor
    · rintro (e | ⟨d, hd, e⟩)
      · exact ⟨c, Or.inr List.mem_cons_self, e⟩
      · exact ⟨d, hd.imp_right (List.mem_cons_of_mem c), e⟩
    · rintro ⟨d, hd, e⟩
      rcases hd with done | hd
      · exact Or.inr ⟨d, Or.inl done, e⟩
      · rcases List.mem_cons.1 hd with rfl | waits
        · exact Or.inl e
        · exact Or.inr ⟨d, Or.inr waits, e⟩
  · rcases hd with done | hd
    · exact inv.within d (Or.inl done)
    · rcases List.mem_cons.1 hd with rfl | waits
      · exact mem
      · exact inv.within d (Or.inr waits)

/-- The invariant when what is below a cell has been visited and the cell is put in front. -/
lemma Invariant.leave {c : Cell} (inv : Invariant U (c :: pending) v)
    (refs : ∀ r ∈ c.refs, r ∈ v.cells)
    (apart : ∀ d ∈ v.cells, d.hash ≠ c.hash) : Invariant U pending ⟨v.seen, c :: v.cells⟩ := by
  have or_iff (d : Cell) :
      (d ∈ c :: v.cells ∨ d ∈ pending) ↔ (d ∈ v.cells ∨ d ∈ c :: pending) := by
    rw [List.mem_cons, List.mem_cons, or_assoc, or_left_comm]
  refine ⟨.cons refs apart inv.ordered, fun h => ?_, fun d hd => inv.within d ((or_iff d).1 hd)⟩
  rw [inv.seen_iff]
  exact exists_congr fun d => and_congr_left' (or_iff d).symm

/-- A cell is visited with all that is below it, if no pending cell is there. -/
theorem visit_visited {c : Cell} (apart : HashesApart U) (inv : Invariant U pending v)
    (sub : c.subcells ⊆ U) (fresh : ∀ g ∈ pending, g ∉ c.subcells) :
    Visited U pending [c] v (visit c v) := by
  induction c using Cell.induction generalizing pending v with
  | step c ih =>
    have self := sub (Cell.self_mem_subcells c)
    rw [visit_eq]
    split
    case isTrue seen =>
      -- a cell that has been seen is complete, as no pending cell is below it
      have done : c ∈ v.cells := by
        obtain ⟨d, hd, e⟩ := (inv.seen_iff _).1 seen
        rw [apart d (inv.within d hd) c self e] at hd
        exact hd.resolve_right fun waits => fresh c waits (Cell.self_mem_subcells c)
      exact ⟨inv, List.forall_mem_singleton.2 done, List.Subset.refl _⟩
    case isFalse unseen =>
      -- what is below the cell is visited with the cell itself pending
      have below := visitAll_visited (inv.enter self) fun r ref v inv =>
        ih r ref inv (fun s mem => sub (Cell.mem_subcells_of_ref ref mem)) (by
          intro g mem
          rcases List.mem_cons.1 mem with rfl | mem
          · exact Cell.not_mem_subcells_ref ref
          · exact fun hg => fresh g mem (Cell.mem_subcells_of_ref ref hg))
      have new : ∀ d ∈ (visitAll c.refs ⟨v.seen.insert c.hash, v.cells⟩).cells,
          d.hash ≠ c.hash := by
        intro d mem e
        rcases mem_visitAll mem with old | hd
        · exact unseen ((inv.seen_iff _).2 ⟨d, Or.inl old, e⟩)
        · obtain ⟨r, ref, hd⟩ := Cell.mem_subcellsOfAll.1 hd
          rw [apart d (sub (Cell.mem_subcells_of_ref ref hd)) c self e] at hd
          exact Cell.not_mem_subcells_ref ref hd
      exact ⟨below.invariant.leave below.mem new, List.forall_mem_singleton.2 List.mem_cons_self,
        List.Subset.trans below.subset (List.subset_cons_self _ _)⟩

end Visit

section Roots
variable {roots : List Cell}

/-- A table has no cells but those below the roots. -/
lemma mem_subcellsOfAll_of_mem {c : Cell} (mem : c ∈ ofRoots roots) :
    c ∈ Cell.subcellsOfAll roots := by
  rcases mem_visitAll mem with none | below
  · cases none
  · obtain ⟨root, mem, sub⟩ := Cell.mem_subcellsOfAll.1 below
    exact Cell.mem_subcellsOfAll.2 ⟨root, List.mem_reverse.1 mem, sub⟩

/-- A visit of the roots from the start. -/
lemma ofRoots_visited (apart : HashesApart (Cell.subcellsOfAll roots)) :
    Visited (Cell.subcellsOfAll roots) [] roots.reverse ⟨∅, []⟩ (visitAll roots.reverse ⟨∅, []⟩) := by
  have start : Invariant (Cell.subcellsOfAll roots) [] ⟨∅, []⟩ := by
    refine ⟨.nil, fun h => ?_, by simp⟩
    simp
  refine visitAll_visited start fun c mem v inv => visit_visited apart inv (fun s hs => ?_)
    (List.forall_mem_nil _)
  exact Cell.mem_subcellsOfAll.2 ⟨c, List.mem_reverse.1 mem, hs⟩

/-- A table has every cell in front of its references, and none twice. -/
theorem ofRoots_ordered (apart : HashesApart (Cell.subcellsOfAll roots)) : Ordered (ofRoots roots) :=
  (ofRoots_visited apart).invariant.ordered

/-- A table has the cells below the roots, and no others. -/
theorem mem_ofRoots (apart : HashesApart (Cell.subcellsOfAll roots)) {c : Cell} :
    c ∈ ofRoots roots ↔ c ∈ Cell.subcellsOfAll roots := by
  refine ⟨mem_subcellsOfAll_of_mem, fun mem => ?_⟩
  have run := ofRoots_visited apart
  obtain ⟨root, mem, sub⟩ := Cell.mem_subcellsOfAll.1 mem
  exact run.invariant.ordered.subcell (run.mem root (List.mem_reverse.2 mem)) sub

end Roots

end Table

end CellBag.Bag
