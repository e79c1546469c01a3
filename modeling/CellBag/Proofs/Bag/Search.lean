import CellBag.Bag.Search
import CellBag.Proofs.Bag.RoundTrip

/-!
# Tables by search

A search comes to an end from everywhere, and what it has collected then is what a visit collects
(`Search.run_inside`), so that it finds the table of the roots (`Search.table_eq`). The table has the
hash of every cell below the roots once and no others, and references lead towards its end: every
reference is found when the table is written, and goes forward in the bytes
(`Search.table_complete`).
-/

namespace CellBag.Bag

namespace Search
variable {v : Table.Visit} {s t : Search} {c : Cell} {next : Nat} {outer : List (Cell × Nat)}

/-- No search goes on for ever. -/
lemma wellFounded_step : WellFounded fun t s : Search => s.step = some t :=
  Subrelation.wf (fun step => work_lt_of_step step) (measure work).wf

/-- A run goes on behind its first step. -/
lemma run_of_step (e : s.step = some t) : run s = run t := by
  rw [run]
  split
  case h_1 none =>
    rw [e] at none
    cases none
  case h_2 t' some =>
    rw [e] at some
    cases some
    rfl

/-- A run without frames is over. -/
lemma run_nil : run ⟨v, []⟩ = v := by
  rw [run]
  rfl

/-- From a reference that has been met the search goes on to the next one. -/
lemma run_met {r : Cell} (here : c.refs[next]? = some r) (met : r.hash ∈ v.seen) :
    run ⟨v, (c, next) :: outer⟩ = run ⟨v, (c, next + 1) :: outer⟩ := by
  apply run_of_step
  simp only [step, here]
  exact if_pos met

/-- A reference that has not been met is entered. -/
lemma run_new {r : Cell} (here : c.refs[next]? = some r) (new : r.hash ∉ v.seen) :
    run ⟨v, (c, next) :: outer⟩ =
      run ⟨⟨v.seen.insert r.hash, v.cells⟩, (r, 0) :: (c, next + 1) :: outer⟩ := by
  apply run_of_step
  simp only [step, here]
  exact if_neg new

/-- Behind its last reference a cell is complete. -/
lemma run_behind (none : c.refs[next]? = none) :
    run ⟨v, (c, next) :: outer⟩ = run ⟨⟨v.seen, c :: v.cells⟩, outer⟩ := by
  apply run_of_step
  simp only [step, none]

/-- Inside of a cell the search visits the references that are left, completes the cell and goes on
outside of it. -/
lemma run_inside (c : Cell) (next : Nat) (outer : List (Cell × Nat)) (v : Table.Visit) :
    run ⟨v, (c, next) :: outer⟩ =
      let below := Table.visitAll (c.refs.drop next) v
      run ⟨⟨below.seen, c :: below.cells⟩, outer⟩ := by
  induction c using Cell.induction generalizing next outer v with
  | step c ih =>
    induction left : c.refs.drop next generalizing next v with
    | nil =>
      rw [run_behind (List.getElem?_eq_none_iff.2 (List.drop_eq_nil_iff.1 left)), Table.visitAll]
    | cons r rest ih' =>
      have here : c.refs[next]? = some r := by
        rw [← List.head?_drop, left]
        rfl
      have later : c.refs.drop (next + 1) = rest := by
        rw [← List.tail_drop, left]
        rfl
      rw [Table.visitAll, Table.visit_eq]
      split
      case isTrue met =>
        rw [run_met here met]
        exact ih' (next + 1) v later
      case isFalse new =>
        have inside := ih r (List.mem_of_getElem? here) 0 ((c, next + 1) :: outer)
          ⟨v.seen.insert r.hash, v.cells⟩
        rw [run_new here new, inside]
        exact ih' (next + 1) _ later

/-- The search from one root is a visit of it. -/
lemma enter_eq (root : Cell) (v : Table.Visit) : enter v root = Table.visit root v := by
  rw [Table.visit_eq, enter]
  split
  case isTrue met => exact (if_pos met).symm
  case isFalse new =>
    have inside := run_inside root 0 [] ⟨v.seen.insert root.hash, v.cells⟩
    rw [inside, run_nil]
    exact (if_neg new).symm

/-- The search from all roots is a visit of all of them. -/
lemma foldl_enter (roots : List Cell) (v : Table.Visit) :
    roots.foldl enter v = Table.visitAll roots v := by
  induction roots generalizing v with
  | nil => rw [Table.visitAll, List.foldl_nil]
  | cons root roots ih => rw [Table.visitAll, List.foldl_cons, enter_eq, ih]

/-- What is found by search is the table of the roots. -/
theorem table_eq (roots : List Cell) : table roots = Table.ofRoots roots := by
  rw [table, foldl_enter]
  rfl

end Search

section Found
variable {roots : List Cell} {size : Nat} {values : List Nat}

/-- A field does not miss a reference. -/
lemma avoids_field (value : Nat) : Outcome.Avoids .missingReference (field size value) := by
  rw [field]
  split
  · exact Outcome.avoids_ok _
  · apply Outcome.avoids_error
    intro same
    cases same

/-- Fields do not miss a reference. -/
lemma avoids_fields : Outcome.Avoids .missingReference (fields size values) :=
  (Outcome.Avoids.mapM fun value _ => avoids_field value).bind fun _ _ => Outcome.avoids_ok _

/-- No reference is missing when a record is written. -/
lemma Record.avoids_bytes (r : Record) : Outcome.Avoids .missingReference (r.bytes size) :=
  avoids_fields.bind fun _ _ => Outcome.avoids_ok _

/-- No reference is missing when a header is written. -/
lemma Header.avoids_bytes (h : Header) : Outcome.Avoids .missingReference h.bytes :=
  avoids_fields.bind fun _ _ => (avoids_field _).bind fun _ _ => avoids_fields.bind fun _ _ =>
    Outcome.avoids_ok _

/-- No reference is missing when an index is written. -/
lemma avoids_indexBytes {o : Options} {chunks : List (List UInt8)} :
    Outcome.Avoids .missingReference (indexBytes o size chunks) := by
  rw [indexBytes]
  split
  · exact avoids_fields
  · exact Outcome.avoids_ok _

/-- No reference is missing in the table that is written. -/
theorem avoids_encode (apart : HashesApart (Cell.subcellsOfAll roots)) (o : Options) :
    Outcome.Avoids .missingReference (encode roots o) := by
  obtain ⟨records, indexes, t⟩ := exists_tabled apart
  rw [encode]
  refine .guard (by simp) (.guard (by simp) (.guard (by simp) ?_))
  refine .bind ?records fun _ _ => .bind ?chunks fun _ _ => .bind ?found fun _ _ => ?_
  case records =>
    rw [t.records_eq]
    exact Outcome.avoids_ok _
  case chunks => exact .mapM fun r _ => r.avoids_bytes
  case found =>
    rw [t.indexes_eq]
    exact Outcome.avoids_ok _
  exact (Header.avoids_bytes _).bind fun _ _ => avoids_indexBytes.bind fun _ _ => Outcome.avoids_ok _

end Found

/-- What is said of the cells that are collected below some roots: each hash of a cell there occurs
once and no other does, and the references of a cell are found behind it. -/
structure IsCollection (roots cells : List Cell) : Prop where
  once : ∀ c ∈ Cell.subcellsOfAll roots, (cells.map Cell.hash).count c.hash = 1
  within : ∀ d ∈ cells, d ∈ Cell.subcellsOfAll roots
  forward : ∀ (i : Nat) (c : Cell), cells[i]? = some c → ∀ r ∈ c.refs,
    ∃ (j : Nat) (d : Cell), i < j ∧ cells[j]? = some d ∧ d.hash = r.hash

/-- The table of some roots collects the cells below them. -/
lemma isCollection_ofRoots {roots : List Cell} (apart : HashesApart (Cell.subcellsOfAll roots)) :
    IsCollection roots (Table.ofRoots roots) := by
  have ordered := Table.ofRoots_ordered apart
  refine ⟨fun c mem => ?_, fun d => Table.mem_subcellsOfAll_of_mem, fun i c here r ref => ?_⟩
  · have found := (Table.mem_ofRoots apart).2 mem
    exact List.count_eq_one_of_mem ordered.nodup (List.mem_map_of_mem found)
  · have found := ordered.mem_of_ref (List.mem_of_getElem? here) ref
    obtain ⟨j, there⟩ := List.mem_iff_getElem?.1 found
    exact ⟨j, r, ordered.lt_of_ref here there ref, there, rfl⟩

/-- A search below any roots comes to an end, and finds the table of the roots. The table has the
hash of each cell there once and no others, and its references lead towards its end. So no reference
is missing when it is written, and all of those that are written go forward. -/
theorem Search.table_complete {roots : List Cell}
    (apart : HashesApart (Cell.subcellsOfAll roots)) :
    (WellFounded fun t s : Search => s.step = some t) ∧ table roots = Table.ofRoots roots ∧
      IsCollection roots (Table.ofRoots roots) ∧
      ∀ o, encode roots o ≠ .error .missingReference ∧
        ∀ bytes, encode roots o = .ok bytes → ∃ records indexes,
          List.Forall₂ (Table.Describes (Table.ofRoots roots)) (Table.ofRoots roots) records ∧
          Forward 0 records ∧ bytes = (Image.ofTable o records indexes).bytes := by
  refine ⟨wellFounded_step, table_eq roots, isCollection_ofRoots apart,
    fun o => ⟨avoids_encode apart o, ?_⟩⟩
  intro bytes written
  obtain ⟨_, _, records, indexes, made, _, _, _, _, e⟩ := encode_eq_ok.1 written
  obtain ⟨records', _, t⟩ := exists_tabled apart
  have same : records' = records := Except.ok.inj (t.records_eq.symm.trans made)
  rw [same] at t
  exact ⟨records, indexes, t.describe, (Table.ofRoots_ordered apart).forward t.describe, e⟩

/-- A tree over a leaf that it refers to twice, as a root twice with the leaf as a root between. -/
theorem Search.table_complete_shared :
    ∃ leaf tree, Cell.leaf [0xA0] 3 = .ok leaf ∧
      Cell.finalize .empty [leaf, leaf] false = .ok tree ∧
      HashesApart (Cell.subcellsOfAll [tree, leaf, tree]) ∧
      IsCollection [tree, leaf, tree] (Table.ofRoots [tree, leaf, tree]) ∧
      encode [tree, leaf, tree] {} ≠ .error .missingReference := by
  have run : (do
      let leaf ← Cell.leaf [0xA0] 3
      let tree ← Cell.finalize .empty [leaf, leaf] false
      return (decide (tree.hash = leaf.hash), decide (leaf.refs = []))) =
        .ok (false, true) := by decide +kernel
  simp only [Outcome.bind_eq_ok, Outcome.pure_eq_ok, Prod.mk.injEq, decide_eq_true_eq,
    decide_eq_false_iff_not] at run
  obtain ⟨leaf, el, tree, et, ne, none⟩ := run
  have refs : tree.refs = [leaf, leaf] := (Cell.finalize_eq_ok.1 et).2.1
  have inLeaf : ∀ x ∈ leaf.subcells, x = leaf := by
    intro x mem
    rw [Cell.mem_subcells, none] at mem
    cases mem with
    | inl self => exact self
    | inr below =>
      obtain ⟨_, ref, _⟩ := below
      cases ref
  have inTree : ∀ x ∈ tree.subcells, x = tree ∨ x = leaf := by
    intro x mem
    rw [Cell.mem_subcells, refs] at mem
    cases mem with
    | inl self => exact Or.inl self
    | inr below =>
      obtain ⟨r, ref, sub⟩ := below
      have same : r = leaf := by simpa using ref
      exact Or.inr (inLeaf x (same ▸ sub))
  have below : ∀ x ∈ Cell.subcellsOfAll [tree, leaf, tree], x = tree ∨ x = leaf := by
    intro x mem
    simp only [Cell.subcellsOfAll, List.mem_append, List.not_mem_nil, or_false] at mem
    exact mem.elim (inTree x) (Or.elim · (fun sub => Or.inr (inLeaf x sub)) (inTree x))
  have apart : HashesApart (Cell.subcellsOfAll [tree, leaf, tree]) := by
    intro x mx y my same
    rcases below x mx with rfl | rfl
    · exact (below y my).elim Eq.symm fun e => absurd (e ▸ same) ne
    · exact (below y my).elim (fun e => absurd (e ▸ same.symm) ne) Eq.symm
  obtain ⟨_, _, collection, written⟩ := Search.table_complete apart
  exact ⟨leaf, tree, el, et, apart, collection, (written {}).1⟩

end CellBag.Bag
