import CellBag.Bag.Table

/-!
# Searches

The table of some roots step by step. A search keeps the cells that it is inside of on a stack, each
with the index of the reference that comes next. A cell counts as met as soon as it is put on the
stack, and is complete when it is taken off.
-/

namespace CellBag.Bag

/-- A visit on the way, and the cells that it is inside of, the innermost one in front, each with the
index of its next reference. -/
structure Search extends Table.Visit where
  stack : List (Cell × Nat)

namespace Search

/-- A step from the innermost cell: to its next reference, which is entered unless it has been met,
or out of the cell when there is none. -/
def step (s : Search) : Option Search :=
  match s.stack with
  | [] => none
  | (c, next) :: outer =>
    match c.refs[next]? with
    | some child =>
      if s.seen.contains child.hash then some { s with stack := (c, next + 1) :: outer }
      else some ⟨⟨s.seen.insert child.hash, s.cells⟩, (child, 0) :: (c, next + 1) :: outer⟩
    | none => some ⟨⟨s.seen, c :: s.cells⟩, outer⟩

/-- The size of all that is still to be looked at. -/
noncomputable def work (s : Search) : Nat :=
  s.stack.foldr (fun frame n => sizeOf (frame.1.refs.drop frame.2) + n) 0

/-- What a step does, by the next reference of the innermost cell. -/
theorem step_eq_some {s t : Search} (e : s.step = some t) :
    ∃ c next outer, s.stack = (c, next) :: outer ∧
      ((∃ child, c.refs[next]? = some child ∧ child.hash ∈ s.seen ∧
          t = ⟨s.toVisit, (c, next + 1) :: outer⟩) ∨
        (∃ child, c.refs[next]? = some child ∧ child.hash ∉ s.seen ∧
          t = ⟨⟨s.seen.insert child.hash, s.cells⟩, (child, 0) :: (c, next + 1) :: outer⟩) ∨
        (c.refs[next]? = none ∧ t = ⟨⟨s.seen, c :: s.cells⟩, outer⟩)) := by
  obtain ⟨v, stack⟩ := s
  cases stack with
  | nil => cases e
  | cons frame outer =>
    obtain ⟨c, next⟩ := frame
    refine ⟨c, next, outer, rfl, ?_⟩
    simp only [step] at e
    cases found : c.refs[next]? with
    | none =>
      simp only [found, Option.some.injEq] at e
      exact Or.inr (Or.inr ⟨rfl, e.symm⟩)
    | some child =>
      simp only [found] at e
      split at e
      case isTrue seen => exact Or.inl ⟨child, rfl, seen, (Option.some.inj e).symm⟩
      case isFalse unseen => exact Or.inr (Or.inl ⟨child, rfl, unseen, (Option.some.inj e).symm⟩)

/-- Each step leaves less to be looked at. -/
theorem work_lt_of_step {s t : Search} (e : s.step = some t) : t.work < s.work := by
  obtain ⟨c, next, outer, stack, h⟩ := step_eq_some e
  have next_lt {child : Cell} (found : c.refs[next]? = some child) :
      sizeOf (c.refs.drop next) = 1 + sizeOf child + sizeOf (c.refs.drop (next + 1)) := by
    obtain ⟨lt, rfl⟩ := List.getElem?_eq_some_iff.1 found
    rw [List.drop_eq_getElem_cons lt, List.cons.sizeOf_spec]
  rw [work, work, stack, List.foldr_cons]
  rcases h with ⟨child, found, _, rfl⟩ | ⟨child, found, _, rfl⟩ | ⟨found, rfl⟩
  · have here := next_lt found
    simp only [List.foldr_cons]
    omega
  · have here := next_lt found
    have inside : sizeOf (child.refs.drop 0) < sizeOf child := by
      cases child
      simp only [Cell.refs, List.drop_zero, Cell.mk.sizeOf_spec]
      omega
    simp only [List.foldr_cons]
    omega
  · -- the size of no references is not zero either
    have pos : 0 < sizeOf (c.refs.drop next) := by
      rw [List.drop_eq_nil_of_le (List.getElem?_eq_none_iff.1 found)]
      exact Nat.one_pos
    dsimp only
    omega

/-- Searches until the stack is empty. -/
def run (s : Search) : Table.Visit :=
  match _e : s.step with
  | none => s.toVisit
  | some t => run t
termination_by s.work
decreasing_by exact work_lt_of_step _e

/-- Searches below a root, unless it has been met. -/
def enter (v : Table.Visit) (root : Cell) : Table.Visit :=
  if v.seen.contains root.hash then v
  else run ⟨⟨v.seen.insert root.hash, v.cells⟩, [(root, 0)]⟩

/-- The table of the cells below some roots. The last root is entered first. -/
def table (roots : List Cell) : List Cell :=
  (roots.reverse.foldl enter ⟨∅, []⟩).cells

end Search

end CellBag.Bag
