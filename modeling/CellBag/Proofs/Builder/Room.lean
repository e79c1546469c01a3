import CellBag.Proofs.Builder.Writes
import CellBag.Proofs.Cell.Height
import Mathlib

/-!
# Room for cells

Writing a cell of parts that are right otherwise fails only for want of room: in the cell, or in the
sixteen bits of a depth (`Error.OfRoom`). A cell is made of what an action appends exactly if it has
room for the bits, and its depths fit (`Store.Writes.exists_toCell_iff`).
-/

namespace CellBag

/-- The errors for want of room: for bits and references in a cell, and for a depth. -/
inductive Error.OfRoom : Error → Prop where
  | capacity (what : Resource) (requested available : Nat) :
    OfRoom (.capacity what requested available)
  | depthOverflow : OfRoom .depthOverflow

namespace Store
variable {action next : Store Unit} {xs : List Bool} {cs : List Cell} {e : Error}

/-- An action fails for want of room only. -/
def FailsForRoom (action : Store Unit) : Prop :=
  ∀ b e b', action b = .error e b' → e.OfRoom

/-- What consists of actions that fail for room only does so, too. -/
lemma FailsForRoom.bind (first : FailsForRoom action) (second : FailsForRoom next) :
    FailsForRoom (do action; next) := by
  intro b e b' fails
  cases run : action b with
  | ok u middle =>
    rw [Outcome.action_bind_of_ok run] at fails
    exact second middle e b' fails
  | error e' middle =>
    rw [Outcome.action_bind_of_error run] at fails
    cases fails
    exact first b _ _ run

/-- Bits are refused for room only. -/
lemma failsForRoom_append (xs : List Bool) : FailsForRoom (write (·.append xs)) := by
  intro b e b' fails
  rw [write, Bits.append] at fails
  by_cases room : xs.length ≤ b.bits.available
  · rw [dif_pos room] at fails
    cases fails
  · rw [dif_neg room] at fails
    cases fails
    exact .capacity .bits _ _

/-- Asking for room fails for room only. -/
lemma failsForRoom_ensure (what : Resource) (count : Nat) (available : Builder → Nat) :
    FailsForRoom fun b =>
      if count ≤ available b then .ok () b
      else .error (.capacity what count (available b)) b := by
  intro b e b' fails
  dsimp only at fails
  split at fails
  case isTrue => cases fails
  case isFalse =>
    cases fails
    exact .capacity what _ _

/-- Asking for room for bits fails for room only. -/
lemma failsForRoom_ensureBits (count : Nat) : FailsForRoom (ensureBits count) :=
  failsForRoom_ensure .bits count Builder.availableBits

/-- Asking for room for references fails for room only. -/
lemma failsForRoom_ensureRefs (count : Nat) : FailsForRoom (ensureRefs count) :=
  failsForRoom_ensure .refs count Builder.availableRefs

/-- Appending references does not fail. -/
lemma failsForRoom_appendRefs (cs : List Cell) : FailsForRoom (appendRefs cs) := by
  intro b e b' fails
  cases fails

/-- A reference is refused for room only. -/
lemma failsForRoom_ref (c : Cell) : FailsForRoom (ref c) :=
  (failsForRoom_ensureRefs 1).bind (failsForRoom_appendRefs [c])

/-- A cell is refused for room only. -/
lemma failsForRoom_cell (c : Cell) : FailsForRoom (cell c) :=
  (failsForRoom_ensureBits _).bind <| (failsForRoom_ensureRefs _).bind <|
    (failsForRoom_append _).bind (failsForRoom_appendRefs c.refs)

/-- A cell is made of what an action appends exactly if it has room for the bits, and the depths
fit. -/
lemma Writes.exists_toCell_iff (h : Writes action xs cs) (few : cs.length ≤ Cell.maxRefs) :
    (∃ c, toCell action = .ok c) ↔ xs.length ≤ Bits.capacity ∧ Cell.DepthsFit .ordinary cs := by
  constructor
  · intro made
    obtain ⟨c, run⟩ := made
    obtain ⟨rfl, rfl, ordinary, wf⟩ := h.toCell_eq_ok.1 run
    have made := Cell.finalize_eq_ok.2 ⟨rfl, rfl, ordinary, wf⟩
    exact ⟨c.bits.length_le, Cell.depthsFit_of_finalize false few rfl made⟩
  · intro room
    obtain ⟨fits, depths⟩ := room
    obtain ⟨bits, _, run⟩ := h.exists_toCell fits few
    obtain ⟨c, made, _⟩ := (Cell.finalize_of_kind bits false few rfl).1 depths
    exact ⟨c, run.trans made⟩

/-- A cell is not made because the action fails, or because its depth does not fit. -/
lemma Writes.ofRoom_of_toCell (h : Writes action xs cs) (few : cs.length ≤ Cell.maxRefs)
    (each : FailsForRoom action) (fails : toCell action = .error e) : e.OfRoom := by
  by_cases fits : xs.length ≤ Bits.capacity
  · obtain ⟨bits, _, run⟩ := h.exists_toCell fits few
    rw [run] at fails
    by_cases depths : Cell.DepthsFit .ordinary cs
    · obtain ⟨c, made, _⟩ := (Cell.finalize_of_kind bits false few rfl).1 depths
      cases made.symm.trans fails
    · have high := (Cell.finalize_of_kind bits false few rfl).2 depths
      cases high.symm.trans fails
      exact .depthOverflow
  · cases run : action Builder.empty with
    | ok u b =>
      obtain ⟨_, between⟩ := (h .empty u b).1 run
      exact absurd between.length_le fits
    | error e' b =>
      rw [toCell, run] at fails
      cases fails
      exact each _ _ _ run

end Store

end CellBag
