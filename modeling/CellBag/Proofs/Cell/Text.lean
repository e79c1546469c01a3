import CellBag.Cell.Text
import CellBag.Proofs.Bits.Text
import CellBag.Proofs.Cell.Binding

/-!
# Text of cells

The text of a tree determines it. A line gives back its row (`Row.line_append_inj`), and the rows
give back the tree, since the indentation says which of them stand below a cell: its rows end at the
first one that is not indented further (`Cell.Built.delimited`). Rows of another cell may follow, so
that the references of a cell come apart one after the other.
-/

namespace CellBag

/-- A list is cut in one way at its first element without a property. -/
lemma append_cons_inj_of_first {α : Type} {p : α → Prop} {xs ys xs' ys' : List α} {x y : α}
    (px : ∀ a ∈ xs, p a) (py : ∀ a ∈ ys, p a) (nx : ¬ p x) (ny : ¬ p y)
    (e : xs ++ x :: xs' = ys ++ y :: ys') : xs = ys ∧ x = y ∧ xs' = ys' := by
  induction xs generalizing ys with
  | nil =>
    cases ys with
    | nil => exact ⟨rfl, List.cons.inj e⟩
    | cons b ys => exact (nx ((List.cons.inj e).1 ▸ py b List.mem_cons_self)).elim
  | cons a xs ih =>
    cases ys with
    | nil => exact (ny ((List.cons.inj e).1 ▸ px a List.mem_cons_self)).elim
    | cons b ys =>
      obtain ⟨rfl, tail⟩ := List.cons.inj e
      obtain ⟨rfl, rest⟩ := ih (List.forall_mem_cons.1 px).2 (List.forall_mem_cons.1 py).2 tail
      exact ⟨rfl, rest⟩

namespace Row
variable {r r' : Row} {rs rs' : List Row} {later later' : List Char}

/-- A line tells its row and where it ends: at the first character that is no space the indentation
is over, and at the first brace behind it the digits are. -/
lemma line_append_inj (e : r.line ++ later = r'.line ++ later') : r = r' ∧ later = later' := by
  have mark (b : Bool) : (if b then 's' else 'x') ≠ ' ' := by cases b <;> decide
  have mark_inj : ∀ b b' : Bool,
      (if b then 's' else 'x') = (if b' then 's' else 'x') → b = b' := by decide
  have brace (b : Bits) : ∀ c ∈ b.hexDigits, c ≠ '\x7d' :=
    Bits.forall_mem_hexDigits (by decide +kernel) (by decide)
  have space (n : Nat) : ∀ c ∈ List.replicate n ' ', c = ' ' := fun _ => List.eq_of_mem_replicate
  simp only [line, List.append_assoc, List.cons_append, List.nil_append] at e
  obtain ⟨spaces, letter, e⟩ := append_cons_inj_of_first (space _) (space _) (mark _) (mark _) e
  obtain ⟨digits, _, e⟩ := append_cons_inj_of_first (brace _) (brace _)
    (not_not.2 rfl) (not_not.2 rfl) (List.cons.inj e).2
  have indent := congrArg List.length spaces
  rw [List.length_replicate, List.length_replicate] at indent
  have same : r = r' := by
    cases r
    cases r'
    rw [mk.injEq]
    exact ⟨indent, mark_inj _ _ letter, Bits.hexDigits_inj digits⟩
  exact ⟨same, (List.cons.inj e).2⟩

/-- No line is empty. -/
lemma line_ne_nil (r : Row) : r.line ≠ [] := by
  simp [line]

/-- Different rows have different lines. -/
lemma flatMap_line_inj (e : rs.flatMap line = rs'.flatMap line) : rs = rs' := by
  induction rs generalizing rs' with
  | nil =>
    cases rs' with
    | nil => rfl
    | cons r' rs' => exact (r'.line_ne_nil (List.append_eq_nil_iff.1 e.symm).1).elim
  | cons r rs ih =>
    cases rs' with
    | nil => exact (r.line_ne_nil (List.append_eq_nil_iff.1 e).1).elim
    | cons r' rs' =>
      obtain ⟨rfl, tail⟩ := line_append_inj e
      rw [ih tail]

/-- Rows behind those of indentation `n` and further: they begin with one that is indented less. -/
def Closes (n : Nat) (rest : List Row) : Prop :=
  ∀ r ∈ rest.head?, r.indent < n

/-- A tree is closed where no rows follow. -/
lemma closes_nil (n : Nat) : Closes n [] := by
  rintro _ ⟨⟩

/-- A row closes a tree if it is indented less. -/
lemma closes_cons {n : Nat} {rest : List Row} : Closes n (r :: rest) ↔ r.indent < n := by
  simp [Closes]

/-- What closes a tree closes those that are indented more. -/
lemma Closes.mono {n m : Nat} {rest : List Row} (h : Closes n rest) (le : n ≤ m) : Closes m rest :=
  fun r mem => (h r mem).trans_le le

end Row

namespace Cell

/-- The rows of a cell are its own one and those of its references, indented by one. -/
lemma rows_eq (n : Nat) (c : Cell) :
    c.rows n = ⟨n, c.isExotic, c.bits⟩ :: rowsOfAll (n + 1) c.refs := by
  cases c
  rw [rows]
  rfl

/-- What stands behind the rows of a cell says where they end, and then they are of no other built
cell. -/
def Delimited (n : Nat) (c : Cell) : Prop :=
  ∀ {c' rest rest'}, c'.Built → Row.Closes (n + 1) rest → Row.Closes (n + 1) rest' →
    c.rows n ++ rest = c'.rows n ++ rest' → c = c' ∧ rest = rest'

section RowsOfAll
variable {n : Nat} {c : Cell} {cs cs' : List Cell} {rest rest' : List Row}

/-- The rows of a reference do not close the tree that it belongs to. -/
lemma not_closes_rowsOfAll_cons : ¬ Row.Closes n (rowsOfAll n (c :: cs) ++ rest) := by
  rw [rowsOfAll, rows_eq, List.append_assoc, List.cons_append, Row.closes_cons]
  exact Nat.lt_irrefl n

/-- The rows of the next cell are not indented further. -/
lemma closes_rowsOfAll (closes : Row.Closes n rest) :
    Row.Closes (n + 1) (rowsOfAll n cs ++ rest) := by
  cases cs with
  | nil => exact closes.mono (Nat.le_succ n)
  | cons c cs =>
    rw [rowsOfAll, rows_eq, List.append_assoc, List.cons_append, Row.closes_cons]
    exact Nat.lt_succ_self n

/-- The rows of several cells come apart one cell after the other. -/
lemma rowsOfAll_append_inj (each : ∀ c ∈ cs, c.Delimited n) (built : ∀ c ∈ cs', c.Built)
    (closes : Row.Closes n rest) (closes' : Row.Closes n rest')
    (e : rowsOfAll n cs ++ rest = rowsOfAll n cs' ++ rest') : cs = cs' ∧ rest = rest' := by
  induction cs generalizing cs' with
  | nil =>
    cases cs' with
    | nil => exact ⟨rfl, e⟩
    | cons c' cs' =>
      rw [show rest = _ from e] at closes
      exact (not_closes_rowsOfAll_cons closes).elim
  | cons c cs ih =>
    cases cs' with
    | nil =>
      rw [show rest' = _ from e.symm] at closes'
      exact (not_closes_rowsOfAll_cons closes').elim
    | cons c' cs' =>
      obtain ⟨first, each⟩ := List.forall_mem_cons.1 each
      obtain ⟨built', others⟩ := List.forall_mem_cons.1 built
      rw [rowsOfAll, rowsOfAll, List.append_assoc, List.append_assoc] at e
      obtain ⟨rfl, tail⟩ := first built' (closes_rowsOfAll closes) (closes_rowsOfAll closes') e
      obtain ⟨rfl, rest⟩ := ih each others tail
      exact ⟨rfl, rest⟩

end RowsOfAll

/-- A cell that can be made is told from what follows its rows. -/
lemma Built.delimited {c : Cell} (b : c.Built) (n : Nat) : c.Delimited n := by
  induction c using Cell.induction generalizing n with
  | step c ih =>
    intro c' rest rest' b' closes closes' e
    rw [rows_eq, rows_eq, List.cons_append, List.cons_append] at e
    obtain ⟨row, e⟩ := List.cons.inj e
    obtain ⟨_, exotic, bits⟩ := Row.mk.inj row
    obtain ⟨refs, rest⟩ := rowsOfAll_append_inj (fun r ref => ih r ref (b.ref r ref) (n + 1))
      b'.ref closes closes' e
    exact ⟨b.wellFormed.ext b'.wellFormed bits refs exotic, rest⟩

/-- Different built cells have different texts. -/
lemma Built.eq_of_tree {a b : Cell} (ba : a.Built) (bb : b.Built) (e : a.tree = b.tree) :
    a = b := by
  have rows := Row.flatMap_line_inj (String.ofList_injective e)
  refine (ba.delimited 0 bb (Row.closes_nil 1) (Row.closes_nil 1) ?_).1
  rw [List.append_nil, List.append_nil, rows]

/-- The printed tree loses nothing: cells with one text are the same cell by cell, and so have one
representation hash, whatever the digest is. Nor does the text of their bits. -/
theorem tree_eq_iff_sameTree :
    (∀ a b : Cell, a.Built → b.Built →
      (a.tree = b.tree ↔ SameTree a b) ∧ (a.tree = b.tree → a.hash = b.hash)) ∧
    Function.Injective Bits.hex := by
  refine ⟨fun a b ba bb => ?_, Bits.hex_injective⟩
  refine ⟨⟨fun e => ?_, fun same => ?_⟩, fun e => ?_⟩
  · rw [ba.eq_of_tree bb e]
    exact .refl b
  · rw [same.eq ba bb]
  · rw [ba.eq_of_tree bb e]

/-- A cell above a cell above a cell and a cell above two have the same three lines up to
indentation, which tells them apart. -/
theorem tree_eq_iff_sameTree_shapes :
    ∃ middle deep wide, finalize .empty [.empty] false = .ok middle ∧
      finalize .empty [middle] false = .ok deep ∧
      finalize .empty [.empty, .empty] false = .ok wide ∧
      deep.tree = "x\x7b\x7d\n x\x7b\x7d\n  x\x7b\x7d\n" ∧
      wide.tree = "x\x7b\x7d\n x\x7b\x7d\n x\x7b\x7d\n" ∧ ¬ SameTree deep wide := by
  have run : (do
      let middle ← finalize .empty [.empty] false
      let deep ← finalize .empty [middle] false
      let wide ← finalize .empty [.empty, .empty] false
      return (deep.tree, wide.tree)) =
        .ok ("x\x7b\x7d\n x\x7b\x7d\n  x\x7b\x7d\n", "x\x7b\x7d\n x\x7b\x7d\n x\x7b\x7d\n") := by
    decide +kernel
  simp only [Outcome.bind_eq_ok, Outcome.pure_eq_ok, Prod.mk.injEq] at run
  obtain ⟨middle, em, deep, ed, wide, ew, td, tw⟩ := run
  have bm : middle.Built := .finalize (List.forall_mem_singleton.2 .empty) em
  have bd : deep.Built := .finalize (List.forall_mem_singleton.2 bm) ed
  have bw : wide.Built := .finalize (by simp [Built.empty]) ew
  refine ⟨middle, deep, wide, em, ed, ew, td, tw, fun same => ?_⟩
  have e := (tree_eq_iff_sameTree.1 deep wide bd bw).1.2 same
  rw [td, tw] at e
  exact absurd e (by decide)

end Cell

end CellBag
