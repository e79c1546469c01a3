import CellBag.Proofs.Cell.Depth
import CellBag.Proofs.Dictionary.Uniqueness
import Mathlib

/-!
# Shortest labels

The form that is chosen for a label takes no more bits than any other one
(`Label.length_encode_choose_le`). So a dictionary that was read from a tree can be stored again,
whatever forms its labels had there, and the tree that it is stored as has the same depths
(`Dictionary.exists_toRoot_of_ofRoot`).
-/

namespace CellBag

namespace Label

/-- How many bits a label of `length` bits takes in a form. -/
def Form.width (form : Form) (length limit : Nat) : Nat :=
  match form with
  | .short => 2 + 2 * length
  | .long => 2 + lengthWidth limit + length
  | .same _ => 3 + lengthWidth limit

variable {form : Form} {label : List Bool} {limit : Nat}

/-- A form of a label takes the width of the form. -/
lemma length_encode : (encode form label limit).length = form.width label.length limit := by
  cases form with
  | short =>
    simp only [encode, header, body, Form.width, List.length_append, List.length_cons,
      List.length_replicate, List.length_nil]
    omega
  | long =>
    simp only [encode, header, body, Form.width, List.length_append, List.length_cons,
      List.length_nil, Binary.length_ofNat]
  | same bit =>
    simp only [encode, header, body, Form.width, List.length_append, List.length_cons,
      List.length_nil, Binary.length_ofNat, Nat.add_zero]

/-- A label that the form of equal bits can stand for has a bit that all its bits are equal to,
unless it is empty. -/
lemma uniform?_of_admits {bit : Bool} (admits : (Form.same bit).Admits label) (ne : label ≠ []) :
    uniform? label = some bit := by
  cases label with
  | nil => exact absurd rfl ne
  | cons first rest =>
    obtain rfl := admits first List.mem_cons_self
    have all : rest.all (· == first) = true := by
      rw [List.all_eq_true]
      intro b mem
      exact beq_iff_eq.2 (admits b (List.mem_cons_of_mem first mem))
    rw [uniform?, if_pos all]

/-- No form that can stand for a label takes fewer bits than the one that is chosen. -/
theorem length_encode_choose_le (admits : form.Admits label) :
    (encode (choose label limit) label limit).length ≤ (encode form label limit).length := by
  have plain : (if 2 + 2 * label.length ≤ 2 + lengthWidth limit + label.length then Form.short
      else Form.long).width label.length limit =
        min (Form.short.width label.length limit) (Form.long.width label.length limit) := by
    split
    case isTrue le => exact (Nat.min_eq_left le).symm
    case isFalse lt => exact (Nat.min_eq_right (Nat.le_of_not_le lt)).symm
  rw [length_encode, length_encode, choose]
  cases uniform : uniform? label with
  | none =>
    rw [plain]
    cases form with
    | short => exact Nat.min_le_left _ _
    | long => exact Nat.min_le_right _ _
    | same bit =>
      -- only the empty label has no bit that all its bits are equal to
      have empty : label = [] := by
        by_contra ne
        rw [uniform?_of_admits admits ne] at uniform
        cases uniform
      rw [empty]
      refine Nat.le_trans (Nat.min_le_left _ _) ?_
      exact Nat.le_trans (by decide : 2 ≤ 3) (Nat.le_add_right 3 _)
  | some bit =>
    dsimp only
    split
    case isTrue fewer =>
      obtain ⟨short, long⟩ := fewer
      cases form with
      | short => exact Nat.le_of_lt short
      | long => exact Nat.le_of_lt long
      | same other => exact Nat.le_refl _
    case isFalse more =>
      rw [plain]
      cases form with
      | short => exact Nat.min_le_left _ _
      | long => exact Nat.min_le_right _ _
      | same other =>
        simp only [Form.width]
        omega

end Label

open Label (encode choose)

namespace Trie

/-- A node has room for its label in the form that is chosen for it. -/
lemma length_chosen_le {label xs : List Bool} {limit : Nat} {cs : List Cell} {c : Cell}
    (labelled : Labelled label limit xs cs c) :
    (encode (choose label limit) label limit ++ xs).length ≤ 1023 := by
  obtain ⟨form, admits, bits⟩ := labelled.exists_form
  have le := c.bits.length_le
  rw [bits, List.length_append] at le
  rw [List.length_append]
  exact Nat.le_trans (Nat.add_le_add_right (Label.length_encode_choose_le admits) _) le

/-- A tree that unfolds into a trie can be made again with the chosen forms of its labels. The tree
that is made has the same depths. -/
theorem Unfolds.exists_toCell {width : Nat} {root : Cell} {t : Trie Payload} {t' : Trie Cell}
    (unfolds : Unfolds width root t) (built : root.Built) (similar : Similar Makes t t') :
    ∃ root', t'.toCell width = .ok root' ∧ Cell.SameDepths root root' := by
  induction unfolds generalizing t' with
  | @leaf width label xs cs root labelled _ =>
    cases similar with
    | @leaf _ _ value makes =>
      obtain ⟨rfl, rfl⟩ := Prod.mk.inj makes.eq
      obtain ⟨root', bits, refs, ordinary, wf, same⟩ := built.wellFormed.exists_sameDepths
        labelled.ordinary ⟨_, length_chosen_le labelled⟩ (List.forall₂_same.2 fun c _ => .refl c)
      refine ⟨root', ?_, same⟩
      rw [toCell, Store.leaf_eq_ok, bits, refs, labelled.refs_eq]
      exact ⟨rfl, rfl, ordinary, wf⟩
  | @fork width label l r root left right labelled lt _ _ ihl ihr =>
    cases similar with
    | @fork _ _ _ left' right' sl sr =>
      have child : ∀ c ∈ [l, r], c.Built := by
        rw [← labelled.refs_eq]
        exact built.ref
      obtain ⟨l', el, samel⟩ := ihl (child l List.mem_cons_self) sl
      obtain ⟨r', er, samer⟩ := ihr (child r (List.mem_cons_of_mem l List.mem_cons_self)) sr
      have below : List.Forall₂ Cell.SameDepths root.refs [l', r'] := by
        rw [labelled.refs_eq]
        exact .cons samel (.cons samer .nil)
      obtain ⟨root', bits, refs, ordinary, wf, same⟩ := built.wellFormed.exists_sameDepths
        labelled.ordinary ⟨_, length_chosen_le labelled⟩ below
      refine ⟨root', ?_, same⟩
      rw [toCell, el, Outcome.ok_bind, er, Outcome.ok_bind, Store.fork_eq_ok, bits, refs]
      exact ⟨List.append_nil _, rfl, ordinary, wf⟩

end Trie

/-- A dictionary that was read from a tree can be stored again, as a tree with the same depths. -/
theorem Dictionary.exists_toRoot_of_ofRoot {root : Cell} {width limit : Nat} {d : Dictionary}
    (built : root.Built) (e : ofRoot root width limit = .ok d) :
    ∃ root', d.toRoot = .ok (some root') ∧ Cell.SameDepths root root' := by
  obtain ⟨t, es, unfolds, rfl, some, _, stand⟩ := exists_stands_of_ofRoot built e
  obtain ⟨t', et, similar⟩ := exists_toTrie_of_stands unfolds.fits stand
  obtain ⟨root', made, same⟩ := unfolds.exists_toCell built similar
  exact ⟨root', toRoot_eq_ok.2 (Or.inr ⟨some, t', root', et, made, rfl⟩), same⟩

end CellBag
