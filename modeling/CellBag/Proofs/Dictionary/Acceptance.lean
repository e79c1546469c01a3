import CellBag.Proofs.Dictionary.Node
import Mathlib

/-!
# Accepted trees

Which trees of cells are read as a dictionary (`Dictionary.ofRoot_accepts`): those in which each
node that is reached from the root is one, with no more leaves on all paths than the limit allows.
The dictionary then has one entry for each leaf, whose key is what is read on the way to it. These
are the entries that are there when each leaf is inserted as it is read
(`Dictionary.foldl_insertEntry_of_ofRoot`).
-/

namespace CellBag

namespace Trie
variable {root : Cell} {width : Nat}

/-- What has been read as a trie: a leaf, or a fork over two tries that have been read. -/
lemma ofCell_eq_ok {used room : Nat} {s : Trie Slice} (e : ofCell root used width room = .ok s) :
    root.isExotic = false ∧ ∃ label rest, Load.label width (Slice.ofCell root) = .ok label rest ∧
      ((width ≤ label.length ∧ s = .leaf label.toList rest) ∨
        (label.length < width ∧ rest.bitsLeft = 0 ∧ ∃ l r left right, root.refs = [l, r] ∧
          ofCell l (used + label.length + 1) (width - label.length - 1) room = .ok left ∧
          ofCell r (used + label.length + 1) (width - label.length - 1) (room - left.size) =
            .ok right ∧
          s = .fork label.toList left right)) := by
  rw [ofCell_eq] at e
  obtain ⟨ordinary, e⟩ := Outcome.guard_eq_ok.1 e
  refine ⟨Bool.eq_false_iff.2 ordinary, ?_⟩
  cases run : Load.label width (Slice.ofCell root) with
  | error =>
    rw [run] at e
    cases e
  | ok label rest =>
    refine ⟨label, rest, rfl, ?_⟩
    rw [run] at e
    obtain ⟨_, _, e⟩ := Outcome.bind_eq_ok.1 e
    dsimp only at e
    split at e
    case isTrue whole =>
      split at e
      case isTrue => cases e
      case isFalse =>
        cases e
        exact Or.inl ⟨whole, rfl⟩
    case isFalse part =>
      apply Or.inr
      split at e
      case h_1 l r refs =>
        split at e
        case isTrue => cases e
        case isFalse empty =>
          obtain ⟨_, _, e⟩ := Outcome.bind_eq_ok.1 e
          obtain ⟨left, el, e⟩ := Outcome.bind_eq_ok.1 e
          obtain ⟨right, er, e⟩ := Outcome.bind_eq_ok.1 e
          cases e
          exact ⟨Nat.not_le.1 part, not_not.1 empty, l, r, left, right, refs, el, er, rfl⟩
      case h_2 => cases e

/-- A cell that is read as a trie unfolds into one. -/
lemma exists_unfolds_of_ofCell {used room : Nat} {s : Trie Slice} (small : width ≤ Bits.capacity)
    (e : ofCell root used width room = .ok s) : ∃ t, Unfolds width root t := by
  induction s generalizing root used width room with
  | leaf =>
    obtain ⟨ordinary, label, rest, run, whole | fork⟩ := ofCell_eq_ok e
    · obtain ⟨le, labelled⟩ := Labelled.of_label ordinary small run
      exact ⟨_, .leaf labelled (Nat.le_antisymm le whole.1)⟩
    · obtain ⟨_, _, _, _, _, _, _, _, _, same⟩ := fork
      cases same
  | fork _ left right ihl ihr =>
    obtain ⟨ordinary, label, rest, run, whole | fork⟩ := ofCell_eq_ok e
    · cases whole.2
    · obtain ⟨lt, empty, l, r, left, right, refs, el, er, same⟩ := fork
      cases same
      have none : rest.remainingBits = [] :=
        List.eq_nil_of_length_eq_zero ((List.length_drop ..).trans empty)
      have labelled := (Labelled.of_label ordinary small run).2
      rw [refs, none] at labelled
      have below : width - label.length - 1 ≤ Bits.capacity := by omega
      obtain ⟨left, ul⟩ := ihl below el
      obtain ⟨right, ur⟩ := ihr below er
      exact ⟨_, .fork labelled lt ul ur⟩

/-- There was room for all leaves of a tree that has been read. -/
lemma Unfolds.size_le {t : Trie Payload} {s : Trie Slice} {room : Nat} (h : Unfolds width root t)
    (small : width ≤ Bits.capacity) (e : ofCell root 0 width room = .ok s) : t.size ≤ room := by
  obtain ⟨s', _, run⟩ := h.exists_ofCell (show 0 + width ≤ Bits.capacity by rwa [Nat.zero_add])
  rw [run] at e
  split at e
  case isTrue le => exact le
  case isFalse => cases e

/-- What is read as a trie with keys of some width has no shorter key. -/
lemma exists_entry_of_ofCell {root : Cell} {used width room : Nat} {s : Trie Slice}
    (e : ofCell root used width room = .ok s) : ∃ leaf ∈ s.entries, width ≤ leaf.1.length := by
  induction s generalizing root used width room with
  | leaf =>
    obtain ⟨_, label, rest, _, whole | fork⟩ := ofCell_eq_ok e
    · obtain ⟨le, same⟩ := whole
      cases same
      exact ⟨_, List.mem_cons_self, le⟩
    · obtain ⟨_, _, _, _, _, _, _, _, _, same⟩ := fork
      cases same
  | fork _ left right ihl _ =>
    obtain ⟨_, label, rest, _, whole | fork⟩ := ofCell_eq_ok e
    · cases whole.2
    · obtain ⟨lt, _, l, r, left, right, _, el, _, same⟩ := fork
      cases same
      obtain ⟨leaf, mem, le⟩ := ihl el
      refine ⟨(label.toList ++ false :: leaf.1, leaf.2), ?_, ?_⟩
      · exact List.mem_append_left _ (List.mem_map.2 ⟨leaf, mem, rfl⟩)
      · rw [List.length_append, List.length_cons]
        rw [Bits.length] at lt le
        omega

end Trie

namespace Dictionary
open Trie
variable {root : Cell} {width limit : Nat}

/-- The entry of a leaf has its key, and the value that its payload makes. -/
structure Stands (leaf : List Bool × Payload) (e : Key × Cell) : Prop where
  key_eq : e.1.toList = leaf.1
  makes : Makes leaf.2 e.2

/-- A leaf whose value can be made has an entry. -/
lemma exists_entryOfLeaf_makes {key : List Bool} {payload : Payload} {rest : Slice} {value : Cell}
    (le : key.length ≤ Bits.capacity) (left : Left payload rest) (makes : Makes payload value) :
    ∃ e, entryOfLeaf (key, rest) = .ok e ∧ Stands (key, payload) e := by
  have run : Load.remainderOf rest = .ok value := by
    rw [Load.remainderOf_eq_ok, left.1, left.2, makes.eq]
    exact ⟨rfl, rfl, makes.ordinary, makes.wellFormed⟩
  have written : Bits.empty.append key = .ok ⟨key, le⟩ := Bits.empty_append.2 rfl
  refine ⟨(⟨key, le⟩, value), ?_, rfl, makes⟩
  rw [entryOfLeaf, written, Outcome.ok_bind, run]
  rfl

/-- The entries that are read stand for the leaves of the trie, in the same order. -/
lemma exists_entries {t : Trie Payload} (unfolds : Unfolds width root t) (built : root.Built)
    (small : width ≤ Bits.capacity) (le : t.size ≤ limit) :
    ∃ es, ofRoot root width limit = .ok ⟨width, es⟩ ∧ List.Forall₂ Stands t.entries es := by
  have fits : 0 + width ≤ Bits.capacity := by rwa [Nat.zero_add]
  obtain ⟨s, similar, run⟩ := unfolds.exists_ofCell fits
  have leaves : ∀ e ∈ t.entries, e.1.length ≤ Bits.capacity ∧ ∃ value, Makes e.2 value := by
    intro e mem
    refine ⟨?_, ((unfolds.mem_entries small).1 mem).exists_makes built⟩
    rw [unfolds.fits.sorted.length_eq e mem]
    exact small
  obtain ⟨es, made, stand⟩ := Outcome.exists_mapM_of_forall₂
    ((List.forall₂_and_left _ _).2 ⟨leaves, similar.entries⟩) (f := entryOfLeaf) (Q := Stands) <| by
      intro leaf leaf' h
      obtain ⟨⟨len, value, makes⟩, key, left⟩ := h
      obtain ⟨key', rest⟩ := leaf'
      cases key
      exact exists_entryOfLeaf_makes len left makes
  refine ⟨es, ?_, stand⟩
  rw [ofRoot, run, if_pos le, Outcome.ok_bind, made]
  rfl

/-- Entries have the keys of the leaves that they stand for. -/
lemma keys_of_stands {leaves : List (List Bool × Payload)} {es : List (Key × Cell)}
    (stand : List.Forall₂ Stands leaves es) :
    es.map (fun e => e.1.toList) = leaves.map Prod.fst := by
  induction stand with
  | nil => rfl
  | cons first _ ih => rw [List.map_cons, List.map_cons, first.key_eq, ih]

/-- The entries for the leaves of a tree make a dictionary. -/
lemma wellFormed_of_stands {t : Trie Payload} {es : List (Key × Cell)}
    (unfolds : Unfolds width root t) (built : root.Built) (small : width ≤ Bits.capacity)
    (stand : List.Forall₂ Stands t.entries es) : WellFormed ⟨width, es⟩ := by
  have sorted := unfolds.fits.sorted
  refine ⟨?_, ?_, ?_⟩
  · rw [keys_of_stands stand]
    exact sorted.ascending
  · intro e mem
    obtain ⟨leaf, there, stands⟩ := Outcome.exists_of_mem stand mem
    rw [Bits.length, stands.key_eq]
    exact sorted.length_eq leaf there
  · intro e mem
    obtain ⟨leaf, there, stands⟩ := Outcome.exists_of_mem stand mem
    exact ((unfolds.mem_entries small).1 there).built_of_makes built stands.makes

/-- A dictionary is only read with keys that a bit string can hold. -/
lemma width_le_of_ofRoot {d : Dictionary} (e : ofRoot root width limit = .ok d) :
    width ≤ Bits.capacity := by
  obtain ⟨s, read, e⟩ := Outcome.bind_eq_ok.1 e
  obtain ⟨es, made, _⟩ := Outcome.bind_eq_ok.1 e
  obtain ⟨leaf, mem, le⟩ := exists_entry_of_ofCell read
  obtain ⟨entry, _, made⟩ := Outcome.exists_of_mem (Outcome.mapM_eq_ok.1 made).flip mem
  obtain ⟨key, written, _⟩ := Outcome.bind_eq_ok.1 made
  rw [← Bits.empty_append.1 written] at le
  exact Nat.le_trans le key.length_le

/-- What has been read stands for the leaves of the tree, of which there is one at least. -/
lemma exists_stands_of_ofRoot {d : Dictionary} (built : root.Built)
    (e : ofRoot root width limit = .ok d) :
    ∃ t es, Unfolds width root t ∧ d = ⟨width, es⟩ ∧ es ≠ [] ∧ d.WellFormed ∧
      List.Forall₂ Stands t.entries es := by
  have small := width_le_of_ofRoot e
  obtain ⟨s, read, _⟩ := Outcome.bind_eq_ok.1 e
  obtain ⟨t, unfolds⟩ := exists_unfolds_of_ofCell small read
  obtain ⟨es, e', stand⟩ := exists_entries unfolds built small (unfolds.size_le small read)
  cases e.symm.trans e'
  have some : es ≠ [] := by
    intro none
    subst none
    exact entries_ne_nil t (List.forall₂_nil_right_iff.1 stand)
  exact ⟨t, es, unfolds, rfl, some, wellFormed_of_stands unfolds built small stand, stand⟩

/-- The entries that have been read at any moment are those that are there when each was inserted as
it was read: no entry takes the place of another one. -/
theorem foldl_insertEntry_of_ofRoot {d : Dictionary} {front : List (Key × Cell)}
    (built : root.Built) (e : ofRoot root width limit = .ok d) (read : front <+: d.entries) :
    front.foldl (fun all e => insertEntry e.1 e.2 all) [] = front := by
  obtain ⟨_, _, _, _, _, wf, _⟩ := exists_stands_of_ofRoot built e
  exact foldl_insertEntry (wf.ascending.sublist (read.sublist.map _))

/-- A tree of cells that can be made is read as a dictionary when every node that is reached from the
root is one and the tree has no more leaves than the limit, where a shared cell has its leaves once
for each way to it. The dictionary has one entry for each of these leaves, because no two of them
have the same key: under what is read on the way to a leaf it has the rest of the leaf. -/
theorem ofRoot_accepts (built : root.Built) (small : width ≤ Bits.capacity) :
    ((∃ d, ofRoot root width limit = .ok d) ↔
      (∀ key rest c, Reaches root width key rest c → IsNode rest c) ∧
        ∀ t, Unfolds width root t → t.size ≤ limit) ∧
      ∀ d, ofRoot root width limit = .ok d →
        d.keyWidth = width ∧ d.WellFormed ∧
          (∃ t, Unfolds width root t ∧ d.size = t.size ∧ (t.entries.map Prod.fst).Nodup) ∧
          ∀ key payload, ReachesLeaf root width key.toList payload ↔
            ∃ value, d.get? key = some value ∧ value.isExotic = false ∧
              payload = (value.bits.toList, value.refs) := by
  constructor
  · constructor
    · intro h
      obtain ⟨d, e⟩ := h
      obtain ⟨s, e, _⟩ := Outcome.bind_eq_ok.1 e
      obtain ⟨t, unfolds⟩ := exists_unfolds_of_ofCell small e
      exact ⟨fun key rest c r => unfolds.isNode small r, fun t unfolds => unfolds.size_le small e⟩
    · intro h
      obtain ⟨nodes, few⟩ := h
      obtain ⟨t, unfolds⟩ := exists_unfolds small nodes
      obtain ⟨es, e, _⟩ := exists_entries unfolds built small (few t unfolds)
      exact ⟨_, e⟩
  · intro d e
    obtain ⟨t, es, unfolds, rfl, _, wf, stand⟩ := exists_stands_of_ofRoot built e
    refine ⟨rfl, wf, ⟨t, unfolds, ?_, unfolds.fits.sorted.ascending.nodup⟩, ?_⟩
    · rw [Trie.size_eq, stand.length_eq]
      rfl
    · intro key payload
      rw [← unfolds.mem_entries small]
      simp only [get?_eq_some_iff wf.ascending.nodup]
      constructor
      · intro mem
        obtain ⟨e, there, stands⟩ := Outcome.exists_of_mem stand.flip mem
        have same : e = (key, e.2) := Prod.ext (Bits.ext stands.key_eq) rfl
        rw [same] at there
        exact ⟨e.2, there, stands.makes.ordinary, stands.makes.eq⟩
      · intro h
        obtain ⟨value, mem, _, rfl⟩ := h
        obtain ⟨leaf, there, stands⟩ := Outcome.exists_of_mem stand mem
        have same : leaf = (key.toList, (value.bits.toList, value.refs)) :=
          Prod.ext stands.key_eq.symm stands.makes.eq
        rwa [same] at there

/-- A leaf to which both references of the root lead counts twice. -/
theorem ofRoot_accepts_shared :
    ∃ leaf root d, Cell.leaf [0x20] 3 = .ok leaf ∧
      Cell.finalize ⟨[false, false], by decide⟩ [leaf, leaf] false = .ok root ∧
      ofRoot root 1 2 = .ok d ∧ d.size = 2 ∧
      (∀ bit, ∃ cs, ReachesLeaf root 1 [bit] ([true], cs)) ∧
      ¬ ∃ d, ofRoot root 1 1 = .ok d := by
  have run : (do
      let leaf ← Cell.leaf [0x20] 3
      let root ← Cell.finalize ⟨[false, false], by decide⟩ [leaf, leaf] false
      let d ← ofRoot root 1 2
      let values := [false, true].map fun bit => (d.get? ⟨[bit], Nat.one_le_ofNat⟩).map
        fun value : Cell => (value.isExotic, value.bits.toList)
      return (d.size, values)) = .ok (2, [some (false, [true]), some (false, [true])]) := by
    decide +kernel
  simp only [Outcome.bind_eq_ok, Outcome.pure_eq_ok, Prod.mk.injEq] at run
  obtain ⟨leaf, el, root, er, d, ed, size, found⟩ := run
  have found (bit : Bool) : ((d.get? ⟨[bit], Nat.one_le_ofNat⟩).map fun value : Cell =>
      (value.isExotic, value.bits.toList)) = some (false, [true]) := by
    obtain ⟨zero, found⟩ := List.cons.inj found
    cases bit with
    | false => exact zero
    | true => exact List.head_eq_of_cons_eq found
  have bl := Cell.Built.leaf el
  have built : root.Built := .finalize (by simpa using bl) er
  have small : 1 ≤ Bits.capacity := by decide
  obtain ⟨_, _, ⟨t, unfolds, leaves, _⟩, values⟩ := (ofRoot_accepts built small).2 d ed
  refine ⟨leaf, root, d, el, er, ed, size, ?_, ?_⟩
  · intro bit
    obtain ⟨value, here, same⟩ := Option.map_eq_some_iff.1 (found bit)
    obtain ⟨ordinary, bits⟩ := Prod.mk.inj same
    refine ⟨value.refs, (values _ _).2 ⟨value, here, ordinary, ?_⟩⟩
    rw [bits]
  · intro h
    obtain ⟨_, few⟩ := (ofRoot_accepts built small).1.1 h
    have few := few t unfolds
    omega

end Dictionary

end CellBag
