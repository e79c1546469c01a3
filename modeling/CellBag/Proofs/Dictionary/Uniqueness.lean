import CellBag.Proofs.Dictionary.Acceptance
import CellBag.Proofs.Dictionary.Canonical
import CellBag.Proofs.Dictionary.RoundTrip
import Mathlib

/-!
# One tree for a dictionary

A dictionary that is read from a canonical tree is stored as this tree again, and no dictionary is
stored as a tree that is not canonical (`Dictionary.toRoot_eq_iff_canonical`).
-/

namespace CellBag

namespace Trie

/-- A payload makes one value only. -/
lemma Makes.unique {payload : Payload} {a b : Cell} (ha : Makes payload a) (hb : Makes payload b) :
    a = b := by
  obtain ⟨rfl, ordinary, wf⟩ := ha
  obtain ⟨same, ordinary', wf'⟩ := hb
  obtain ⟨bits, refs⟩ := Prod.mk.inj same
  exact wf.ext wf' (Bits.ext bits) refs (ordinary.trans ordinary'.symm)

end Trie

namespace Dictionary
open Trie
variable {root : Cell} {width limit : Nat} {d : Dictionary}

/-- The dictionaries that are made of empty ones and of those that are read by inserting and
erasing. -/
inductive Reachable : Dictionary → Prop where
  | empty {width : Nat} : Reachable (.empty width)
  | ofRoot {root : Cell} {width limit : Nat} {d : Dictionary} :
    root.Built →
    Dictionary.ofRoot root width limit = .ok d →
    Reachable d
  | insert {d d' : Dictionary} {key : Key} {value : Cell} :
    Reachable d →
    value.Built →
    d.insert key value = .ok d' →
    Reachable d'
  | erase {d : Dictionary} {key : Key} :
    Reachable d →
    Reachable (d.erase key)

/-- A dictionary that can be reached is well-formed. -/
lemma Reachable.wellFormed (h : Reachable d) : d.WellFormed := by
  induction h with
  | empty => exact ⟨List.Pairwise.nil, List.forall_mem_nil _, List.forall_mem_nil _⟩
  | ofRoot built e =>
    obtain ⟨_, _, _, _, _, wf, _⟩ := exists_stands_of_ofRoot built e
    exact wf
  | insert _ built e ih => exact ih.insert built e
  | erase _ ih => exact ih.erase _

/-- The trie of what has been read has the shape of the tree. -/
lemma exists_toTrie_of_stands {t : Trie Payload} {es : List (Key × Cell)}
    (fits : t.Fits width) (stand : List.Forall₂ Stands t.entries es) :
    ∃ t', toTrie ⟨width, es⟩ = .ok t' ∧ Similar Makes t t' := by
  have each : ∀ e ∈ t.entries, ∃ value, Makes e.2 value := by
    intro leaf mem
    obtain ⟨e, _, stands⟩ := Outcome.exists_of_mem stand.flip mem
    exact ⟨e.2, stands.makes⟩
  obtain ⟨t', similar⟩ := exists_similar t each
  have same : t'.entries = es.map fun e => (e.1.toList, e.2) := by
    have stand' : List.Forall₂ (fun leaf e => e.1 = leaf.1 ∧ Makes leaf.2 e.2) t.entries
        (es.map fun e => (e.1.toList, e.2)) := by
      rw [List.forall₂_map_right_iff]
      exact stand.imp fun leaf e stands => ⟨stands.key_eq, stands.makes⟩
    apply List.right_unique_forall₂' _ similar.entries stand'
    intro leaf e e' h h'
    exact Prod.ext (h.1.trans h'.1.symm) (h.2.unique h'.2)
  refine ⟨t', ?_, similar⟩
  rw [toTrie, ← same]
  exact ofEntries_entries (similar.fits fits) (Nat.le_refl _)

/-- A dictionary with entries has no wider keys than a bit string can be. -/
lemma WellFormed.width_le (wf : d.WellFormed) (ne : d.entries ≠ []) :
    d.keyWidth ≤ Bits.capacity := by
  obtain ⟨first, mem⟩ := List.exists_mem_of_ne_nil _ ne
  rw [← wf.width_eq first mem]
  exact first.1.length_le

/-- The root of a dictionary is canonical, and unfolds. -/
lemma WellFormed.canonical_of_toRoot (wf : d.WellFormed) (e : d.toRoot = .ok (some root)) :
    d.keyWidth ≤ Bits.capacity ∧ Canonical root d.keyWidth ∧ ∃ t, Unfolds d.keyWidth root t := by
  cases toRoot_eq_ok.1 e with
  | inl none =>
    obtain ⟨_, h⟩ := none
    cases h
  | inr stored =>
    obtain ⟨ne, t, c, et, ec, h⟩ := stored
    cases h
    obtain ⟨t', et', _, fits⟩ := wf.exists_toTrie ne
    cases et.symm.trans et'
    have small := wf.width_le ne
    obtain ⟨payloads, unfolds, _⟩ := exists_unfolds_toCell fits ec
    exact ⟨small, canonical_of_toCell fits small ec, payloads, unfolds⟩

/-- A dictionary that is read from a canonical tree is stored as this tree. -/
lemma toRoot_of_canonical (built : root.Built) (e : ofRoot root width limit = .ok d)
    (canonical : Canonical root width) : d.toRoot = .ok (some root) := by
  have small := width_le_of_ofRoot e
  obtain ⟨t, es, unfolds, rfl, some, _, stand⟩ := exists_stands_of_ofRoot built e
  obtain ⟨t', et, similar⟩ := exists_toTrie_of_stands unfolds.fits stand
  exact toRoot_eq_ok.2
    (Or.inr ⟨some, t', root, et, toCell_of_canonical unfolds built small canonical similar, rfl⟩)

/-- A dictionary that is read from a tree is stored as the same tree exactly if each label there
stands in the form that is chosen for it. In whatever way a dictionary was made, the tree that it is
stored as has such labels, and leaves on both sides of each fork. -/
theorem toRoot_eq_iff_canonical :
    (∀ root width limit d, root.Built → ofRoot root width limit = .ok d →
      (d.toRoot = .ok (some root) ↔ Canonical root width)) ∧
    ∀ d root, Reachable d → d.toRoot = .ok (some root) →
      Canonical root d.keyWidth ∧
      ∀ key rest c label xs cs, Reaches root d.keyWidth key rest c →
        Labelled label rest xs cs c → label.length < rest →
        ∀ bit, ∃ below payload,
          ReachesLeaf root d.keyWidth (key ++ label ++ bit :: below) payload := by
  constructor
  · intro root width limit d built e
    constructor
    · intro stored
      obtain ⟨_, _, _, rfl, _, wf, _⟩ := exists_stands_of_ofRoot built e
      exact (wf.canonical_of_toRoot stored).2.1
    · exact toRoot_of_canonical built e
  · intro d root reachable stored
    obtain ⟨small, canonical, t, unfolds⟩ := reachable.wellFormed.canonical_of_toRoot stored
    refine ⟨canonical, ?_⟩
    intro key rest c label xs cs r labelled lt bit
    exact unfolds.exists_leaf_beside small r labelled lt bit

/-- A fork over one leaf to which both references lead. -/
theorem toRoot_eq_iff_canonical_shared :
    ∃ leaf root d, Cell.leaf [0x20] 3 = .ok leaf ∧
      Cell.finalize ⟨[false, false], by decide⟩ [leaf, leaf] false = .ok root ∧
      ofRoot root 1 2 = .ok d ∧ Canonical root 1 ∧ d.toRoot = .ok (some root) ∧
      ∀ bit, ∃ below payload, ReachesLeaf root d.keyWidth (bit :: below) payload := by
  have run : (do
      let leaf ← Cell.leaf [0x20] 3
      let root ← Cell.finalize ⟨[false, false], by decide⟩ [leaf, leaf] false
      let d ← ofRoot root 1 2
      return d.keyWidth) = .ok 1 := by
    decide +kernel
  simp only [Outcome.bind_eq_ok, Outcome.pure_eq_ok] at run
  obtain ⟨leaf, el, root, er, d, ed, width⟩ := run
  have bl := Cell.Built.leaf el
  have built : root.Built := .finalize (by simpa using bl) er
  obtain ⟨bits, refs, ordinary, _⟩ := Cell.finalize_eq_ok.1 er
  obtain ⟨bits', refs', ordinary', _⟩ := Cell.finalize_eq_ok.1 (show Cell.finalize
    ⟨[false, false, true], by decide⟩ [] false = .ok leaf from el)
  have fork : Labelled [] 1 [] [leaf, leaf] root :=
    ⟨ordinary, ⟨.short, trivial, by rw [bits]; rfl⟩, refs⟩
  have canonical : Canonical root 1 := by
    apply canonical_of_parts fork (Nat.zero_le _) (by decide)
    · rw [bits]
      rfl
    · intro bit next _ child
      obtain rfl : leaf = next := by
        cases bit with
        | false => exact Option.some.inj child
        | true => exact Option.some.inj child
      have labelled : Labelled [] 0 [true] [] leaf :=
        ⟨ordinary', ⟨.short, trivial, by rw [bits']; rfl⟩, refs'⟩
      apply canonical_of_parts labelled (Nat.zero_le _) (by decide)
      · rw [bits']
        rfl
      · intro _ _ lt
        exact absurd lt (Nat.lt_irrefl 0)
  have stored := (toRoot_eq_iff_canonical.1 root 1 2 d built ed).2 canonical
  refine ⟨leaf, root, d, el, er, ed, canonical, stored, ?_⟩
  rw [← width] at fork
  exact (toRoot_eq_iff_canonical.2 d root (.ofRoot built ed) stored).2 [] d.keyWidth root [] _ _
    .root fork (by rw [width]; exact Nat.one_pos)

end Dictionary

end CellBag
