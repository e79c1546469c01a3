import CellBag.Proofs.Dictionary.Tree
import Mathlib

/-!
# Round trip of dictionaries

A dictionary is read back from the tree of cells that it is stored as, if its entries are not more
than the limit (`Dictionary.ofRoot_toRoot`). Values come back as ordinary cells with the same bits
and references, so that the dictionary is the same one if all its values are ordinary.
-/

namespace CellBag

/-- A tree that is made over values which can be made can be made. -/
lemma Trie.built_of_toCell {t : Trie Cell} {width : Nat} {c : Cell}
    (each : ∀ e ∈ t.entries, e.2.Built) (made : t.toCell width = .ok c) : c.Built := by
  induction t generalizing width c with
  | leaf label value =>
    rw [toCell, Store.leaf_eq_ok] at made
    obtain ⟨_, refs, _, wf⟩ := made
    apply wf.built
    rw [refs]
    exact (each (label, value) List.mem_cons_self).ref
  | fork label left right ihl ihr =>
    rw [toCell] at made
    obtain ⟨l, el, made⟩ := Outcome.bind_eq_ok.1 made
    obtain ⟨r, er, made⟩ := Outcome.bind_eq_ok.1 made
    obtain ⟨_, refs, _, wf⟩ := Store.fork_eq_ok.1 made
    obtain ⟨eachl, eachr⟩ := List.forall_mem_append.1 each
    have bl := ihl (fun e mem =>
      eachl (label ++ false :: e.1, e.2) (List.mem_map.2 ⟨e, mem, rfl⟩)) el
    have br := ihr (fun e mem =>
      eachr (label ++ true :: e.1, e.2) (List.mem_map.2 ⟨e, mem, rfl⟩)) er
    apply wf.built
    rw [refs]
    exact List.forall_mem_cons.2 ⟨bl, List.forall_mem_singleton.2 br⟩

namespace Dictionary

/-- The same key, and cells with the same bits and references under it. -/
structure SameEntry (e e' : Key × Cell) : Prop where
  key_eq : e'.1 = e.1
  bits_eq : e'.2.bits = e.2.bits
  refs_eq : e'.2.refs = e.2.refs

variable {d : Dictionary}

/-- The entries of a well-formed dictionary are sorted. -/
lemma WellFormed.sorted (wf : d.WellFormed) :
    Trie.Sorted d.keyWidth (d.entries.map fun e => (e.1.toList, e.2)) := by
  refine ⟨?_, fun e mem => ?_⟩
  · rw [List.map_map]
    exact wf.ascending
  · obtain ⟨entry, stands, rfl⟩ := List.mem_map.1 mem
    exact wf.width_eq entry stands

/-- What is read back for an entry: the same key, and an ordinary cell with the same bits and
references under it. -/
structure Restores (e e' : Key × Cell) : Prop extends SameEntry e e' where
  ordinary : e'.2.isExotic = false
  wellFormed : e'.2.WellFormed

/-- An entry with an ordinary value is restored as it was. -/
lemma Restores.eq {e e' : Key × Cell} (r : Restores e e') (built : e.2.Built)
    (ordinary : e.2.isExotic = false) : e' = e :=
  Prod.ext r.key_eq (r.wellFormed.ext built.wellFormed r.bits_eq r.refs_eq
    (r.ordinary.trans ordinary.symm))

/-- The trie of a dictionary exists unless it is empty. -/
lemma WellFormed.exists_toTrie (wf : d.WellFormed) (ne : d.entries ≠ []) :
    ∃ t, d.toTrie = .ok t ∧ t.entries = (d.entries.map fun e => (e.1.toList, e.2)) ∧
      t.Fits d.keyWidth :=
  Trie.exists_ofEntries wf.sorted (by rwa [ne_eq, List.map_eq_nil_iff]) (Nat.le_refl _)

/-- A leaf that holds the value of an entry is read as this entry. -/
lemma exists_entryOfLeaf {e : Key × Cell} {leaf : List Bool × Slice} (key : leaf.1 = e.1.toList)
    (holds : Trie.Holds e.2 leaf.2) : ∃ e', entryOfLeaf leaf = .ok e' ∧ Restores e e' := by
  obtain ⟨c, run, bits, refs, ordinary, wf⟩ := holds
  refine ⟨(e.1, c), ?_, ⟨⟨rfl, bits, refs⟩, ordinary, wf⟩⟩
  rw [entryOfLeaf, Bits.empty_append.2 key.symm, Outcome.ok_bind, run]
  rfl

/-- A dictionary has no root without entries, and else that of its trie. -/
lemma toRoot_eq_ok {root : Option Cell} :
    d.toRoot = .ok root ↔ (d.entries = [] ∧ root = none) ∨
      (d.entries ≠ [] ∧ ∃ t c, d.toTrie = .ok t ∧ t.toCell d.keyWidth = .ok c ∧ root = some c) := by
  rw [toRoot]
  split
  case isTrue empty =>
    have none : d.entries = [] := List.isEmpty_iff.1 empty
    constructor
    · rintro ⟨⟩
      exact Or.inl ⟨none, rfl⟩
    · rintro (⟨_, rfl⟩ | ⟨some, _⟩)
      · rfl
      · exact absurd none some
  case isFalse full =>
    have some : d.entries ≠ [] := fun none => full (List.isEmpty_iff.2 none)
    simp only [Outcome.bind_eq_ok, Outcome.pure_eq_ok]
    constructor
    · rintro ⟨t, et, c, ec, rfl⟩
      exact Or.inr ⟨some, t, c, et, ec, rfl⟩
    · rintro (⟨none, _⟩ | ⟨_, t, c, et, ec, rfl⟩)
      · exact absurd none some
      · exact ⟨t, et, c, ec, rfl⟩

/-- The root of a well-formed dictionary can be made. -/
lemma WellFormed.built_of_toRoot {root : Cell} (wf : d.WellFormed)
    (stored : d.toRoot = .ok (some root)) : root.Built := by
  cases toRoot_eq_ok.1 stored with
  | inl none => cases none.2
  | inr some =>
    obtain ⟨ne, t, c, et, ec, same⟩ := some
    cases same
    obtain ⟨t', et', entries, _⟩ := wf.exists_toTrie ne
    cases et.symm.trans et'
    apply Trie.built_of_toCell _ ec
    intro e mem
    rw [entries] at mem
    obtain ⟨entry, stands, rfl⟩ := List.mem_map.1 mem
    exact wf.built entry stands

/-- The entries of a stored trie are read back, if there is room for all of them. -/
lemma exists_ofRoot {t : Trie Cell} {c : Cell} (wf : d.WellFormed) (some : d.entries ≠ [])
    (et : d.toTrie = .ok t) (ec : t.toCell d.keyWidth = .ok c) :
    ∃ es, List.Forall₂ Restores d.entries es ∧ ∀ limit, ofRoot c d.keyWidth limit =
      if d.size ≤ limit then .ok ⟨d.keyWidth, es⟩ else .error (.dictionary .tooManyEntries) := by
  obtain ⟨t', et', entries, fits⟩ := wf.exists_toTrie some
  cases et.symm.trans et'
  have small : 0 + d.keyWidth ≤ Bits.capacity := by
    obtain ⟨first, mem⟩ := List.exists_mem_of_ne_nil _ some
    rw [Nat.zero_add, ← wf.width_eq first mem]
    exact first.1.length_le
  have size : t.size = d.size := by rw [Trie.size_eq, entries, List.length_map, size]
  obtain ⟨t', similar, run⟩ := Trie.exists_ofCell_toCell fits small ec
  have leaves := similar.entries
  rw [entries, List.forall₂_map_left_iff] at leaves
  obtain ⟨es, made, restored⟩ := Outcome.exists_mapM_of_forall₂ leaves fun e leaf h =>
    exists_entryOfLeaf h.1 h.2
  refine ⟨es, restored, fun limit => ?_⟩
  rw [ofRoot, run, size]
  split
  · rw [Outcome.ok_bind, made]
    rfl
  · rfl

/-- Nothing is stored for a dictionary only if it is empty. From the root of any other one it is
read back, within every limit that the number of its entries does not exceed: the same keys in the
same order, with the same bits and references under each, and the same dictionary if its values are
ordinary cells. Lower limits are reported. -/
theorem ofRoot_toRoot {width : Nat} (built : Built width d) :
    (d.toRoot = .ok none → d.entries = []) ∧
      ∀ root, d.toRoot = .ok (some root) →
        (∃ d' : Dictionary, (∀ limit, d.size ≤ limit → ofRoot root width limit = .ok d') ∧
          d'.keyWidth = width ∧ List.Forall₂ SameEntry d.entries d'.entries ∧
          ((∀ e ∈ d.entries, e.2.isExotic = false) → d' = d)) ∧
        ∀ limit < d.size, ofRoot root width limit = .error (.dictionary .tooManyEntries) := by
  have wf := built.wellFormed
  obtain rfl := built.keyWidth_eq
  constructor
  · intro e
    rcases toRoot_eq_ok.1 e with ⟨none, _⟩ | ⟨_, _, _, _, _, h⟩
    · exact none
    · cases h
  · intro root e
    rcases toRoot_eq_ok.1 e with ⟨_, h⟩ | ⟨some, t, c, et, ec, h⟩
    · cases h
    cases h
    obtain ⟨es, restored, run⟩ := exists_ofRoot wf some et ec
    refine ⟨⟨⟨d.keyWidth, es⟩, fun limit le => ?_, rfl, ?_, fun ordinary => ?_⟩, fun limit lt => ?_⟩
    · rw [run, if_pos le]
    · exact restored.imp fun _ _ r => r.toSameEntry
    · have stored : ∀ e ∈ d.entries, e.2.Built ∧ e.2.isExotic = false := fun e mem =>
        ⟨wf.built e mem, ordinary e mem⟩
      have all := (List.forall₂_and_left _ _).2 ⟨stored, restored⟩
      have equal : List.Forall₂ Eq d.entries es :=
        all.imp fun e e' h => (h.2.eq h.1.1 h.1.2).symm
      rw [List.forall₂_eq_eq_eq] at equal
      rw [← equal]
    · rw [run, if_neg (Nat.not_le.2 lt)]

/-- A dictionary with two entries, of which the second one carries a reference. -/
theorem ofRoot_toRoot_pair :
    ∃ leaf node one two root,
      Cell.leaf [0xA0] 3 = .ok leaf ∧ Cell.finalize .empty [leaf] false = .ok node ∧
      (empty 2).insert ⟨[false, false], by decide⟩ leaf = .ok one ∧
      one.insert ⟨[false, true], by decide⟩ node = .ok two ∧ two.toRoot = .ok (some root) ∧
      ofRoot root 2 2 = .ok two ∧ ofRoot root 2 1 = .error (.dictionary .tooManyEntries) := by
  have run : (do
      let leaf ← Cell.leaf [0xA0] 3
      let node ← Cell.finalize .empty [leaf] false
      let one ← (empty 2).insert ⟨[false, false], by decide⟩ leaf
      let two ← one.insert ⟨[false, true], by decide⟩ node
      let root ← two.toRoot
      return (root.isSome, two.size, two.entries.all fun e => !e.2.isExotic)) =
        .ok (true, 2, true) := by decide +kernel
  simp only [Outcome.bind_eq_ok, Outcome.pure_eq_ok, Prod.mk.injEq] at run
  obtain ⟨leaf, el, node, en, one, e₁, two, e₂, root, er, some, size, ordinary⟩ := run
  obtain ⟨root, rfl⟩ := Option.isSome_iff_exists.1 some
  have bl := Cell.Built.leaf el
  have bn : node.Built := .finalize (List.forall_mem_singleton.2 bl) en
  have built : Built 2 two := .insert (.insert .empty bl e₁) bn e₂
  obtain ⟨⟨d', back, _, _, same⟩, few⟩ := (ofRoot_toRoot built).2 root er
  have equal : d' = two := same fun e mem => by simpa using List.all_eq_true.1 ordinary e mem
  refine ⟨leaf, node, one, two, root, el, en, e₁, e₂, er, ?_, few 1 (by omega)⟩
  rw [back 2 (by omega), equal]

end Dictionary

end CellBag
