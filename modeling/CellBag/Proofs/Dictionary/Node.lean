import CellBag.Proofs.Cell.Subtree
import CellBag.Proofs.Dictionary.Tree
import Mathlib

/-!
# Nodes

The nodes that are reached in a tree of cells and the leaves among them. A cell unfolds into a trie
when all that is reached from it are nodes (`Trie.exists_unfolds`, `Trie.Unfolds.isNode`), and the
entries of the trie are then the leaves that are reached (`Trie.Unfolds.mem_entries`).
-/

namespace CellBag

section Labels
variable {label label' xs ys : List Bool} {cs ds : List Cell} {c : Cell} {width : Nat}

/-- A cell begins with one label only, whichever forms are tried. -/
lemma Labelled.unique (h : Labelled label width xs cs c) (h' : Labelled label' width ys ds c)
    (le : label.length ≤ width) (le' : label'.length ≤ width) (small : width ≤ Bits.capacity) :
    label = label' ∧ xs = ys ∧ cs = ds := by
  obtain ⟨bits, rest, run, rfl, rfl, rfl⟩ := Trie.exists_label h le small
  obtain ⟨bits', rest', run', rfl, rfl, rfl⟩ := Trie.exists_label h' le' small
  cases run.symm.trans run'
  exact ⟨rfl, rfl, rfl⟩

/-- What is read as a label from the front of an ordinary cell is one. -/
lemma Labelled.of_label {bits : Bits} {rest : Slice} (ordinary : c.isExotic = false)
    (small : width ≤ Bits.capacity) (run : Load.label width (Slice.ofCell c) = .ok bits rest) :
    bits.length ≤ width ∧ Labelled bits.toList width rest.remainingBits c.refs c := by
  have lt : width < 2 ^ 64 := Nat.lt_of_le_of_lt small (by decide)
  obtain ⟨le, form, admits, between⟩ := (Load.label_eq_ok lt).1 run
  exact ⟨le, ordinary, ⟨form, admits, between.remaining.1⟩, rfl⟩

end Labels

namespace Trie

section Nodes
variable {root c next : Cell} {width rest : Nat} {key label xs : List Bool} {cs : List Cell}
  {bit : Bool}

/-- The nodes of a tree of cells, with what is known of the key there and how many of its bits are
not. Behind a label that does not take up the key, the first reference goes on with a zero and the
second one with a one. -/
inductive Reaches (root : Cell) (width : Nat) : (key : List Bool) → (rest : Nat) → Cell → Prop where
  | root : Reaches root width [] width root
  | branch {key label xs : List Bool} {cs : List Cell} {rest : Nat} {c next : Cell} {bit : Bool} :
    Reaches root width key rest c →
    Labelled label rest xs cs c →
    label.length < rest →
    cs[bit.toNat]? = some next →
    Reaches root width (key ++ (label ++ [bit])) (rest - label.length - 1) next

/-- An ordinary cell that begins with a label of at most `rest` bits in any form, and that has nothing
but two references behind a shorter one. -/
def IsNode (rest : Nat) (c : Cell) : Prop :=
  ∃ label xs cs, Labelled label rest xs cs c ∧ label.length ≤ rest ∧
    (label.length < rest → xs = [] ∧ cs.length = 2)

/-- What a leaf that is reached carries under its key. -/
def ReachesLeaf (root : Cell) (width : Nat) (key : List Bool) (payload : Payload) : Prop :=
  ∃ front rest label c, Reaches root width front rest c ∧
    Labelled label rest payload.1 payload.2 c ∧ label.length = rest ∧ key = front ++ label

/-- What is reached from a child is reached from the root. -/
lemma Reaches.of_child (labelled : Labelled label width xs cs root) (lt : label.length < width)
    (child : cs[bit.toNat]? = some next)
    (r : Reaches next (width - label.length - 1) key rest c) :
    Reaches root width (label ++ [bit] ++ key) rest c := by
  induction r with
  | root =>
    rw [List.append_nil]
    exact .branch .root labelled lt child
  | branch _ labelled' lt' child' ih =>
    rw [← List.append_assoc]
    exact .branch ih labelled' lt' child'

/-- What is reached from the root is the root, or it is reached from one of its children. -/
lemma Reaches.root_or_child (labelled : Labelled label width xs cs root)
    (le : label.length ≤ width) (small : width ≤ Bits.capacity)
    (r : Reaches root width key rest c) :
    (key = [] ∧ rest = width ∧ c = root) ∨
      ∃ bit next key', label.length < width ∧ cs[Bool.toNat bit]? = some next ∧
        key = label ++ [bit] ++ key' ∧ Reaches next (width - label.length - 1) key' rest c := by
  induction r with
  | root => exact Or.inl ⟨rfl, rfl, rfl⟩
  | @branch key label' xs' cs' rest c next bit r labelled' lt child ih =>
    apply Or.inr
    cases ih with
    | inl here =>
      obtain ⟨rfl, rfl, rfl⟩ := here
      obtain ⟨rfl, rfl, rfl⟩ := labelled.unique labelled' le (Nat.le_of_lt lt) small
      exact ⟨bit, next, [], lt, child, (List.append_nil _).symm, .root⟩
    | inr deeper =>
      obtain ⟨bit', next', key', lt', child', rfl, r'⟩ := deeper
      refine ⟨bit', next', key' ++ (label' ++ [bit]), lt', child', ?_, ?_⟩
      · exact List.append_assoc _ _ _
      · exact .branch r' labelled' lt child

/-- A node whose label takes up the key is the only leaf that is reached from it. -/
lemma reachesLeaf_leaf {payload : Payload} (labelled : Labelled label width xs cs root)
    (len : label.length = width) (small : width ≤ Bits.capacity) :
    ReachesLeaf root width key payload ↔ key = label ∧ payload = (xs, cs) := by
  constructor
  · intro h
    obtain ⟨front, rest, last, c, r, leaf, full, rfl⟩ := h
    cases r.root_or_child labelled (Nat.le_of_eq len) small with
    | inl here =>
      obtain ⟨rfl, rfl, rfl⟩ := here
      obtain ⟨rfl, rfl, rfl⟩ := labelled.unique leaf (Nat.le_of_eq len) (Nat.le_of_eq full) small
      exact ⟨rfl, rfl⟩
    | inr deeper =>
      obtain ⟨_, _, _, lt, _⟩ := deeper
      exact absurd len (Nat.ne_of_lt lt)
  · intro h
    obtain ⟨rfl, rfl⟩ := h
    exact ⟨[], width, key, root, .root, labelled, len, rfl⟩

/-- The leaves of a fork are those of its children. -/
lemma reachesLeaf_fork {l r : Cell} {payload : Payload}
    (labelled : Labelled label width [] [l, r] root) (lt : label.length < width)
    (small : width ≤ Bits.capacity) :
    ReachesLeaf root width key payload ↔
      (∃ key', ReachesLeaf l (width - label.length - 1) key' payload ∧
        key = label ++ false :: key') ∨
      ∃ key', ReachesLeaf r (width - label.length - 1) key' payload ∧
        key = label ++ true :: key' := by
  constructor
  · intro h
    obtain ⟨front, rest, last, c, r', leaf, len, rfl⟩ := h
    cases r'.root_or_child labelled (Nat.le_of_lt lt) small with
    | inl here =>
      -- the root has a shorter label, so it is no leaf
      obtain ⟨rfl, rfl, rfl⟩ := here
      obtain ⟨rfl, _⟩ := labelled.unique leaf (Nat.le_of_lt lt) (Nat.le_of_eq len) small
      exact absurd len (Nat.ne_of_lt lt)
    | inr deeper =>
      obtain ⟨bit, next, key', _, child, rfl, r'⟩ := deeper
      have key_eq : label ++ [bit] ++ key' ++ last = label ++ bit :: (key' ++ last) := by simp
      cases bit with
      | false =>
        cases child
        exact Or.inl ⟨_, ⟨key', rest, last, c, r', leaf, len, rfl⟩, key_eq⟩
      | true =>
        cases child
        exact Or.inr ⟨_, ⟨key', rest, last, c, r', leaf, len, rfl⟩, key_eq⟩
  · have below {bit : Bool} {next : Cell} (child : [l, r][bit.toNat]? = some next) {key' : List Bool}
        (h : ReachesLeaf next (width - label.length - 1) key' payload) :
        ReachesLeaf root width (label ++ bit :: key') payload := by
      obtain ⟨front, rest, last, c, r', leaf, len, rfl⟩ := h
      exact ⟨_, rest, last, c, r'.of_child labelled lt child, leaf, len, by simp⟩
    intro h
    cases h with
    | inl left =>
      obtain ⟨key', h, rfl⟩ := left
      exact below rfl h
    | inr right =>
      obtain ⟨key', h, rfl⟩ := right
      exact below rfl h

/-- A cell that holds the payload of a leaf by itself. -/
structure Makes (payload : Payload) (value : Cell) : Prop where
  eq : payload = (value.bits.toList, value.refs)
  ordinary : value.isExotic = false
  wellFormed : value.WellFormed

/-- What is reached from a cell that can be made can be made. -/
lemma Reaches.built (r : Reaches root width key rest c) (built : root.Built) : c.Built := by
  induction r with
  | root => exact built
  | branch _ labelled _ child ih =>
    apply ih.ref
    rw [labelled.refs_eq]
    exact List.mem_of_getElem? child

/-- A leaf of a tree that can be made has a value: its references are those of the leaf, and it has
fewer bits. -/
lemma ReachesLeaf.exists_makes {payload : Payload} (h : ReachesLeaf root width key payload)
    (built : root.Built) : ∃ value, Makes payload value := by
  obtain ⟨front, rest, last, c, r, leaf, _, _⟩ := h
  obtain ⟨form, _, bits⟩ := leaf.exists_form
  have le : payload.1.length ≤ Bits.capacity := by
    have le := c.bits.length_le
    rw [bits, List.length_append] at le
    exact Nat.le_trans (Nat.le_add_left _ _) le
  obtain ⟨value, same, refs, ordinary, wf⟩ :=
    (r.built built).wellFormed.exists_ordinary leaf.ordinary ⟨payload.1, le⟩
  refine ⟨value, ?_, ordinary, wf⟩
  rw [same, refs, leaf.refs_eq]

/-- The value of a leaf that is reached can be made. -/
lemma ReachesLeaf.built_of_makes {payload : Payload} {value : Cell}
    (h : ReachesLeaf root width key payload) (built : root.Built) (makes : Makes payload value) :
    value.Built := by
  obtain ⟨front, rest, last, c, r, leaf, _, _⟩ := h
  apply makes.wellFormed.built
  have refs : value.refs = c.refs := by rw [leaf.refs_eq, makes.eq]
  rw [refs]
  exact (r.built built).ref

end Nodes

variable {root : Cell} {width : Nat}

/-- All nodes that are reached from a cell which unfolds into a trie are nodes. -/
lemma Unfolds.isNode {t : Trie Payload} (h : Unfolds width root t) (small : width ≤ Bits.capacity)
    {key : List Bool} {rest : Nat} {c : Cell} (r : Reaches root width key rest c) :
    IsNode rest c := by
  induction h generalizing key with
  | @leaf width label xs cs root labelled len =>
    cases r.root_or_child labelled (Nat.le_of_eq len) small with
    | inl here =>
      obtain ⟨_, rfl, rfl⟩ := here
      exact ⟨label, xs, cs, labelled, Nat.le_of_eq len, fun lt => absurd len (Nat.ne_of_lt lt)⟩
    | inr deeper =>
      obtain ⟨_, _, _, lt, _⟩ := deeper
      exact absurd len (Nat.ne_of_lt lt)
  | @fork width label l r root left right labelled lt _ _ ihl ihr =>
    have below : width - label.length - 1 ≤ Bits.capacity := by omega
    cases r.root_or_child labelled (Nat.le_of_lt lt) small with
    | inl here =>
      obtain ⟨_, rfl, rfl⟩ := here
      exact ⟨label, [], [_, _], labelled, Nat.le_of_lt lt, fun _ => ⟨rfl, rfl⟩⟩
    | inr deeper =>
      obtain ⟨bit, next, key', _, child, _, r'⟩ := deeper
      cases bit with
      | false =>
        cases child
        exact ihl below r'
      | true =>
        cases child
        exact ihr below r'

/-- A cell unfolds into a trie when all that is reached from it are nodes. -/
lemma exists_unfolds (small : width ≤ Bits.capacity)
    (nodes : ∀ key rest c, Reaches root width key rest c → IsNode rest c) :
    ∃ t, Unfolds width root t := by
  induction root using Cell.induction generalizing width with
  | step root ih =>
    obtain ⟨label, xs, cs, labelled, le, fork⟩ := nodes [] width root .root
    cases Nat.eq_or_lt_of_le le with
    | inl len => exact ⟨.leaf label (xs, cs), .leaf labelled len⟩
    | inr lt =>
      obtain ⟨rfl, two⟩ := fork lt
      obtain ⟨l, r, rfl⟩ := List.length_eq_two.1 two
      have below : width - label.length - 1 ≤ Bits.capacity := by omega
      have child (bit : Bool) (next : Cell) (at' : [l, r][bit.toNat]? = some next) :
          ∃ t, Unfolds (width - label.length - 1) next t := by
        have mem : next ∈ root.refs := by
          rw [labelled.refs_eq]
          exact List.mem_of_getElem? at'
        apply ih next mem below
        intro key rest c reached
        exact nodes _ rest c (reached.of_child labelled lt at')
      obtain ⟨left, ul⟩ := child false l rfl
      obtain ⟨right, ur⟩ := child true r rfl
      exact ⟨.fork label left right, .fork labelled lt ul ur⟩

/-- What a tree of cells unfolds into fits the width. -/
lemma Unfolds.fits {t : Trie Payload} (h : Unfolds width root t) : t.Fits width := by
  induction h with
  | leaf _ len => exact len
  | fork _ lt _ _ ihl ihr => exact ⟨lt, ihl, ihr⟩

/-- The entries of the trie are the leaves that are reached. -/
lemma Unfolds.mem_entries {t : Trie Payload} (h : Unfolds width root t)
    (small : width ≤ Bits.capacity) {key : List Bool} {payload : Payload} :
    (key, payload) ∈ t.entries ↔ ReachesLeaf root width key payload := by
  induction h generalizing key with
  | leaf labelled len =>
    rw [entries, List.mem_singleton, Prod.mk.injEq, reachesLeaf_leaf labelled len small]
  | @fork width label l r root left right labelled lt _ _ ihl ihr =>
    have below : width - label.length - 1 ≤ Bits.capacity := by omega
    have under (bit : Bool) (es : List (List Bool × Payload)) :
        (key, payload) ∈ es.map (fun e => (label ++ bit :: e.1, e.2)) ↔
          ∃ key', (key', payload) ∈ es ∧ key = label ++ bit :: key' := by
      rw [List.mem_map]
      constructor
      · intro h
        obtain ⟨e, mem, same⟩ := h
        cases same
        exact ⟨e.1, mem, rfl⟩
      · intro h
        obtain ⟨key', mem, rfl⟩ := h
        exact ⟨_, mem, rfl⟩
    rw [entries, List.mem_append, under, under, reachesLeaf_fork labelled lt small]
    simp only [ihl below, ihr below]

end Trie

end CellBag
