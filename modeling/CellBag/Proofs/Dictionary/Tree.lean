import CellBag.Proofs.Dictionary.Label
import CellBag.Proofs.Dictionary.Trie
import Mathlib

/-!
# Trees of cells

The nodes of a trie are stored as ordinary cells that begin with their labels. A cell with a label
that takes up the key is read as a leaf and one with a shorter label and two references as a fork,
whichever form the label has (`Trie.exists_ofCell_leaf`, `Trie.ofCell_fork`). A cell that unfolds
into a trie is read when there is room for its leaves (`Trie.Unfolds.exists_ofCell`), and what a trie
is stored as unfolds into it (`Trie.exists_unfolds_toCell`).
-/

namespace CellBag

open Label (encode choose)

/-- An ordinary cell that begins with some form of a label and goes on with these bits and
references. -/
structure Labelled (label : List Bool) (limit : Nat) (xs : List Bool) (cs : List Cell) (c : Cell) :
    Prop where
  ordinary : c.isExotic = false
  exists_form : ∃ form : Label.Form,
    form.Admits label ∧ c.bits.toList = encode form label limit ++ xs
  refs_eq : c.refs = cs

namespace Store
variable {label : List Bool} {width : Nat} {c : Cell}

/-- A leaf is written as its label and its value. -/
lemma writes_leaf (label : List Bool) (width : Nat) (value : Cell) :
    Writes (do Store.label label width; cell value)
      (encode (choose label width) label width ++ value.bits.toList) value.refs :=
  (writes_label label width).bind (writes_cell value)

/-- A fork is written as its label over two references. -/
lemma writes_fork (label : List Bool) (width : Nat) (left right : Cell) :
    Writes (do Store.label label width; ref left; ref right)
      (encode (choose label width) label width) [left, right] := by
  have writes := (writes_label label width).bind ((writes_ref left).bind (writes_ref right))
  rwa [List.append_nil, List.append_nil] at writes

/-- The cell of a leaf has its label in front of its value. -/
lemma leaf_eq_ok {value : Cell} :
    toCell (do Store.label label width; cell value) = .ok c ↔
      c.bits.toList = encode (choose label width) label width ++ value.bits.toList ∧
        c.refs = value.refs ∧ c.isExotic = false ∧ c.WellFormed :=
  (writes_leaf label width value).toCell_eq_ok

/-- The cell of a fork has its label and two references. -/
lemma fork_eq_ok {left right : Cell} :
    toCell (do Store.label label width; ref left; ref right) = .ok c ↔
      c.bits.toList = encode (choose label width) label width ∧
        c.refs = [left, right] ∧ c.isExotic = false ∧ c.WellFormed :=
  (writes_fork label width left right).toCell_eq_ok

end Store

namespace Trie
variable {label xs : List Bool} {cs : List Cell} {c : Cell} {used width : Nat}

/-- What is read from a cell, by its parts. -/
lemma ofCell_eq (c : Cell) (used width room : Nat) : ofCell c used width room =
    if c.isExotic then .error (.dictionary .exoticCell) else
      match Load.label width (Slice.ofCell c) with
      | .error e _ => .error e
      | .ok label rest => (do
        ensureKeyRoom used label.length
        let used := used + label.length
        if width ≤ label.length then
          if room = 0 then throw (.dictionary .tooManyEntries)
          return leaf label.toList rest
        match c.refs with
        | [left, right] =>
          if rest.bitsLeft ≠ 0 then throw (.dictionary .forkNode)
          ensureKeyRoom used 1
          let below := width - label.length - 1
          let leftTrie ← ofCell left (used + 1) below room
          let rightTrie ← ofCell right (used + 1) below (room - leftTrie.size)
          return fork label.toList leftTrie rightTrie
        | _ => throw (.dictionary .forkNode)) := by
  cases c
  rw [ofCell]
  rfl

/-- Bits for which a key has room are let through. -/
lemma ensureKeyRoom_of_le {count : Nat} (le : used + count ≤ Bits.capacity) :
    ensureKeyRoom used count = .ok () := by
  rw [ensureKeyRoom, if_pos (by omega)]

/-- The label that a cell begins with is read, and what follows it is left. -/
lemma exists_label (h : Labelled label width xs cs c) (le : label.length ≤ width)
    (small : width ≤ Bits.capacity) :
    ∃ bits rest, Load.label width (Slice.ofCell c) = .ok bits rest ∧ bits.toList = label ∧
      rest.remainingBits = xs ∧ rest.remainingRefs = cs := by
  obtain ⟨form, admits, bits⟩ := h.exists_form
  obtain ⟨rest, between, left, refs⟩ := Slice.exists_between bits
  have lt : width < 2 ^ 64 := Nat.lt_of_le_of_lt small (by decide)
  refine ⟨⟨label, Nat.le_trans le small⟩, rest, (Load.label_eq_ok lt).2 ?_, rfl, left, ?_⟩
  · exact ⟨le, form, admits, between⟩
  · rw [refs, h.refs_eq]

/-- A cell whose label takes up the key is read as a leaf, if there is room for one. -/
lemma exists_ofCell_leaf (h : Labelled label width xs cs c) (len : label.length = width)
    (fits : used + width ≤ Bits.capacity) :
    ∃ rest : Slice, rest.remainingBits = xs ∧ rest.remainingRefs = cs ∧ ∀ room,
      ofCell c used width room =
        if 1 ≤ room then .ok (leaf label rest) else .error (.dictionary .tooManyEntries) := by
  obtain ⟨bits, rest, run, rfl, left, refs⟩ :=
    exists_label h (Nat.le_of_eq len) (Nat.le_trans (Nat.le_add_left _ _) fits)
  refine ⟨rest, left, refs, fun room => ?_⟩
  rw [ofCell_eq, if_neg (by rw [h.ordinary]; exact Bool.false_ne_true), run]
  dsimp only
  have len : bits.length = width := len
  rw [ensureKeyRoom_of_le (len ▸ fits), Outcome.ok_bind, if_pos (Nat.le_of_eq len.symm)]
  cases room with
  | zero => rfl
  | succ room => rfl

/-- A cell with a shorter label and two references is read as a fork. -/
lemma ofCell_fork {l r : Cell} (h : Labelled label width [] [l, r] c) (lt : label.length < width)
    (fits : used + width ≤ Bits.capacity) (room : Nat) :
    ofCell c used width room = (do
      let left ← ofCell l (used + label.length + 1) (width - label.length - 1) room
      let right ← ofCell r (used + label.length + 1) (width - label.length - 1) (room - left.size)
      return fork label left right) := by
  obtain ⟨bits, rest, run, rfl, left, refs⟩ :=
    exists_label h (Nat.le_of_lt lt) (Nat.le_trans (Nat.le_add_left _ _) fits)
  have none : rest.bitsLeft = 0 := by
    have len := congrArg List.length left
    rwa [Slice.remainingBits, List.length_drop] at len
  rw [ofCell_eq, if_neg (by rw [h.ordinary]; exact Bool.false_ne_true), run]
  dsimp only
  have lt' : bits.length < width := lt
  rw [ensureKeyRoom_of_le (by omega), Outcome.ok_bind, if_neg (Nat.not_le.2 lt'), h.refs_eq]
  dsimp only
  rw [if_neg (not_not.2 none), ensureKeyRoom_of_le (by omega), Outcome.ok_bind]
  rfl

section Similar
variable {α β : Type} {R : α → β → Prop}

/-- Tries of the same shape with the same labels, and with related values. -/
inductive Similar (R : α → β → Prop) : Trie α → Trie β → Prop where
  | leaf {label : List Bool} {a : α} {b : β} :
    R a b →
    Similar R (.leaf label a) (.leaf label b)
  | fork {label : List Bool} {left right : Trie α} {left' right' : Trie β} :
    Similar R left left' →
    Similar R right right' →
    Similar R (.fork label left right) (.fork label left' right')

variable {t : Trie α} {t' : Trie β}

/-- Similar tries have as many leaves. -/
lemma Similar.size_eq (s : Similar R t t') : t'.size = t.size := by
  induction s with
  | leaf => rfl
  | fork _ _ ihl ihr => rw [size, size, ihl, ihr]

/-- Similar tries have the same keys, and values that are related. -/
lemma Similar.entries (s : Similar R t t') :
    List.Forall₂ (fun e e' => e'.1 = e.1 ∧ R e.2 e'.2) t.entries t'.entries := by
  induction s with
  | leaf h => exact .cons ⟨rfl, h⟩ .nil
  | @fork label left right left' right' _ _ ihl ihr =>
    have below (bit : Bool) {es : List (List Bool × α)} {es' : List (List Bool × β)}
        (h : List.Forall₂ (fun e e' => e'.1 = e.1 ∧ R e.2 e'.2) es es') :
        List.Forall₂ (fun e e' => e'.1 = e.1 ∧ R e.2 e'.2)
          (es.map fun e => (label ++ bit :: e.1, e.2))
          (es'.map fun e => (label ++ bit :: e.1, e.2)) := by
      rw [List.forall₂_map_left_iff, List.forall₂_map_right_iff]
      exact h.imp fun e e' h => ⟨by rw [h.1], h.2⟩
    exact List.rel_append (below false ihl) (below true ihr)

/-- A trie that is similar to a similar one is similar by both relations. -/
lemma Similar.comp {γ : Type} {S : β → γ → Prop} {t'' : Trie γ} (s : Similar R t t')
    (s' : Similar S t' t'') : Similar (fun a c => ∃ b, R a b ∧ S b c) t t'' := by
  induction s generalizing t'' with
  | leaf r =>
    cases s' with
    | leaf r' => exact .leaf ⟨_, r, r'⟩
  | fork _ _ ihl ihr =>
    cases s' with
    | fork sl sr => exact .fork (ihl sl) (ihr sr)

/-- Similar tries are so by any weaker relation. -/
lemma Similar.imp {S : α → β → Prop} (s : Similar R t t') (h : ∀ a b, R a b → S a b) :
    Similar S t t' := by
  induction s with
  | leaf r => exact .leaf (h _ _ r)
  | fork _ _ ihl ihr => exact .fork ihl ihr

end Similar

/-- What a leaf carries behind its label: bits and references. -/
abbrev Payload := List Bool × List Cell

/-- The tree of cells below a cell, in which keys of `width` bits are to be read, is this trie. Every
node is an ordinary cell that begins with a label in any of its forms. Where the label takes up the
key the rest of the cell is a value; elsewhere nothing but two references follows it. A cell that
several nodes refer to stands for as many tries. -/
inductive Unfolds : (width : Nat) → Cell → Trie Payload → Prop where
  | leaf {width : Nat} {label xs : List Bool} {cs : List Cell} {c : Cell} :
    Labelled label width xs cs c →
    label.length = width →
    Unfolds width c (.leaf label (xs, cs))
  | fork {width : Nat} {label : List Bool} {l r c : Cell} {left right : Trie Payload} :
    Labelled label width [] [l, r] c →
    label.length < width →
    Unfolds (width - label.length - 1) l left →
    Unfolds (width - label.length - 1) r right →
    Unfolds width c (.fork label left right)

/-- A slice from which this is left. -/
def Left (payload : Payload) (rest : Slice) : Prop :=
  rest.remainingBits = payload.1 ∧ rest.remainingRefs = payload.2

/-- A cell that unfolds into a trie is read as this trie: with all leaves if there is room for them,
and not at all otherwise. -/
theorem Unfolds.exists_ofCell {t : Trie Payload} (h : Unfolds width c t)
    (fits : used + width ≤ Bits.capacity) :
    ∃ s, Similar Left t s ∧ ∀ room, ofCell c used width room =
      if t.size ≤ room then .ok s else .error (.dictionary .tooManyEntries) := by
  induction h generalizing used with
  | leaf labelled len =>
    obtain ⟨rest, left, refs, run⟩ := exists_ofCell_leaf labelled len fits
    exact ⟨.leaf _ rest, .leaf ⟨left, refs⟩, run⟩
  | @fork width label l r c left right labelled lt _ _ ihl ihr =>
    have deeper : used + label.length + 1 + (width - label.length - 1) ≤ Bits.capacity := by omega
    obtain ⟨left', sl, runl⟩ := ihl deeper
    obtain ⟨right', sr, runr⟩ := ihr deeper
    refine ⟨.fork label left' right', .fork sl sr, fun room => ?_⟩
    rw [ofCell_fork labelled lt fits, runl, size]
    -- the leaves to the left take their room first
    by_cases enough : left.size ≤ room
    · rw [if_pos enough, Outcome.ok_bind, runr, sl.size_eq]
      by_cases all : left.size + right.size ≤ room
      · rw [if_pos (by omega), if_pos all]
        rfl
      · rw [if_neg (by omega), if_neg all]
        rfl
    · rw [if_neg enough, if_neg (by omega)]
      rfl

/-- What a value leaves in its leaf: its bits and references, of which an ordinary cell can be
made. -/
structure Leaves (value : Cell) (payload : Payload) : Prop where
  bits_eq : payload.1 = value.bits.toList
  refs_eq : payload.2 = value.refs
  exists_ordinary : ∃ c : Cell, c.bits = value.bits ∧ c.refs = value.refs ∧ c.isExotic = false ∧
    c.WellFormed

/-- What a trie is stored as unfolds into it. -/
lemma exists_unfolds_toCell {t : Trie Cell} (fits : t.Fits width) (e : t.toCell width = .ok c) :
    ∃ t', Unfolds width c t' ∧ Similar Leaves t t' := by
  induction t generalizing c width with
  | leaf label value =>
    rw [toCell, Store.leaf_eq_ok] at e
    obtain ⟨bits, refs, ordinary, wf⟩ := e
    have labelled : Labelled label width value.bits.toList value.refs c :=
      ⟨ordinary, ⟨_, Label.choose_admits label width, bits⟩, refs⟩
    obtain ⟨c', same, same', ordinary', wf'⟩ := wf.exists_ordinary ordinary value.bits
    exact ⟨_, .leaf labelled fits, .leaf ⟨rfl, rfl, c', same, same'.trans refs, ordinary', wf'⟩⟩
  | fork label left right ihl ihr =>
    obtain ⟨lt, fl, fr⟩ := fits
    rw [toCell] at e
    obtain ⟨l, el, e⟩ := Outcome.bind_eq_ok.1 e
    obtain ⟨r, er, e⟩ := Outcome.bind_eq_ok.1 e
    obtain ⟨bits, refs, ordinary, wf⟩ := Store.fork_eq_ok.1 e
    have labelled : Labelled label width [] [l, r] c :=
      ⟨ordinary, ⟨_, Label.choose_admits label width, by rw [bits, List.append_nil]⟩, refs⟩
    obtain ⟨left', ul, sl⟩ := ihl fl el
    obtain ⟨right', ur, sr⟩ := ihr fr er
    exact ⟨_, .fork labelled lt ul ur, .fork sl sr⟩

/-- What is left of a leaf makes an ordinary cell with the bits and references of a value. -/
def Holds (value : Cell) (rest : Slice) : Prop :=
  ∃ c, Load.remainderOf rest = .ok c ∧ c.bits = value.bits ∧ c.refs = value.refs ∧
    c.isExotic = false ∧ c.WellFormed

/-- The trie of a tree of cells is read back from it: with all leaves if there is room for them, and
not at all otherwise. -/
theorem exists_ofCell_toCell {t : Trie Cell} {c : Cell} {used width : Nat} (fits : t.Fits width)
    (le : used + width ≤ Bits.capacity) (e : t.toCell width = .ok c) :
    ∃ t', Similar Holds t t' ∧ ∀ room, ofCell c used width room =
      if t.size ≤ room then .ok t' else .error (.dictionary .tooManyEntries) := by
  obtain ⟨payloads, unfolds, stored⟩ := exists_unfolds_toCell fits e
  obtain ⟨t', left, run⟩ := unfolds.exists_ofCell le
  rw [stored.size_eq] at run
  refine ⟨t', (stored.comp left).imp ?_, run⟩
  intro value rest h
  obtain ⟨payload, leaves, bits, refs⟩ := h
  obtain ⟨c, same, same', ordinary, wf⟩ := leaves.exists_ordinary
  refine ⟨c, Load.remainderOf_eq_ok.2 ?_, same, same', ordinary, wf⟩
  rw [bits, refs, leaves.bits_eq, leaves.refs_eq, same, same']
  exact ⟨rfl, rfl, ordinary, wf⟩

end Trie

end CellBag
