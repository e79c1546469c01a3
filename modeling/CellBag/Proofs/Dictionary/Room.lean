import CellBag.Proofs.Builder.Room
import CellBag.Proofs.Dictionary.Canonical
import CellBag.Proofs.Dictionary.LabelLength
import CellBag.Proofs.Dictionary.Splitting
import Mathlib

/-!
# Room for dictionaries

A dictionary fails to be stored only for want of room (`Error.OfRoom`). Whether there is room is seen
from the trie of its keys: at each node the shortest label and the bits of a value have to fit into a
cell, and the height at each level that is hashed into a depth (`Trie.exists_toCell_iff`,
`Dictionary.toRoot_needs_room`).
-/

namespace CellBag

open Label (encode choose)

/-- A label is refused for room only. -/
lemma Store.failsForRoom_label (label : List Bool) (width : Nat) :
    FailsForRoom (Store.label label width) :=
  (failsForRoom_append _).bind (failsForRoom_append _)

namespace Trie

section Nodes
variable {α : Type} {label : List Bool} {value : α} {left right node : Trie α} {width rest : Nat}

/-- The nodes of a trie whose keys have `width` bits, each with how many bits they have from there
on. -/
inductive Node : Trie α → (width : Nat) → (node : Trie α) → (rest : Nat) → Prop where
  | here {t : Trie α} {width : Nat} : Node t width t width
  | left {label : List Bool} {left right node : Trie α} {width rest : Nat} :
    Node left (width - label.length - 1) node rest →
    Node (.fork label left right) width node rest
  | right {label : List Bool} {left right node : Trie α} {width rest : Nat} :
    Node right (width - label.length - 1) node rest →
    Node (.fork label left right) width node rest

/-- The only node of a leaf is the leaf. -/
lemma node_leaf :
    Node (leaf label value) width node rest ↔ node = leaf label value ∧ rest = width := by
  constructor
  · intro h
    cases h with
    | here => exact ⟨rfl, rfl⟩
  · intro h
    obtain ⟨rfl, rfl⟩ := h
    exact .here

/-- The nodes of a fork are the fork and those of its two sides. -/
lemma node_fork : Node (fork label left right) width node rest ↔
    (node = fork label left right ∧ rest = width) ∨
      Node left (width - label.length - 1) node rest ∨
      Node right (width - label.length - 1) node rest := by
  constructor
  · intro h
    cases h with
    | here => exact Or.inl ⟨rfl, rfl⟩
    | left h => exact Or.inr (Or.inl h)
    | right h => exact Or.inr (Or.inr h)
  · intro h
    rcases h with ⟨rfl, rfl⟩ | h | h
    · exact .here
    · exact .left h
    · exact .right h

end Nodes

/-- The label of a node. -/
def label {α : Type} : Trie α → List Bool
  | leaf label _ => label
  | fork label _ _ => label

/-- The number of bits of the value at a node. -/
def valueBits : Trie Cell → Nat
  | leaf _ value => value.bits.length
  | fork _ _ _ => 0

/-- The levels of the references of values at a node and below it. -/
def mask : Trie Cell → LevelMask
  | leaf _ value => Cell.maskOver .ordinary value.refs
  | fork _ left right => left.mask.union right.mask

/-- The height of a node at a level, in its trie and in the trees that values refer to. -/
def heightAt (l : Nat) : Trie Cell → Nat
  | leaf _ value => Cell.heightOver value.refs l
  | fork _ left right => max (left.heightAt l + 1) (right.heightAt l + 1)

/-- The shortest label of a node does not fit into a cell together with the bits of its value. -/
def Crowded (node : Trie Cell) (rest : Nat) : Prop :=
  ∃ n, IsLeast (Label.lengths node.label rest) n ∧ 1023 < n + node.valueBits

/-- The height of a node does not fit into a depth at a level that is hashed. -/
def TooHigh (node : Trie Cell) : Prop :=
  ∃ l, node.mask.isSignificant l = true ∧ 65535 < node.heightAt l

/-- All nodes of a trie have room. -/
def HasRoom (t : Trie Cell) (width : Nat) : Prop :=
  ∀ node rest, Node t width node rest → ¬ Crowded node rest ∧ ¬ TooHigh node

/-- A trie without room has a node that is crowded or too high. -/
lemma not_hasRoom {t : Trie Cell} {width : Nat} : ¬ t.HasRoom width ↔
    ∃ node rest, Node t width node rest ∧ (Crowded node rest ∨ TooHigh node) := by
  simp only [HasRoom, not_forall, exists_prop, not_and_or, not_not]

section Room
variable {label : List Bool} {value c : Cell} {t node left right : Trie Cell} {width rest : Nat}
  {e : Error}

/-- A node is not crowded if its label and its value fit into a cell. -/
lemma not_crowded : ¬ Crowded node rest ↔
    (encode (choose node.label rest) node.label rest).length + node.valueBits ≤ Bits.capacity := by
  have least := Label.isLeast_length_choose node.label rest
  constructor
  · intro h
    exact Nat.not_lt.1 fun lt => h ⟨_, least, lt⟩
  · intro le h
    obtain ⟨n, least', lt⟩ := h
    rw [least'.unique least] at lt
    exact Nat.not_lt.2 le lt

/-- A node is not too high if its heights are depths that a cell may have. -/
lemma not_tooHigh : ¬ TooHigh node ↔
    ∀ l, node.mask.isSignificant l = true → node.heightAt l ≤ Cell.maxDepth := by
  rw [TooHigh]
  push Not
  rfl

/-- A leaf has room if it is neither crowded nor too high. -/
lemma hasRoom_leaf : HasRoom (leaf label value) width ↔
    ¬ Crowded (leaf label value) width ∧ ¬ TooHigh (leaf label value) := by
  constructor
  · intro h
    exact h _ _ .here
  · intro h node rest at'
    obtain ⟨rfl, rfl⟩ := node_leaf.1 at'
    exact h

/-- A fork has room if it is neither crowded nor too high, and its two sides have room. -/
lemma hasRoom_fork : HasRoom (fork label left right) width ↔
    (¬ Crowded (fork label left right) width ∧ ¬ TooHigh (fork label left right)) ∧
      HasRoom left (width - label.length - 1) ∧ HasRoom right (width - label.length - 1) := by
  constructor
  · intro h
    exact ⟨h _ _ .here, fun node rest at' => h node rest (.left at'),
      fun node rest at' => h node rest (.right at')⟩
  · intro h node rest at'
    obtain ⟨here, below⟩ := h
    rcases node_fork.1 at' with ⟨rfl, rfl⟩ | at' | at'
    · exact here
    · exact below.1 node rest at'
    · exact below.2 node rest at'

/-- The mask over the cells of two sides is that of the fork. -/
lemma mask_over_pair {l r : Cell} (el : l.mask = left.mask) (er : r.mask = right.mask) :
    Cell.maskOver .ordinary [l, r] = (fork label left right).mask := by
  rw [mask, ← el, ← er, Cell.maskOver_ordinary, LevelMask.union]
  simp [LevelMask.union, LevelMask.empty]

/-- The height above the cells of two sides is that of the fork. -/
lemma height_over_pair {l r : Cell} {level : Nat}
    (el : (l.depthAt level).toNat = left.heightAt level)
    (er : (r.depthAt level).toNat = right.heightAt level) :
    Cell.heightOver [l, r] level = (fork label left right).heightAt level := by
  rw [Cell.heightOver_cons, Cell.heightOver_cons, el, er]
  rfl

/-- The cell of a trie has its levels, and its height as its depth. -/
lemma mask_and_depth_of_toCell (made : t.toCell width = .ok c) :
    c.mask = t.mask ∧ ∀ l, (c.depthAt l).toNat = t.heightAt l := by
  induction t generalizing width c with
  | leaf label value =>
    rw [toCell, Store.leaf_eq_ok] at made
    obtain ⟨_, refs, ordinary, wf⟩ := made
    have parts := wf.of_ordinary ordinary
    rwa [refs] at parts
  | fork label left right ihl ihr =>
    rw [toCell] at made
    obtain ⟨l, el, made⟩ := Outcome.bind_eq_ok.1 made
    obtain ⟨r, er, made⟩ := Outcome.bind_eq_ok.1 made
    obtain ⟨_, refs, ordinary, wf⟩ := Store.fork_eq_ok.1 made
    obtain ⟨mask, depth⟩ := wf.of_ordinary ordinary
    rw [refs] at mask depth
    constructor
    · exact mask.trans (mask_over_pair (ihl el).1 (ihr er).1)
    · intro level
      exact (depth level).trans (height_over_pair ((ihl el).2 level) ((ihr er).2 level))

/-- There is room for a leaf in a cell. -/
lemma exists_toCell_leaf (few : value.refs.length ≤ Cell.maxRefs) :
    (∃ c, (leaf label value).toCell width = .ok c) ↔ HasRoom (leaf label value) width := by
  rw [toCell, (Store.writes_leaf label width value).exists_toCell_iff few, hasRoom_leaf,
    not_crowded, not_tooHigh, Cell.depthsFit_of_not_pruned rfl, List.length_append]
  rfl

/-- There is room for a fork above two cells. -/
lemma exists_toCell_fork {l r : Cell} (el : left.toCell (width - label.length - 1) = .ok l)
    (er : right.toCell (width - label.length - 1) = .ok r) :
    (∃ c, (fork label left right).toCell width = .ok c) ↔
      ¬ Crowded (fork label left right) width ∧ ¬ TooHigh (fork label left right) := by
  obtain ⟨ml, dl⟩ := mask_and_depth_of_toCell el
  obtain ⟨mr, dr⟩ := mask_and_depth_of_toCell er
  have few : [l, r].length ≤ Cell.maxRefs := Nat.le_of_ble_eq_true rfl
  rw [toCell, el, Outcome.ok_bind, er, Outcome.ok_bind,
    (Store.writes_fork label width l r).exists_toCell_iff few, not_crowded, not_tooHigh,
    Cell.depthsFit_of_not_pruned rfl, mask_over_pair ml mr]
  have height (level : Nat) : Cell.heightOver [l, r] (level + Kind.ordinary.levelOffset) =
      (fork label left right).heightAt level :=
    height_over_pair (dl level) (dr level)
  simp only [height]
  rfl

/-- A trie is stored exactly if all its nodes have room. -/
theorem exists_toCell_iff (few : ∀ e ∈ t.entries, e.2.refs.length ≤ Cell.maxRefs) :
    (∃ c, t.toCell width = .ok c) ↔ t.HasRoom width := by
  induction t generalizing width with
  | leaf label value => exact exists_toCell_leaf (few (label, value) List.mem_cons_self)
  | fork label left right ihl ihr =>
    obtain ⟨fewl, fewr⟩ := List.forall_mem_append.1 few
    rw [List.forall_mem_map] at fewl fewr
    rw [hasRoom_fork, ← ihl fewl, ← ihr fewr]
    constructor
    · intro made
      obtain ⟨c, made⟩ := made
      have steps := made
      rw [toCell] at steps
      obtain ⟨l, el, steps⟩ := Outcome.bind_eq_ok.1 steps
      obtain ⟨r, er, _⟩ := Outcome.bind_eq_ok.1 steps
      exact ⟨(exists_toCell_fork el er).1 ⟨c, made⟩, ⟨l, el⟩, ⟨r, er⟩⟩
    · intro h
      obtain ⟨here, ⟨l, el⟩, ⟨r, er⟩⟩ := h
      exact (exists_toCell_fork el er).2 here

/-- Otherwise it fails. -/
lemma exists_toCell_error_iff (few : ∀ e ∈ t.entries, e.2.refs.length ≤ Cell.maxRefs) :
    (∃ e, t.toCell width = .error e) ↔
      ∃ node rest, Node t width node rest ∧ (Crowded node rest ∨ TooHigh node) := by
  rw [← not_hasRoom, ← exists_toCell_iff few]
  cases t.toCell width with
  | ok c =>
    refine iff_of_false ?_ fun none => none ⟨c, rfl⟩
    intro h
    obtain ⟨_, fails⟩ := h
    cases fails
  | error e =>
    refine iff_of_true ⟨e, rfl⟩ ?_
    intro h
    obtain ⟨_, made⟩ := h
    cases made

/-- A trie fails to be stored for want of room only. -/
theorem ofRoom_of_toCell (few : ∀ e ∈ t.entries, e.2.refs.length ≤ Cell.maxRefs)
    (fails : t.toCell width = .error e) : e.OfRoom := by
  induction t generalizing width with
  | leaf label value =>
    have each := (Store.failsForRoom_label label width).bind (Store.failsForRoom_cell value)
    rw [toCell] at fails
    exact (Store.writes_leaf label width value).ofRoom_of_toCell
      (few (label, value) List.mem_cons_self) each fails
  | fork label left right ihl ihr =>
    obtain ⟨fewl, fewr⟩ := List.forall_mem_append.1 few
    rw [List.forall_mem_map] at fewl fewr
    rw [toCell] at fails
    cases el : left.toCell (width - label.length - 1) with
    | error e' =>
      rw [el] at fails
      cases fails
      exact ihl fewl el
    | ok l =>
      cases er : right.toCell (width - label.length - 1) with
      | error e' =>
        rw [el, Outcome.ok_bind, er] at fails
        cases fails
        exact ihr fewr er
      | ok r =>
        have each := (Store.failsForRoom_label label width).bind
          ((Store.failsForRoom_ref l).bind (Store.failsForRoom_ref r))
        have two : [l, r].length ≤ Cell.maxRefs := Nat.le_of_ble_eq_true rfl
        rw [el, Outcome.ok_bind, er, Outcome.ok_bind] at fails
        exact (Store.writes_fork label width l r).ofRoom_of_toCell two each fails

end Room

end Trie

namespace Dictionary
variable {d : Dictionary} {t : Trie Cell} {width : Nat}

/-- What a dictionary that has a trie is stored as. -/
lemma toRoot_of_toTrie (some : d.entries ≠ []) (et : d.toTrie = .ok t) :
    d.toRoot = (do return Option.some (← t.toCell d.keyWidth)) := by
  have full : ¬ d.isEmpty = true := fun none => some (List.isEmpty_iff.1 none)
  rw [toRoot, if_neg full, et]
  rfl

/-- A dictionary without entries has no root. -/
lemma toRoot_of_empty (none : d.entries = []) : d.toRoot = .ok Option.none := by
  rw [toRoot, isEmpty, none]
  rfl

/-- Values of a trie are those of the dictionary. -/
lemma WellFormed.refs_le_of_entries (wf : d.WellFormed)
    (entries : t.entries = d.entries.map fun e => (e.1.toList, e.2)) :
    ∀ e ∈ t.entries, e.2.refs.length ≤ Cell.maxRefs := by
  rw [entries, List.forall_mem_map]
  intro e mem
  exact (wf.built e mem).wellFormed.refs_le

/-- A dictionary fails to be stored when its trie does. -/
lemma WellFormed.toRoot_eq_error (wf : d.WellFormed) {e : Error} : d.toRoot = .error e ↔
    ∃ t : Trie Cell, t.entries = (d.entries.map fun e => (e.1.toList, e.2)) ∧ t.Fits d.keyWidth ∧
      t.toCell d.keyWidth = .error e := by
  have stored {t : Trie Cell} : (do return Option.some (← t.toCell d.keyWidth)) = .error e ↔
      t.toCell d.keyWidth = .error e := by
    cases t.toCell d.keyWidth with
    | ok c => exact iff_of_false nofun nofun
    | error e' =>
      constructor
      · intro h
        cases h
        rfl
      · intro h
        cases h
        rfl
  constructor
  · intro fails
    have some : d.entries ≠ [] := by
      intro none
      rw [toRoot_of_empty none] at fails
      cases fails
    obtain ⟨t, et, entries, fits⟩ := wf.exists_toTrie some
    rw [toRoot_of_toTrie some et] at fails
    exact ⟨t, entries, fits, stored.1 fails⟩
  · intro h
    obtain ⟨t, entries, fits, fails⟩ := h
    have et : d.toTrie = .ok t := by
      rw [toTrie, ← entries]
      exact Trie.ofEntries_entries fits (Nat.le_refl _)
    have some : d.entries ≠ [] := by
      intro none
      rw [none] at entries
      exact t.entries_ne_nil entries
    rw [toRoot_of_toTrie some et]
    exact stored.2 fails

/-- A dictionary fails to be stored for want of room only, and is never taken for one with equal
keys or with nothing in a subtree: the entries are split into parts that are not empty, always before
their keys end. It fails exactly if a node in the trie of its keys has no room: its shortest label,
and the bits of the value at a leaf, do not fit into a cell, or its height does not fit into a depth
at a level that is hashed. -/
theorem toRoot_needs_room (built : Built width d) :
    (∀ e, d.toRoot = .error e → e.OfRoom) ∧ (∀ fault, d.toRoot ≠ .error (.dictionary fault)) ∧
      (d.entries ≠ [] → ∀ front part,
        Trie.Splits (d.entries.map fun e => (e.1.toList, e.2)) front part →
          Trie.Part width (d.entries.map fun e => (e.1.toList, e.2)) front part ∧
          (2 ≤ part.length → front.length + (Trie.shared part).length < width ∧
            Trie.side part false ≠ [] ∧ Trie.side part true ≠ [] ∧
            ∀ forks, Trie.ofEntries (forks + 1) part = (do
              let left ← Trie.ofEntries forks (Trie.side part false)
              let right ← Trie.ofEntries forks (Trie.side part true)
              return .fork (Trie.shared part) left right))) ∧
      ((∃ e, d.toRoot = .error e) ↔
        ∃ t : Trie Cell, t.entries = (d.entries.map fun e => (e.1.toList, e.2)) ∧ t.Fits width ∧
          ∃ node rest, Trie.Node t width node rest ∧ (node.Crowded rest ∨ node.TooHigh)) := by
  have wf := built.wellFormed
  obtain rfl := built.keyWidth_eq
  have ofRoom (e : Error) (fails : d.toRoot = .error e) : e.OfRoom := by
    obtain ⟨t, entries, _, fails⟩ := wf.toRoot_eq_error.1 fails
    exact Trie.ofRoom_of_toCell (wf.refs_le_of_entries entries) fails
  refine ⟨ofRoom, fun fault fails => ?_, fun some front part splits => ?_, ?_⟩
  · cases ofRoom _ fails
  · have part := splits.isPart wf.sorted (by rwa [ne_eq, List.map_eq_nil_iff])
    refine ⟨part, fun several => ?_⟩
    obtain ⟨inside, sides, forks⟩ := part.split several
    exact ⟨inside, (sides false).ne_nil, (sides true).ne_nil, forks⟩
  · constructor
    · intro h
      obtain ⟨e, fails⟩ := h
      obtain ⟨t, entries, fits, fails⟩ := wf.toRoot_eq_error.1 fails
      exact ⟨t, entries, fits,
        (Trie.exists_toCell_error_iff (wf.refs_le_of_entries entries)).1 ⟨e, fails⟩⟩
    · intro h
      obtain ⟨t, entries, fits, full⟩ := h
      obtain ⟨e, fails⟩ :=
        (Trie.exists_toCell_error_iff (wf.refs_le_of_entries entries)).2 full
      exact ⟨e, wf.toRoot_eq_error.2 ⟨t, entries, fits, fails⟩⟩

/-- Keys of one bit part in front of it. A value that takes up a whole cell has no room behind its
label, also where this is empty. -/
theorem toRoot_needs_room_full :
    ∃ bits empty full one two e, bits.toList = List.replicate 1023 true ∧
      Cell.finalize .empty [] false = .ok empty ∧ Cell.finalize bits [] false = .ok full ∧
      (Dictionary.empty 1).insert ⟨[false], by decide⟩ empty = .ok one ∧
      one.insert ⟨[true], by decide⟩ full = .ok two ∧ two.toRoot = .error e ∧ e.OfRoom ∧
      (∀ fault, e ≠ .dictionary fault) ∧
      (Trie.shared (two.entries.map fun e => (e.1.toList, e.2))).length < 1 := by
  let bits : Bits := ⟨List.replicate 1023 true, (List.length_replicate).le⟩
  have fit : Cell.DepthsFit .ordinary [] := fun _ _ => Nat.zero_le _
  obtain ⟨full, made, _⟩ := (Cell.finalize_of_kind bits false (Nat.zero_le _) rfl).1 fit
  have same : full.bits = bits := (Cell.finalize_eq_ok.1 made).1
  have builtEmpty : Cell.empty.Built := .finalize (List.forall_mem_nil _) Cell.finalize_empty
  have builtFull : full.Built := .finalize (List.forall_mem_nil _) made
  let one : Dictionary := ⟨1, [(⟨[false], by decide⟩, .empty)]⟩
  let two : Dictionary := ⟨1, [(⟨[false], by decide⟩, .empty), (⟨[true], by decide⟩, full)]⟩
  have first : (Dictionary.empty 1).insert ⟨[false], by decide⟩ .empty = .ok one := rfl
  have second : one.insert ⟨[true], by decide⟩ full = .ok two := rfl
  have built : Built 1 two := .insert (.insert .empty builtEmpty first) builtFull second
  have crowded : Trie.Crowded (.leaf [] full) 0 := by
    have label : encode (choose [] 0) [] 0 ≠ [] := Label.encode_ne_nil
    have value : (Trie.leaf [] full).valueBits = 1023 := by
      rw [Trie.valueBits, same]
      exact List.length_replicate
    refine ⟨_, Label.isLeast_length_choose [] 0, ?_⟩
    rw [value]
    exact Nat.lt_add_of_pos_left (List.length_pos_iff.2 label)
  obtain ⟨room, never, parts, fails⟩ := toRoot_needs_room built
  obtain ⟨e, run⟩ := fails.2 ⟨.fork [] (.leaf [] .empty) (.leaf [] full), rfl,
    ⟨Nat.one_pos, rfl, rfl⟩, .leaf [] full, 0, .right .here, Or.inl crowded⟩
  have inside := ((parts (List.cons_ne_nil _ _) [] _ .all).2 (Nat.le_refl 2)).1
  rw [List.length_nil, Nat.zero_add] at inside
  exact ⟨bits, .empty, full, one, two, e, rfl, Cell.finalize_empty, made, first, second, run,
    room e run, fun fault same => never fault (same ▸ run), inside⟩

end Dictionary

end CellBag
