import CellBag.Proofs.Dictionary.Node
import Mathlib

/-!
# Canonical trees

A tree of cells is canonical when each label that is reached stands in the form that is chosen for
it. What a trie is stored as is canonical (`Trie.canonical_of_toCell`), and a canonical tree is what
the trie is stored as into which it unfolds (`Trie.toCell_of_canonical`). The trie itself is made
again from its entries (`Trie.ofEntries_entries`).
-/

namespace CellBag

open Label (encode choose)

namespace Trie

section Tries
variable {α β : Type} {R : α → β → Prop} {t : Trie α} {t' : Trie β} {width forks : Nat}

/-- A trie is made again from its entries. -/
theorem ofEntries_entries (fits : t.Fits width) (le : width ≤ forks) :
    ofEntries forks t.entries = .ok t := by
  induction t generalizing width forks with
  | leaf label value => rw [entries, ofEntries]
  | fork label left right ihl ihr =>
    obtain ⟨lt, fl, fr⟩ := fits
    obtain ⟨forks, rfl⟩ := Nat.exists_eq_add_one.2 (by omega : 0 < forks)
    have enough : width - label.length - 1 ≤ forks := by omega
    rw [entries]
    refine (ofEntries_under (entries_ne_nil left) (entries_ne_nil right)).trans ?_
    rw [ihl fl enough, ihr fr enough]
    rfl

/-- A similar trie fits the same width. -/
lemma Similar.fits (s : Similar R t t') (fits : t.Fits width) : t'.Fits width := by
  induction s generalizing width with
  | leaf => exact fits
  | fork _ _ ihl ihr =>
    obtain ⟨lt, fl, fr⟩ := fits
    exact ⟨lt, ihl fl, ihr fr⟩

/-- A trie of values for those of another one. -/
lemma exists_similar (t : Trie α) (each : ∀ e ∈ t.entries, ∃ b, R e.2 b) :
    ∃ t' : Trie β, Similar R t t' := by
  induction t with
  | leaf label value =>
    obtain ⟨b, h⟩ := each (label, value) List.mem_cons_self
    exact ⟨.leaf label b, .leaf h⟩
  | fork label left right ihl ihr =>
    obtain ⟨left', sl⟩ := ihl fun e mem =>
      each (label ++ false :: e.1, e.2) (List.mem_append_left _ (List.mem_map.2 ⟨e, mem, rfl⟩))
    obtain ⟨right', sr⟩ := ihr fun e mem =>
      each (label ++ true :: e.1, e.2) (List.mem_append_right _ (List.mem_map.2 ⟨e, mem, rfl⟩))
    exact ⟨.fork label left' right', .fork sl sr⟩

end Tries

section Canonical
variable {root c next : Cell} {width rest : Nat} {key label xs : List Bool} {cs : List Cell}
  {bit : Bool}

/-- Each label that is read at a node stands there in the form that is chosen for it. -/
def Canonical (root : Cell) (width : Nat) : Prop :=
  ∀ key rest c, Reaches root width key rest c →
    ∀ label t, Load.label rest (Slice.ofCell c) = .ok label t →
      Slice.Between (Slice.ofCell c) (encode (choose label.toList rest) label.toList rest) t

/-- The children of a canonical node are canonical. -/
lemma Canonical.child (h : Canonical root width) (labelled : Labelled label width xs cs root)
    (lt : label.length < width) (child : cs[bit.toNat]? = some next) :
    Canonical next (width - label.length - 1) := by
  intro key rest c r
  exact h _ rest c (r.of_child labelled lt child)

/-- A canonical tree begins with the chosen form of its label. -/
lemma Canonical.bits_eq (h : Canonical root width) (labelled : Labelled label width xs cs root)
    (le : label.length ≤ width) (small : width ≤ Bits.capacity) :
    root.bits.toList = encode (choose label width) label width ++ xs := by
  obtain ⟨bits, t, run, rfl, rfl, _⟩ := exists_label labelled le small
  exact (h [] width root .root bits t run).remaining.1

/-- A tree is canonical when it begins with the chosen form of its label, and all below it is
canonical. -/
lemma canonical_of_parts (labelled : Labelled label width xs cs root) (le : label.length ≤ width)
    (small : width ≤ Bits.capacity)
    (chosen : root.bits.toList = encode (choose label width) label width ++ xs)
    (below : ∀ bit next, label.length < width → cs[Bool.toNat bit]? = some next →
      Canonical next (width - label.length - 1)) :
    Canonical root width := by
  intro key rest c r
  cases r.root_or_child labelled le small with
  | inl here =>
    obtain ⟨rfl, rfl, rfl⟩ := here
    intro bits t run
    -- the form that was written is read, so it is the one that was read here
    have lt : rest < 2 ^ 64 := Nat.lt_of_le_of_lt small (by decide)
    obtain ⟨t', between, _⟩ := Slice.exists_between chosen
    have written : Load.label rest (Slice.ofCell c) = .ok ⟨label, Nat.le_trans le small⟩ t' :=
      Load.label_of_form lt le (Label.choose_admits label rest) between
    cases run.symm.trans written
    exact between
  | inr deeper =>
    obtain ⟨bit, next, key', lt, child, _, r'⟩ := deeper
    exact below bit next lt child key' rest c r'

/-- What a trie is stored as is canonical. -/
theorem canonical_of_toCell {t : Trie Cell} (fits : t.Fits width) (small : width ≤ Bits.capacity)
    (e : t.toCell width = .ok root) : Canonical root width := by
  induction t generalizing root width with
  | leaf label value =>
    rw [toCell, Store.leaf_eq_ok] at e
    obtain ⟨bits, refs, ordinary, _⟩ := e
    have labelled : Labelled label width value.bits.toList value.refs root :=
      ⟨ordinary, ⟨_, Label.choose_admits label width, bits⟩, refs⟩
    apply canonical_of_parts labelled (Nat.le_of_eq fits) small bits
    intro bit next lt
    exact absurd fits (Nat.ne_of_lt lt)
  | fork label left right ihl ihr =>
    obtain ⟨lt, fl, fr⟩ := fits
    rw [toCell] at e
    obtain ⟨l, el, e⟩ := Outcome.bind_eq_ok.1 e
    obtain ⟨r, er, e⟩ := Outcome.bind_eq_ok.1 e
    obtain ⟨bits, refs, ordinary, _⟩ := Store.fork_eq_ok.1 e
    have chosen : root.bits.toList = encode (choose label width) label width ++ [] := by
      rw [bits, List.append_nil]
    have labelled : Labelled label width [] [l, r] root :=
      ⟨ordinary, ⟨_, Label.choose_admits label width, chosen⟩, refs⟩
    have below : width - label.length - 1 ≤ Bits.capacity := by omega
    apply canonical_of_parts labelled (Nat.le_of_lt lt) small chosen
    intro bit next _ child
    cases bit with
    | false =>
      cases child
      exact ihl fl below el
    | true =>
      cases child
      exact ihr fr below er

/-- A canonical tree is what the trie with its values is stored as. -/
theorem toCell_of_canonical {t : Trie Payload} {t' : Trie Cell} (unfolds : Unfolds width root t)
    (built : root.Built) (small : width ≤ Bits.capacity) (canonical : Canonical root width)
    (similar : Similar Makes t t') : t'.toCell width = .ok root := by
  induction unfolds generalizing t' with
  | @leaf width label xs cs root labelled len =>
    cases similar with
    | @leaf _ _ value makes =>
      obtain ⟨rfl, rfl⟩ := Prod.mk.inj makes.eq
      rw [toCell, Store.leaf_eq_ok]
      exact ⟨canonical.bits_eq labelled (Nat.le_of_eq len) small, labelled.refs_eq,
        labelled.ordinary, built.wellFormed⟩
  | @fork width label l r root left right labelled lt _ _ ihl ihr =>
    cases similar with
    | @fork _ _ _ left' right' sl sr =>
      have below : width - label.length - 1 ≤ Bits.capacity := by omega
      have child : ∀ c ∈ [l, r], c.Built := by
        rw [← labelled.refs_eq]
        exact built.ref
      have bits := canonical.bits_eq labelled (Nat.le_of_lt lt) small
      rw [List.append_nil] at bits
      have canonical_left :=
        canonical.child labelled lt (show [l, r][false.toNat]? = some l from rfl)
      have canonical_right :=
        canonical.child labelled lt (show [l, r][true.toNat]? = some r from rfl)
      have el := ihl (child l (by simp)) below canonical_left sl
      have er := ihr (child r (by simp)) below canonical_right sr
      rw [toCell, el, Outcome.ok_bind, er, Outcome.ok_bind]
      exact Store.fork_eq_ok.2 ⟨bits, labelled.refs_eq, labelled.ordinary, built.wellFormed⟩

end Canonical

section Leaves
variable {root c d next : Cell} {width rest rest' : Nat} {key key' label xs : List Bool}
  {cs : List Cell} {payload : Payload}

/-- What is reached from a node that is reached is reached from the root. -/
lemma Reaches.trans (r : Reaches root width key rest c) (r' : Reaches c rest key' rest' d) :
    Reaches root width (key ++ key') rest' d := by
  induction r' with
  | root =>
    rw [List.append_nil]
    exact r
  | branch _ labelled lt child ih =>
    rw [← List.append_assoc]
    exact .branch ih labelled lt child

/-- No more bits are left than there were at the root. -/
lemma Reaches.le (r : Reaches root width key rest c) : rest ≤ width := by
  induction r with
  | root => exact Nat.le_refl _
  | branch _ _ _ _ ih => omega

/-- There is a leaf below each node. -/
lemma Unfolds.exists_leaf_below {t : Trie Payload} (unfolds : Unfolds width root t)
    (small : width ≤ Bits.capacity) (r : Reaches root width key rest c) :
    ∃ below payload, ReachesLeaf root width (key ++ below) payload := by
  have le : rest ≤ Bits.capacity := Nat.le_trans r.le small
  obtain ⟨t', unfolds'⟩ := exists_unfolds le fun key' rest' d r' =>
    unfolds.isNode small (r.trans r')
  obtain ⟨e, mem⟩ := List.exists_mem_of_ne_nil _ (entries_ne_nil t')
  obtain ⟨front, rest', label, d, r', leaf, len, below⟩ := (unfolds'.mem_entries le).1 mem
  refine ⟨e.1, e.2, key ++ front, rest', label, d, r.trans r', leaf, len, ?_⟩
  rw [below, List.append_assoc]

/-- A fork has leaves on both sides. -/
lemma Unfolds.exists_leaf_beside {t : Trie Payload} (unfolds : Unfolds width root t)
    (small : width ≤ Bits.capacity) (r : Reaches root width key rest c)
    (labelled : Labelled label rest xs cs c) (lt : label.length < rest) (bit : Bool) :
    ∃ below payload, ReachesLeaf root width (key ++ label ++ bit :: below) payload := by
  obtain ⟨label', xs', cs', labelled', le, fork⟩ := unfolds.isNode small r
  have restLe : rest ≤ Bits.capacity := Nat.le_trans r.le small
  obtain ⟨rfl, rfl, rfl⟩ := labelled.unique labelled' (Nat.le_of_lt lt) le restLe
  obtain ⟨_, two⟩ := fork lt
  have within : bit.toNat < cs.length := two ▸ bit.toNat_lt
  obtain ⟨below, payload, leaf⟩ :=
    unfolds.exists_leaf_below small (r.branch labelled lt (List.getElem?_eq_getElem within))
  refine ⟨below, payload, ?_⟩
  rw [← List.append_assoc, List.append_assoc _ [bit]] at leaf
  exact leaf

end Leaves

end Trie

end CellBag
