import CellBag.Proofs.Cell.Binding
import CellBag.Proofs.Dictionary.Shortest
import CellBag.Proofs.StateInit.Layout
import Mathlib

/-!
# Addresses of initial states

A state that was read from a cell, with a split depth that is not too large, can be stored again and
has an address. The cell that it is stored as has the data of the first one, and is the same cell
exactly if the tree of its libraries is canonical (`StateInit.address_of_ofCell`): a label of a
library may stand in any form in a cell that is read, and stands in the form that is chosen for it in
one that is stored.
-/

namespace CellBag

section Library
open Dictionary
variable {d : Dictionary} {root root' : Option Cell} {width limit : Nat}

/-- A dictionary that is read has keys of the width that it is read with. -/
lemma Dictionary.keyWidth_of_ofRoot {root : Cell} (read : ofRoot root width limit = .ok d) :
    d.keyWidth = width := by
  obtain ⟨_, _, read⟩ := Outcome.bind_eq_ok.1 read
  obtain ⟨_, _, read⟩ := Outcome.bind_eq_ok.1 read
  cases read
  rfl

/-- A dictionary that an optional root stands for can be stored again: over the same depths, and over
the same root exactly if the tree is canonical. -/
lemma Dictionary.exists_toRoot_of_ofRoot? (built : ∀ r ∈ root, r.Built)
    (read : ofRoot? width limit root = .ok d) :
    ∃ root', d.toRoot = .ok root' ∧ root'.isSome = root.isSome ∧
      List.Forall₂ Cell.SameDepths root.toList root'.toList ∧ (∀ r ∈ root', r.Built) ∧
      (root' = root ↔ ∀ r ∈ root, Trie.Canonical r width) := by
  cases root with
  | none =>
    cases read
    exact ⟨none, rfl, rfl, .nil, fun _ mem => (Option.not_mem_none _ mem).elim,
      iff_of_true rfl fun _ mem => (Option.not_mem_none _ mem).elim⟩
  | some r =>
    have made := built r rfl
    have wf := (Reachable.ofRoot made read).wellFormed
    obtain ⟨r', stored, same⟩ := exists_toRoot_of_ofRoot made read
    refine ⟨some r', stored, rfl, .cons same .nil, ?_, ?_⟩
    · intro _ mem
      cases mem
      exact wf.built_of_toRoot stored
    · constructor
      · intro equal _ mem
        cases mem
        rw [equal] at stored
        have canonical := (wf.canonical_of_toRoot stored).2.1
        rwa [keyWidth_of_ofRoot read] at canonical
      · intro canonical
        have stored' := toRoot_of_canonical made read (canonical r rfl)
        exact Except.ok.inj (stored.symm.trans stored')

end Library

namespace StateInit
variable {s : StateInit} {root root' : Option Cell} {c c' : Cell}

/-- A state has at most twelve bits. -/
lemma length_layout_le (s : StateInit) (root : Option Cell) : (s.layout root).length ≤ 12 := by
  have depth : (depthBits s.splitDepth).length ≤ 6 := by
    cases s.splitDepth with
    | none => exact (by decide : 1 ≤ 6)
    | some d => exact Nat.le_of_eq (congrArg Nat.succ (Binary.length_ofNat 5 d.toNat))
  have special : (specialBits s.special).length ≤ 3 := by
    cases s.special with
    | none => exact (by decide : 1 ≤ 3)
    | some flags => exact Nat.le_refl 3
  simp only [layout, List.length_append, List.length_singleton]
  omega

/-- The cell of a state is ordinary: an exotic cell has more data. -/
lemma LaidOut.isExotic_eq_false (laid : s.LaidOut root c) (wf : c.WellFormed) :
    c.isExotic = false := by
  cases exotic : c.isExotic with
  | false => rfl
  | true =>
    obtain ⟨layout, fits⟩ := wf.kind_eq exotic
    have lt := fits.lt_length_layout
    have le := s.length_layout_le root
    rw [← layout, laid.bits_eq] at lt
    omega

/-- The references are the same exactly if the roots of the libraries are. -/
lemma refsOver_inj : s.refsOver root' = s.refsOver root ↔ root' = root := by
  rw [refsOver, refsOver, List.append_right_inj, List.append_right_inj]
  constructor
  · intro same
    have head := congrArg List.head? same
    rwa [Option.head?_toList, Option.head?_toList] at head
  · intro same
    rw [same]

/-- A state that was read can be stored again, with the same data, and as the same cell exactly if its
libraries are stored over the same root. -/
lemma LaidOut.exists_toCell (laid : s.LaidOut root c) (built : c.Built)
    (le : ∀ d ∈ s.splitDepth, d.toNat ≤ maxSplitDepth) (stored : s.library.toRoot = .ok root')
    (some : root'.isSome = root.isSome)
    (same : List.Forall₂ Cell.SameDepths root.toList root'.toList) (made : ∀ r ∈ root', r.Built) :
    ∃ c', s.toCell = .ok c' ∧ c'.Built ∧ c'.bits = c.bits ∧ (c' = c ↔ root' = root) := by
  have wf := built.wellFormed
  have ordinary := laid.isExotic_eq_false wf
  have depths : List.Forall₂ Cell.SameDepths c.refs (s.refsOver root') := by
    have refl (cs : List Cell) : List.Forall₂ Cell.SameDepths cs cs :=
      List.forall₂_same.2 fun c _ => .refl c
    rw [laid.refs_eq]
    exact List.rel_append (refl _) (List.rel_append (refl _) same)
  obtain ⟨c', bits, refs, ordinary', wf', _⟩ := wf.exists_sameDepths ordinary c.bits depths
  have laid' : s.LaidOut root' c' := by
    refine ⟨?_, refs⟩
    rw [bits, laid.bits_eq, layout, layout, some]
  refine ⟨c', toCell_eq_ok.2 ⟨le, root', stored, laid', ordinary', wf'⟩, ?_, bits, ?_⟩
  · apply wf'.built
    obtain ⟨code, data, _⟩ := forall_mem_refsOver.1 (laid.refs_eq ▸ built.ref)
    rw [refs]
    exact forall_mem_refsOver.2 ⟨code, data, made⟩
  · rw [← refsOver_inj (s := s), ← refs, ← laid.refs_eq]
    constructor
    · intro equal
      rw [equal]
    · intro equal
      exact wf'.ext wf bits equal (ordinary'.trans ordinary.symm)

/-- A state that was read from a cell, with a split depth that is not too large, can be stored
again, and has an address: the hash of a cell with the data of the first one. This is the same cell
exactly if the tree of the libraries is canonical, and it has the same hash in no other case. -/
theorem address_of_ofCell (built : c.Built) (read : ofCell c = .ok s)
    (le : ∀ d ∈ s.splitDepth, d.toNat ≤ maxSplitDepth) :
    ∃ root c', s.LaidOut root c ∧ s.toCell = .ok c' ∧ c'.bits = c.bits ∧
      (∀ workchain, s.address workchain = .ok { workchain, account := c'.hash }) ∧
      (c' = c ↔ ∀ r ∈ root, Trie.Canonical r libraryKeyWidth) ∧
      (NoCollision c' c →
        (c'.hash = c.hash ↔ ∀ r ∈ root, Trie.Canonical r libraryKeyWidth)) := by
  obtain ⟨_, root, library, laid⟩ := ofCell_eq_ok.1 read
  obtain ⟨_, _, root_built⟩ := forall_mem_refsOver.1 (laid.refs_eq ▸ built.ref)
  obtain ⟨root', stored, some, same, made, canonical⟩ :=
    Dictionary.exists_toRoot_of_ofRoot? root_built library
  obtain ⟨c', again, built', bits, cell⟩ := laid.exists_toCell built le stored some same made
  rw [canonical] at cell
  refine ⟨root, c', laid, again, bits, fun workchain => ?_, cell, fun clean => ?_⟩
  · exact address_eq_ok.2 ⟨c', again, rfl⟩
  · rw [← cell]
    constructor
    · exact built'.eq_of_hash built clean
    · intro equal
      rw [equal]

/-- A library with an empty value, under a label of equal bits in the form that is chosen for it. -/
theorem address_of_ofCell_same :
    ∃ root c s, Cell.finalize ⟨[true, true, false] ++ Binary.ofNat 9 256, by decide⟩ [] false =
        .ok root ∧
      Cell.finalize ⟨[false, false, false, false, true], by decide⟩ [root] false = .ok c ∧
      ofCell c = .ok s ∧ Trie.Canonical root libraryKeyWidth ∧ s.toCell = .ok c ∧
      ∀ workchain, s.address workchain = .ok { workchain, account := c.hash } := by
  have run : (do
      let root ← Cell.finalize ⟨[true, true, false] ++ Binary.ofNat 9 256, by decide⟩ [] false
      let c ← Cell.finalize ⟨[false, false, false, false, true], by decide⟩ [root] false
      let s ← ofCell c
      let c' ← s.toCell
      return (s.code.isNone, s.data.isNone, decide (∀ d ∈ s.splitDepth, d.toNat ≤ maxSplitDepth),
        decide (c'.hash = c.hash), decide (NoCollision c' c))) =
        .ok (true, true, true, true, true) := by
    decide +kernel
  simp only [Outcome.bind_eq_ok, Outcome.pure_eq_ok, Prod.mk.injEq, decide_eq_true_eq] at run
  obtain ⟨root, er, c, ec, s, read, c', again, code, data, le, hash, clean⟩ := run
  have built : c.Built :=
    .finalize (List.forall_mem_singleton.2 (.finalize (List.forall_mem_nil _) er)) ec
  obtain ⟨library, c'', laid, again', _, address, cell, same⟩ := address_of_ofCell built read le
  cases again.symm.trans again'
  have canonical := (same clean).1 hash
  have equal := cell.2 canonical
  have refs : [root] = library.toList := by
    have all := laid.refs_eq
    rw [(Cell.finalize_eq_ok.1 ec).2.1, refsOver, Option.isNone_iff_eq_none.1 code,
      Option.isNone_iff_eq_none.1 data] at all
    exact all
  have mem : root ∈ library := Option.mem_toList.1 (refs ▸ List.mem_singleton_self root)
  rw [equal] at again address
  exact ⟨root, c, s, er, ec, read, canonical root mem, again, address⟩

/-- A state need not keep the cell that it was read from: the same library under the long form of
the label is read, and stored as another cell, so that the account is not the hash of the first
one. -/
theorem exists_address_not_kept :
    ∃ root c s c', Cell.finalize
        ⟨[true, false] ++ Binary.ofNat 9 256 ++ List.replicate 256 false, by decide +kernel⟩ [] false =
        .ok root ∧
      Cell.finalize ⟨[false, false, false, false, true], by decide⟩ [root] false = .ok c ∧
      c.Built ∧ ofCell c = .ok s ∧ s.splitDepth = none ∧ s.toCell = .ok c' ∧ c'.hash ≠ c.hash ∧
      ∀ workchain, s.address workchain ≠ .ok { workchain, account := c.hash } := by
  have run : (do
      let root ← Cell.finalize
        ⟨[true, false] ++ Binary.ofNat 9 256 ++ List.replicate 256 false, by decide +kernel⟩ [] false
      let c ← Cell.finalize ⟨[false, false, false, false, true], by decide⟩ [root] false
      let s ← ofCell c
      let c' ← s.toCell
      return (s.splitDepth, decide (c'.hash ≠ c.hash))) = .ok (none, true) := by
    decide +kernel
  simp only [Outcome.bind_eq_ok, Outcome.pure_eq_ok, Prod.mk.injEq, decide_eq_true_eq] at run
  obtain ⟨root, er, c, ec, s, read, c', again, depth, ne⟩ := run
  have built : c.Built :=
    .finalize (List.forall_mem_singleton.2 (.finalize (List.forall_mem_nil _) er)) ec
  refine ⟨root, c, s, c', er, ec, built, read, depth, again, ne, fun workchain addressed => ne ?_⟩
  obtain ⟨_, again', same⟩ := address_eq_ok.1 addressed
  cases again.symm.trans again'
  exact (congrArg Address.account same).symm

end StateInit

end CellBag
