import CellBag.Cell.Lookup
import CellBag.Proofs.Cell.Fingerprint

/-!
# Fingerprints that are there

A well formed cell stores as many fingerprints as its level mask has bits, and one more, or embeds
them when it is a pruned branch (`Cell.WellFormed.length_own`). So every level has an index with a
fingerprint (`Cell.WellFormed.fingerprint?_eq`), and cells over built cells are finalized without a
lookup in vain (`Cell.finalize?_eq`).
-/

namespace CellBag

/-- The level of a mask is the number of ones in it. -/
lemma LevelMask.level_eq_cpop (m : LevelMask) : m.level = m.bits.cpop.toNat := by
  have h : ∀ b : BitVec 3, (⟨b⟩ : LevelMask).level = b.cpop.toNat := by decide
  exact h m.bits

namespace Cell

namespace Lookup
variable {α β : Type}

/-- Outcomes that look nothing up follow one another as they are. -/
lemma of_bind (x : Except Error α) (f : α → Except Error β) :
    (Lookup.of x >>= fun a => Lookup.of (f a)) = Lookup.of (x >>= f) := by
  cases x with
  | error => rfl
  | ok => rfl

/-- A fold of actions that look nothing up in vain is one of their outcomes. -/
lemma foldlM_eq {f : β → α → Lookup β} {g : β → α → Except Error β} {xs : List α}
    (each : ∀ x ∈ xs, ∀ b, f b x = Lookup.of (g b x)) (b : β) :
    xs.foldlM f b = Lookup.of (xs.foldlM g b) := by
  induction xs generalizing b with
  | nil => rfl
  | cons x xs ih =>
    obtain ⟨first, later⟩ := List.forall_mem_cons.1 each
    rw [List.foldlM_cons, List.foldlM_cons, first, funext (ih later), of_bind]

/-- A map of actions that look nothing up in vain is one of their values. -/
lemma mapM_eq {f : α → Lookup β} {g : α → β} {xs : List α}
    (each : ∀ x ∈ xs, f x = Lookup.of (.ok (g x))) :
    xs.mapM f = Lookup.of (.ok (xs.map g)) := by
  induction xs with
  | nil => rfl
  | cons x xs ih =>
    obtain ⟨first, later⟩ := List.forall_mem_cons.1 each
    rw [List.mapM_cons, first, ih later]
    rfl

end Lookup

section Stored
variable {c : Cell}

/-- There is a fingerprint for each level of the mask and for level zero, but a pruned branch has
only one of its own. -/
theorem WellFormed.length_own (wf : c.WellFormed) :
    c.own.length = if c.kind.isPruned then 1 else c.mask.level + 1 := by
  rw [Cell.length_own wf.own_eq]
  cases p : c.kind.isPruned with
  | true => rw [ownLevels_of_pruned p, if_pos rfl, List.length_singleton]
  | false => rw [ownLevels_of_not_pruned p, if_neg Bool.false_ne_true, LevelMask.length_levels]

/-- At each level there is a fingerprint at the index that answers for it. -/
theorem WellFormed.fingerprint?_eq (wf : c.WellFormed) (l : Nat) :
    c.fingerprint? l = some (c.fingerprint l) := by
  have len := wf.length_own
  cases p : c.kind.isPruned with
  | true =>
    rw [p, if_pos rfl] at len
    obtain ⟨stored, kind, _⟩ := wf.pruned p
    rw [fingerprint?, fingerprint, kind]
    dsimp only
    split
    case isTrue lt => rw [List.getD_eq_getElem _ _ lt, List.getElem?_eq_getElem lt]
    case isFalse ge =>
      have one : 0 < c.own.length := len.symm ▸ Nat.zero_lt_one
      rw [List.getD_eq_default _ _ (Nat.not_lt.1 ge), List.getD_eq_getElem _ _ one,
        List.getElem?_eq_getElem one]
  | false =>
    rw [p, if_neg Bool.false_ne_true] at len
    have lt : c.mask.hashIndex l < c.own.length := by
      rw [len]
      exact Nat.lt_succ_of_le (c.mask.hashIndex_le_level l)
    have found : c.fingerprint? l = c.own[c.mask.hashIndex l]? := by
      rw [fingerprint?]
      cases e : c.kind with
      | pruned => rw [e] at p; cases p
      | _ => rfl
    rw [found, fingerprint_of_not_pruned p, List.getD_eq_getElem _ _ lt,
      List.getElem?_eq_getElem lt]

/-- From the highest level of the mask on the last fingerprint answers. -/
lemma WellFormed.getLast?_own (wf : c.WellFormed) {l : Nat} (le : c.mask.topLevel ≤ l) :
    c.own.getLast? = some (c.fingerprint l) := by
  have len := wf.length_own
  have there := wf.fingerprint?_eq l
  rw [List.getLast?_eq_getElem?]
  cases p : c.kind.isPruned with
  | true =>
    rw [p, if_pos rfl] at len
    have one : 0 < c.own.length := len.symm ▸ Nat.zero_lt_one
    rw [wf.fingerprint_top p le, len, List.getElem?_eq_getElem one, List.getD_eq_getElem _ _ one]
  | false =>
    rw [p, if_neg Bool.false_ne_true] at len
    have lt : c.mask.level < c.own.length := len.symm ▸ Nat.lt_succ_self _
    rw [fingerprint_of_topLevel_le le, fingerprint_of_not_pruned p,
      LevelMask.hashIndex_of_three_le (Nat.le_refl 3), len, Nat.add_sub_cancel,
      List.getElem?_eq_getElem lt, List.getD_eq_getElem _ _ lt]

end Stored

section Finalize
variable {kind : Kind} {bits : Bits} {refs : List Cell} {mask : LevelMask} {below : Option Digest}
  {levels : List Nat} {level : Nat}

/-- Built cells are looked up with success. -/
lemma Built.lookUp_eq {c : Cell} (h : Built c) (l : Nat) :
    c.lookUp l = Lookup.of (.ok (c.fingerprint l)) := by
  rw [lookUp, h.wellFormed.fingerprint?_eq]
  rfl

/-- The depths of cells that can be made are all there. -/
lemma depthOver?_eq (built : ∀ r ∈ refs, Built r) (level : Nat) :
    depthOver? refs level = Lookup.of (depthOver refs level) := by
  refine Lookup.foldlM_eq (fun r mem depth => ?_) 0
  rw [(built r mem).lookUp_eq]
  rfl

/-- The fingerprints of cells that can be made are all there. -/
lemma lookUpAll_eq {α : Type} (built : ∀ r ∈ refs, Built r) (level : Nat)
    (part : Fingerprint → α) :
    lookUpAll refs level part = Lookup.of (.ok (refs.map fun c => part (c.fingerprint level))) := by
  refine Lookup.mapM_eq fun r mem => ?_
  rw [(built r mem).lookUp_eq]
  rfl

/-- What goes into the hash over cells that can be made is all there. -/
lemma message?_eq (built : ∀ r ∈ refs, Built r) :
    message? kind bits refs mask below level =
      Lookup.of (.ok (message kind bits refs mask below level)) := by
  simp only [message?, message, lookUpAll_eq built, List.flatMap_def]
  rfl

/-- The fingerprints over built cells are computed without a lookup in vain. -/
theorem fingerprintsAt?_eq (built : ∀ r ∈ refs, Built r) :
    fingerprintsAt? kind bits refs mask levels below =
      Lookup.of (fingerprintsAt kind bits refs mask levels below) := by
  induction levels generalizing below with
  | nil => rfl
  | cons level levels ih =>
    rw [fingerprintsAt?, fingerprintsAt, depthOver?_eq built, message?_eq built]
    cases depthOver refs (level + kind.levelOffset) with
    | error => rfl
    | ok depth =>
      show (fingerprintsAt? kind bits refs mask levels _ >>= _) = _
      rw [ih]
      exact Lookup.of_bind _ _

/-- Cells over built cells are finalized without a lookup in vain. -/
theorem finalize?_eq (built : ∀ r ∈ refs, Built r) (exotic : Bool) :
    finalize? bits refs exotic = Lookup.of (finalize bits refs exotic) := by
  simp only [finalize?, finalize, lookUpAll_eq built, fingerprintsAt?_eq built]
  by_cases many : maxRefs < refs.length
  case pos =>
    rw [if_pos many, if_pos many]
    rfl
  case neg =>
    rw [if_neg many, if_neg many]
    cases exotic with
    | false => exact Lookup.of_bind _ _
    | true =>
      simp only [if_true]
      cases Kind.parse bits refs with
      | error => rfl
      | ok kind => exact Lookup.of_bind _ _

end Finalize

/-- Every built cell has a fingerprint at each level: as many as its mask has bits, and one more, are
its own, or else only one is and it embeds the others as a pruned branch. From the highest level of
the mask on the last one answers, which is the representation hash and the depth. So no cell is
finalized over built cells with a lookup in vain, whatever its kind and the outcome. -/
theorem lookups_succeed :
    (∀ c, Built c →
      c.own.length = (if c.kind.isPruned then 1 else c.mask.bits.cpop.toNat + 1) ∧
      (∀ mask stored, c.kind = .pruned mask stored →
        mask = c.mask ∧ stored.length = c.mask.bits.cpop.toNat) ∧
      (∀ l, c.fingerprint? l = some ⟨c.hashAt l, c.depthAt l⟩) ∧
      ∀ l, c.mask.topLevel ≤ l → c.hashAt l = c.hash ∧ c.depthAt l = c.depth ∧
        c.own.getLast? = some ⟨c.hash, c.depth⟩) ∧
    ∀ bits refs exotic, (∀ r ∈ refs, Built r) →
      finalize? bits refs exotic = Lookup.of (finalize bits refs exotic) := by
  refine ⟨fun c h => ⟨?_, ?_, h.wellFormed.fingerprint?_eq, fun l le => ?_⟩,
    fun bits refs exotic built => finalize?_eq built exotic⟩
  · rw [h.wellFormed.length_own, LevelMask.level_eq_cpop]
  · intro mask stored kind
    obtain ⟨stored', kind', _, len, _⟩ := h.wellFormed.pruned (by rw [kind]; rfl)
    rw [kind] at kind'
    cases kind'
    exact ⟨rfl, len.trans c.mask.level_eq_cpop⟩
  · have top := fingerprint_of_topLevel_le le
    have last := h.wellFormed.getLast?_own le
    rw [top] at last
    exact ⟨congrArg Fingerprint.hash top, congrArg Fingerprint.depth top, last⟩

/-- A Merkle proof over a tree with a pruned branch for the highest level alone. -/
theorem lookups_succeed_sparse :
    ∃ leaf branch tree proof : Cell, Cell.leaf [0xA0] 3 = .ok leaf ∧
      leaf.prunedBranch 2 = .ok branch ∧ Cell.finalize .empty [leaf, branch] false = .ok tree ∧
      tree.merkleProof = .ok proof ∧ proof.Built ∧ branch.own.length = 1 ∧
      tree.mask.bits = 0b100 ∧ tree.own.length = 2 ∧ proof.mask.bits = 0b010 ∧
      proof.fingerprint? 1 = some ⟨proof.hashAt 1, proof.depthAt 1⟩ ∧
      proof.hashAt 2 = proof.hash ∧
      finalize? proof.bits proof.refs true = Lookup.of (.ok proof) := by
  have run : (do
      let leaf ← Cell.leaf [0xA0] 3
      let branch ← leaf.prunedBranch 2
      let tree ← Cell.finalize .empty [leaf, branch] false
      let proof ← tree.merkleProof
      return (tree.mask.bits, proof.mask.bits)) = .ok (0b100, 0b010) := by decide +kernel
  simp only [Outcome.bind_eq_ok, Outcome.pure_eq_ok, Prod.mk.injEq] at run
  obtain ⟨leaf, el, branch, eb, tree, et, proof, ep, treeMask, proofMask⟩ := run
  have bl := Built.leaf el
  have bb : branch.Built := Built.prunedBranch eb
  have bt : tree.Built := .finalize (by simp [bl, bb]) et
  have bp : proof.Built := Built.ofKind (by simp [bt]) ep
  have branchOwn := (lookups_succeed.1 branch bb).1
  rw [(prunedBranch_eq_ok.1 eb).2.2.1] at branchOwn
  have treeOwn := (lookups_succeed.1 tree bt).1
  rw [Kind.isExotic_eq_false.1 (finalize_eq_ok.1 et).2.2.1, treeMask] at treeOwn
  have exotic : proof.isExotic = true := by
    rw [isExotic, (merkleProof_eq_ok.1 ep).1]
    rfl
  have top : proof.mask.topLevel ≤ 2 := by
    rw [LevelMask.topLevel, proofMask]
    decide
  have again := lookups_succeed.2 proof.bits proof.refs true bp.ref
  have made := bp.finalize_self
  rw [exotic] at made
  rw [made] at again
  exact ⟨leaf, branch, tree, proof, el, eb, et, ep, bp, branchOwn, treeMask, treeOwn, proofMask,
    (lookups_succeed.1 proof bp).2.2.1 1, ((lookups_succeed.1 proof bp).2.2.2 2 top).1, again⟩

end Cell

end CellBag
