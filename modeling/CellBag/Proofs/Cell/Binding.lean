import CellBag.Proofs.Cell.Pruning
import CellBag.Proofs.Cell.Subtree

/-!
# Binding

The representation hash of a built cell binds the whole tree: `Cell.Built.eq_of_hash` takes two
trees without a collision apart, level by level within a cell and cell by cell from the root down.
`SameTree` is the equality of trees cell by cell, which a comparison of hashes decides.
-/

namespace CellBag

namespace Cell

/-- The levels of a reference are at most one above those of the cell. -/
lemma WellFormed.topLevel_ref {c r : Cell} (wf : c.WellFormed) (ref : r ∈ c.refs) :
    r.mask.topLevel ≤ c.mask.topLevel + c.kind.levelOffset := by
  have np : c.kind.isPruned = false := by
    by_contra p
    obtain ⟨_, _, _, _, none⟩ := wf.pruned (by simpa using p)
    rw [none] at ref
    cases ref
  apply LevelMask.topLevel_le
  intro l sig
  -- a significant level of the reference is one of the cell, moved down
  rcases Nat.lt_or_ge c.kind.levelOffset l with lt | le
  · obtain ⟨k, rfl⟩ : ∃ k, l = k + c.kind.levelOffset + 1 := ⟨l - 1 - c.kind.levelOffset, by omega⟩
    have own : c.mask.isSignificant (k + 1) = true := by
      rw [LevelMask.isSignificant_succ, wf.getLsbD_mask np]
      exact List.any_eq_true.2 ⟨true, List.mem_map.2 ⟨r, ref, sig⟩, rfl⟩
    have top := LevelMask.le_topLevel own
    omega
  · omega

/-- Above the highest level of a cell a reference answers with its representation hash. -/
lemma WellFormed.hashAt_ref {c r : Cell} (wf : c.WellFormed) (ref : r ∈ c.refs) :
    r.hashAt (c.mask.topLevel + c.kind.levelOffset) = r.hash := by
  rw [hashAt, fingerprint_of_topLevel_le (wf.topLevel_ref ref)]
  rfl

/-- A cell has a fingerprint of its own at its top level. -/
lemma topLevel_mem (c : Cell) : c.mask.topLevel ∈ ownLevels c.kind c.mask := by
  cases p : c.kind.isPruned with
  | true => rw [ownLevels_of_pruned p]; exact List.mem_singleton_self _
  | false =>
    rw [ownLevels_of_not_pruned p]
    exact LevelMask.mem_levels.2 (LevelMask.isSignificant_topLevel _)

/-- A well formed cell is a pruned branch when it is exotic, has levels and no references. -/
lemma WellFormed.isPruned_iff {c : Cell} (wf : c.WellFormed) :
    c.kind.isPruned = true ↔
      c.kind.isExotic = true ∧ c.refs.length = 0 ∧ c.mask ≠ .empty := by
  constructor
  · intro p
    obtain ⟨stored, kind, nonempty, _, none⟩ := wf.pruned p
    exact ⟨by rw [kind]; rfl, by rw [none]; rfl, nonempty⟩
  · rintro ⟨ex, none, nonempty⟩
    by_contra p
    have np : c.kind.isPruned = false := by simpa using p
    apply nonempty
    apply LevelMask.ext_of_isSignificant
    intro l
    rw [LevelMask.isSignificant_succ, wf.getLsbD_mask np, List.length_eq_zero_iff.1 none]
    exact BitVec.getLsbD_zero.symm

end Cell

section Binding
variable {a b : Cell}

/-- Two well formed cells with one hash, and without a collision, have messages of one form at their
highest levels. -/
lemma NoCollision.top (clean : NoCollision a b) (wa : a.WellFormed) (wb : b.WellFormed)
    (e : a.hash = b.hash) :
    a.messageAt a.mask.topLevel = b.messageAt b.mask.topLevel ∧ a.refs.length = b.refs.length ∧
      a.isExotic = b.isExotic ∧ a.mask = b.mask ∧ a.kind.isPruned = b.kind.isPruned := by
  have top (c : Cell) : c.hashAt c.mask.topLevel = c.hash := by
    rw [Cell.hashAt, Cell.fingerprint_of_topLevel_le (Nat.le_refl _)]
    rfl
  have em := clean.messageAt_eq wa wb a.topLevel_mem b.topLevel_mem (by rw [top, top, e])
  obtain ⟨len, exotic, mask⟩ := Cell.message_header wa.refs_le wb.refs_le em
  rw [LevelMask.apply_topLevel, LevelMask.apply_topLevel] at mask
  refine ⟨em, len, exotic, mask, ?_⟩
  rw [Bool.eq_iff_iff, wa.isPruned_iff, wb.isPruned_iff, len, exotic, mask]

/-- Two well formed cells of one form have one data when they have one hash at some level, unless
they are pruned branches. -/
lemma NoCollision.bits_eq (clean : NoCollision a b) (wa : a.WellFormed) (wb : b.WellFormed)
    (na : a.kind.isPruned = false) (nb : b.kind.isPruned = false) (mask : a.mask = b.mask) {l : Nat}
    (e : a.hashAt l = b.hashAt l) : a.bits = b.bits := by
  -- the message of a significant level holds the hash below it, and at level zero the data
  have step {l : Nat} (sig : b.mask.isSignificant l = true) (e : a.hashAt l = b.hashAt l) :
      a.messageAt l = b.messageAt l := by
    refine clean.messageAt_eq wa wb ?_ ?_ e
    · rw [Cell.ownLevels_of_not_pruned na, mask]
      exact LevelMask.mem_levels.2 sig
    · rw [Cell.ownLevels_of_not_pruned nb]
      exact LevelMask.mem_levels.2 sig
  induction l with
  | zero =>
    have em := step rfl e
    exact (Cell.message_inj wa.refs_le wb.refs_le rfl em).2.1 rfl
  | succ l ih =>
    cases sig : b.mask.isSignificant (l + 1) with
    | true =>
      have em := step sig e
      rw [Cell.messageAt, Cell.messageAt, if_neg (by simp [na]), if_neg (by simp [nb]),
        Nat.add_sub_cancel] at em
      have below := (Cell.message_inj wa.refs_le wb.refs_le (by rfl) em).1
      exact ih (Option.some.inj below)
    | false =>
      rw [Cell.hashAt, Cell.hashAt, Cell.fingerprint_succ sig,
        Cell.fingerprint_succ (mask ▸ sig)] at e
      exact ih e

/-- Built cells with one hash, and without a collision, are the same. -/
theorem Cell.Built.eq_of_hash (ba : a.Built) (bb : b.Built) (clean : NoCollision a b)
    (e : a.hash = b.hash) : a = b := by
  induction a using Cell.induction generalizing b with
  | step a ih =>
    have wa := ba.wellFormed
    have wb := bb.wellFormed
    obtain ⟨em, len, exotic, mask, pruned⟩ := clean.top wa wb e
    have same : (a.mask.topLevel = 0 ∨ a.kind.isPruned = true) =
        (b.mask.topLevel = 0 ∨ b.kind.isPruned = true) := by rw [mask, pruned]
    have inj := Cell.message_inj wa.refs_le wb.refs_le
      (by simp only [same]; split <;> rfl) em
    have bits : a.bits = b.bits := by
      cases p : a.kind.isPruned with
      | true => exact inj.2.1 (if_pos (Or.inr p))
      | false => exact clean.bits_eq wa wb p (pruned ▸ p) mask e
    have refs : a.refs = b.refs := by
      apply List.ext_getElem len
      intro i la lb
      have ma := List.getElem_mem la
      have mb := List.getElem_mem lb
      have h := congrArg (·[i]?) inj.2.2
      simp only [List.getElem?_map, List.getElem?_eq_getElem la, List.getElem?_eq_getElem lb,
        Option.map_some, Option.some.injEq] at h
      have h : a.refs[i].hash = b.refs[i].hash := by
        rw [← wa.hashAt_ref ma, ← wb.hashAt_ref mb]
        exact congrArg Fingerprint.hash h
      refine ih _ ma (ba.ref _ ma) (bb.ref _ mb) (clean.subcell ?_ ?_) h
      · exact Cell.mem_subcells_of_ref ma (Cell.self_mem_subcells _)
      · exact Cell.mem_subcells_of_ref mb (Cell.self_mem_subcells _)
    exact wa.ext wb bits refs exotic

end Binding

/-- Two trees are the same cell by cell: in data, kind, mask and references. -/
inductive SameTree : Cell → Cell → Prop where
  | mk {a b : Cell} :
    a.bits = b.bits →
    a.kind = b.kind →
    a.mask = b.mask →
    List.Forall₂ SameTree a.refs b.refs →
    SameTree a b

namespace SameTree

/-- A cell and itself make the same tree. -/
lemma refl (c : Cell) : SameTree c c := by
  induction c using Cell.induction with
  | step c ih => exact .mk rfl rfl rfl (List.forall₂_same.2 ih)

/-- Built trees that are the same cell by cell have the same fingerprints too. -/
lemma eq {a b : Cell} (h : SameTree a b) (ba : a.Built) (bb : b.Built) : a = b := by
  induction a using Cell.induction generalizing b with
  | step a ih =>
    cases h with
    | mk bits kind mask refs =>
      have refs : a.refs = b.refs := by
        obtain ⟨len, each⟩ := List.forall₂_iff_get.1 refs
        apply List.ext_getElem len
        intro i la lb
        have ma := List.getElem_mem la
        exact ih _ ma (each i la lb) (ba.ref _ ma) (bb.ref _ (List.getElem_mem lb))
      have exotic : a.isExotic = b.isExotic := congrArg Kind.isExotic kind
      exact ba.wellFormed.ext bb.wellFormed bits refs exotic

end SameTree

/-- The representation hash binds the whole tree, and the comparison of cells is the equality of
trees. That equal trees have one hash needs no assumption on the digest. -/
theorem hash_eq_iff_sameTree {a b : Cell} (ba : a.Built) (bb : b.Built) :
    (SameTree a b → a.hash = b.hash) ∧
      (NoCollision a b → (a.hash = b.hash ↔ SameTree a b) ∧ ((a == b) = true ↔ SameTree a b)) := by
  have back (h : SameTree a b) : a.hash = b.hash := by rw [h.eq ba bb]
  refine ⟨back, fun clean => ?_⟩
  have iff : a.hash = b.hash ↔ SameTree a b := by
    refine ⟨fun e => ?_, back⟩
    rw [ba.eq_of_hash bb clean e]
    exact .refl b
  refine ⟨iff, ?_⟩
  show (a.hash == b.hash) = true ↔ SameTree a b
  rw [beq_iff_eq, iff]

/-- A leaf and the pruned branch that stands in for it agree at level zero, and yet are different
cells. -/
theorem hash_eq_iff_sameTree_pruned :
    ∃ leaf branch, Cell.leaf [0xA0] 3 = .ok leaf ∧ leaf.prunedBranch 0 = .ok branch ∧
      NoCollision branch leaf ∧ branch.hashAt 0 = leaf.hashAt 0 ∧ branch.hash ≠ leaf.hash ∧
      (branch.hash = leaf.hash ↔ SameTree branch leaf) ∧ ¬ SameTree branch leaf := by
  have run : (do
      let leaf ← Cell.leaf [0xA0] 3
      let branch ← leaf.prunedBranch 0
      return (decide (NoCollision branch leaf), decide (branch.hashAt 0 = leaf.hashAt 0),
        decide (branch.hash ≠ leaf.hash))) = .ok (true, true, true) := by decide +kernel
  simp only [Outcome.bind_eq_ok, Outcome.pure_eq_ok, Prod.mk.injEq, decide_eq_true_eq] at run
  obtain ⟨leaf, el, branch, eb, clean, e, ne⟩ := run
  have bb : branch.Built := Cell.Built.prunedBranch eb
  have iff := ((hash_eq_iff_sameTree bb (Cell.Built.leaf el)).2 clean).1
  exact ⟨leaf, branch, el, eb, clean, e, ne, iff, fun same => ne (iff.2 same)⟩

end CellBag
