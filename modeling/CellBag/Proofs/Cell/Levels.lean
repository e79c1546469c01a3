import CellBag.Proofs.Cell.Built
import CellBag.Proofs.Cell.Subtree

/-!
# Levels of a tree

A level mask is made of those of the references, moved down at a Merkle cell, and starts anew at a
pruned branch. All in all it says which pruned branches are visible from a cell: a bit of the mask is
set when a path of references leads to a pruned branch with the bit that is as many places higher as
there are Merkle cells on the path (`Cell.Built.getLsbD_mask_iff`).
-/

namespace CellBag.Cell

/-- A path of references from a cell to another one, with all the cells on it. -/
inductive Path : Cell → List Cell → Cell → Prop where
  | here {c} : Path c [c] c
  | ref {c r p cells} :
    r ∈ c.refs →
    Path r cells p →
    Path c (c :: cells) p

/-- The number of Merkle proofs and Merkle updates among some cells. -/
def merkleCount (cells : List Cell) : Nat :=
  cells.countP (·.kind.isMerkle)

/-- A path from the cell leads to a pruned branch whose mask has a bit, as many places higher as
there are Merkle cells on the path. -/
def SeesPruned (c : Cell) (bit : Nat) : Prop :=
  ∃ cells p mask stored, Path c cells p ∧ p.kind = .pruned mask stored ∧
    mask.bits.getLsbD (bit + merkleCount cells) = true

variable {c : Cell} {bit : Nat}

/-- A Merkle cell counts one more. -/
lemma merkleCount_cons (c : Cell) (cells : List Cell) :
    merkleCount (c :: cells) = merkleCount cells + c.kind.levelOffset :=
  List.countP_cons

/-- No path goes on from a pruned branch, which sees its own mask. -/
lemma seesPruned_of_pruned {mask : LevelMask} {stored : List Fingerprint}
    (kind : c.kind = .pruned mask stored) (none : c.refs = []) :
    c.SeesPruned bit ↔ mask.bits.getLsbD bit = true := by
  have count : merkleCount [c] = 0 := by
    rw [merkleCount_cons, kind]
    rfl
  constructor
  · intro sees
    obtain ⟨cells, p, mask', stored', path, kind', set⟩ := sees
    cases path with
    | here =>
      rw [kind] at kind'
      cases kind'
      rwa [count] at set
    | ref ref _ =>
      rw [none] at ref
      cases ref
  · intro set
    exact ⟨[c], c, mask, stored, .here, kind, by rwa [count]⟩

/-- Any other cell sees what its references see, one bit higher through a Merkle cell. -/
lemma seesPruned_of_not_pruned (np : c.kind.isPruned = false) :
    c.SeesPruned bit ↔ ∃ r ∈ c.refs, r.SeesPruned (bit + c.kind.levelOffset) := by
  constructor
  · intro sees
    obtain ⟨_, p, mask, stored, path, kind, set⟩ := sees
    cases path with
    | here =>
      rw [kind] at np
      cases np
    | @ref _ r _ cells ref path =>
      rw [merkleCount_cons, Nat.add_left_comm, Nat.add_comm] at set
      exact ⟨r, ref, cells, p, mask, stored, path, kind, set⟩
  · intro below
    obtain ⟨r, ref, cells, p, mask, stored, path, kind, set⟩ := below
    refine ⟨c :: cells, p, mask, stored, .ref ref path, kind, ?_⟩
    rw [merkleCount_cons, Nat.add_left_comm, Nat.add_comm]
    exact set

/-- A bit of the mask of a cell is set when a path of references leads to a pruned branch whose own
mask has the bit that is as many places higher as there are Merkle cells on the path. -/
theorem Built.getLsbD_mask_iff (b : c.Built) (bit : Nat) :
    c.mask.bits.getLsbD bit = true ↔ c.SeesPruned bit := by
  induction c using Cell.induction generalizing bit with
  | step c ih =>
    have wf := b.wellFormed
    cases p : c.kind.isPruned with
    | true =>
      obtain ⟨stored, kind, _, _, none⟩ := wf.pruned p
      exact (seesPruned_of_pruned kind none).symm
    | false =>
      rw [wf.getLsbD_mask p, List.any_map, List.any_eq_true, seesPruned_of_not_pruned p]
      refine exists_congr fun r => and_congr_right fun ref => ?_
      exact ih r ref (b.ref r ref) (bit + c.kind.levelOffset)

/-- A Merkle proof over a branch that was pruned for the second level sees it one level lower. -/
theorem Built.getLsbD_mask_iff_proof :
    ∃ leaf branch tree proof, Cell.leaf [0xA0] 3 = .ok leaf ∧ leaf.prunedBranch 1 = .ok branch ∧
      Cell.finalize .empty [leaf, branch] false = .ok tree ∧ tree.merkleProof = .ok proof ∧
      Path proof [proof, tree, branch] branch ∧ merkleCount [proof, tree, branch] = 1 ∧
      proof.mask.bits.getLsbD 0 = true := by
  have run : (do
      let leaf ← Cell.leaf [0xA0] 3
      let branch ← leaf.prunedBranch 1
      let tree ← Cell.finalize .empty [leaf, branch] false
      let proof ← tree.merkleProof
      return (merkleCount [proof, tree, branch], branch.mask.bits.getLsbD 1)) =
        .ok (1, true) := by decide +kernel
  simp only [Outcome.bind_eq_ok, Outcome.pure_eq_ok, Prod.mk.injEq] at run
  obtain ⟨leaf, el, branch, eb, tree, et, proof, ep, count, set⟩ := run
  have bl := Built.leaf el
  have bb : branch.Built := Built.prunedBranch eb
  have bt : tree.Built := .finalize (by simp [bl, bb]) et
  have bp : proof.Built := Built.ofKind (by simp [bt]) ep
  obtain ⟨_, refs, _⟩ := finalize_eq_ok.1 et
  obtain ⟨_, _, root, _⟩ := merkleProof_eq_ok.1 ep
  have path : Path proof [proof, tree, branch] branch := by
    refine .ref (r := tree) (by simp [root]) (.ref (r := branch) (by simp [refs]) .here)
  obtain ⟨stored, kind, _⟩ := bb.wellFormed.pruned (by rw [(prunedBranch_eq_ok.1 eb).2.2.1]; rfl)
  refine ⟨leaf, branch, tree, proof, el, eb, et, ep, path, count, ?_⟩
  exact (bp.getLsbD_mask_iff 0).2 ⟨_, branch, _, stored, path, kind, by rw [count]; exact set⟩

end CellBag.Cell
