import CellBag.Proofs.Cell.Height
import Mathlib

/-!
# Exotic cells

An exotic cell is made of the layout of its kind and of nothing else: over references that have the
fingerprints in it, and that are not too deep at the levels that are hashed (`Cell.Parts`). All other
parts are refused (`Cell.finalize_exotic`). A kind that fits its references always has room in a
cell, so that laying it out again gives the cell back.
-/

namespace CellBag

section Fits
variable {k : Kind} {refs : List Fingerprint}

/-- An exotic cell has at most two references. -/
lemma Kind.Fits.length_le (fits : k.Fits refs) : refs.length ≤ 2 := by
  cases k with
  | ordinary => exact fits.elim
  | pruned mask stored => exact fits.2.2 ▸ Nat.zero_le 2
  | library hash => exact List.length_eq_zero_iff.2 fits ▸ Nat.zero_le 2
  | merkleProof root => exact Nat.le_of_lt (congrArg List.length fits ▸ Nat.lt_succ_self 1)
  | merkleUpdate old new => exact Nat.le_of_eq (congrArg List.length fits)

/-- A pruned branch with three levels has the longest layout. -/
lemma Kind.Fits.length_layout_le (fits : k.Fits refs) : k.layout.length ≤ 832 := by
  cases k with
  | ordinary => exact fits.elim
  | pruned mask stored =>
    have level := mask.level_le
    rw [← fits.2.1] at level
    simp only [layout, List.length_append, Binary.length_ofNat, length_flatMap_hash,
      length_flatMap_depth]
    omega
  | library hash => simp [layout]
  | merkleProof root => simp [layout]
  | merkleUpdate old new => simp [layout]

end Fits

namespace Cell

/-- What an exotic cell of a kind is made of: the bits of its layout, references with the
fingerprints that it embeds, and none of them of the largest depth at a level that is hashed. -/
structure Parts (k : Kind) (bits : Bits) (refs : List Cell) : Prop where
  layout_eq : bits.toList = k.layout
  fits : k.Fits (refs.map (·.fingerprint 0))
  below : ∀ l, (maskOver k refs).isSignificant l = true →
    ∀ r ∈ refs, (r.depthAt (l + k.levelOffset)).toNat < 65535

variable {k : Kind} {bits : Bits} {refs : List Cell}

/-- The depths of parts that fit a kind fit as well if no reference has the largest depth; a pruned
branch has no references. -/
lemma depthsFit_iff (fits : k.Fits (refs.map (·.fingerprint 0))) :
    DepthsFit k refs ↔ ∀ l, (maskOver k refs).isSignificant l = true →
      ∀ r ∈ refs, (r.depthAt (l + k.levelOffset)).toNat < 65535 := by
  cases p : k.isPruned with
  | true =>
    have none : refs = [] := by
      cases k with
      | pruned mask stored => exact List.map_eq_nil_iff.1 fits.2.2
      | _ => cases p
    subst none
    exact iff_of_true (fun _ _ => Nat.zero_le _) fun _ _ => List.forall_mem_nil _
  | false =>
    rw [depthsFit_of_not_pruned p]
    simp only [heightOver_le, maxDepth]

/-- A cell of a kind is made exactly of parts for this kind. -/
lemma exists_finalize_exotic :
    (∃ c, finalize bits refs true = .ok c ∧ c.kind = k) ↔ Parts k bits refs := by
  have few (fits : k.Fits (refs.map (·.fingerprint 0))) : refs.length ≤ maxRefs := by
    have le := fits.length_le
    rw [List.length_map] at le
    exact Nat.le_trans le (by decide)
  constructor
  · intro made
    obtain ⟨c, run, rfl⟩ := made
    obtain ⟨rfl, rfl, exotic, wf⟩ := finalize_eq_ok.1 run
    obtain ⟨layout, fits⟩ := wf.kind_eq exotic
    have known := Kind.parse_eq_ok.2 ⟨layout, fits⟩
    exact ⟨layout, fits, (depthsFit_iff fits).1 (depthsFit_of_finalize true (few fits) known run)⟩
  · intro parts
    have known := Kind.parse_eq_ok.2 ⟨parts.layout_eq, parts.fits⟩
    exact (finalize_of_kind bits true (few parts.fits) known).1
      ((depthsFit_iff parts.fits).2 parts.below)

/-- A kind that fits its references is laid out in a cell, if they are not too deep. -/
lemma exists_ofKind (fits : k.Fits (refs.map (·.fingerprint 0)))
    (below : ∀ l, (maskOver k refs).isSignificant l = true →
      ∀ r ∈ refs, (r.depthAt (l + k.levelOffset)).toNat < 65535) :
    ∃ c, ofKind k refs = .ok c := by
  have room : k.layout.length ≤ 1023 := Nat.le_trans fits.length_layout_le (by decide)
  obtain ⟨c, run, kind⟩ := exists_finalize_exotic.2
    (⟨rfl, fits, below⟩ : Parts k ⟨k.layout, room⟩ refs)
  obtain ⟨bits, refs_eq, _, wf⟩ := finalize_eq_ok.1 run
  exact ⟨c, (ofKind_eq_ok fits).2 ⟨kind, congrArg Bits.toList bits, refs_eq, wf⟩⟩

/-- A pruned branch needs a Merkle depth of at most two, above all levels of the cell that it stands
in for. -/
lemma exists_prunedBranch {c : Cell} {d : Nat} :
    (∃ p, c.prunedBranch d = .ok p) ↔ d ≤ 2 ∧ c.mask.toByte.toNat < 2 ^ d := by
  rw [← Nat.one_shiftLeft]
  constructor
  · intro made
    obtain ⟨p, run⟩ := made
    obtain ⟨d3, lt, _⟩ := prunedBranch_eq_ok.1 run
    exact ⟨Nat.le_of_lt_succ d3, lt⟩
  · intro h
    obtain ⟨d2, lt⟩ := h
    have d3 : d < 3 := Nat.lt_succ_of_le d2
    have level := LevelMask.level_withLevel d3 lt
    have fits : (Kind.pruned (c.mask.union ⟨1 <<< d⟩) (c.mask.levels.map c.fingerprint)).Fits
        (([] : List Cell).map (·.fingerprint 0)) := by
      refine ⟨fun e => ?_, by rw [List.length_map, LevelMask.length_levels, level], rfl⟩
      rw [LevelMask.level_eq_zero.2 e] at level
      cases level
    obtain ⟨p, run⟩ := exists_ofKind fits fun _ _ => List.forall_mem_nil _
    obtain ⟨kind, layout, none, wf⟩ := (ofKind_eq_ok fits).1 run
    exact ⟨p, prunedBranch_eq_ok.2 ⟨d3, lt, kind, kind ▸ layout, none, wf⟩⟩

/-- Bits and references make an exotic cell of a kind exactly if they are the parts for it, and they
are refused if they are the parts for no kind. The cell has the layout of its kind, from which it is
made again. A pruned branch is made for a Merkle depth of at most two, above all levels of the cell
that it stands in for. -/
theorem finalize_exotic (bits : Bits) (refs : List Cell) :
    (∀ k, (∃ c, finalize bits refs true = .ok c ∧ c.kind = k) ↔ Parts k bits refs) ∧
      ((∃ e, finalize bits refs true = .error e) ↔ ∀ k, ¬ Parts k bits refs) ∧
      (∀ c, finalize bits refs true = .ok c →
        c.kind.layout = bits.toList ∧ ofKind c.kind refs = .ok c) ∧
      ∀ (c : Cell) (d : Nat),
        (∃ p, c.prunedBranch d = .ok p) ↔ d ≤ 2 ∧ c.mask.toByte.toNat < 2 ^ d := by
  refine ⟨fun k => exists_finalize_exotic, ?_, fun c run => ?_, fun c d => exists_prunedBranch⟩
  · constructor
    · intro refused k parts
      obtain ⟨e, fails⟩ := refused
      obtain ⟨c, run, _⟩ := exists_finalize_exotic.2 parts
      cases run.symm.trans fails
    · intro none
      cases run : finalize bits refs true with
      | ok c => exact absurd (exists_finalize_exotic.1 ⟨c, run, rfl⟩) (none c.kind)
      | error e => exact ⟨e, rfl⟩
  · have parts := exists_finalize_exotic.1 ⟨c, run, rfl⟩
    obtain ⟨bits_eq, refs_eq, _, wf⟩ := finalize_eq_ok.1 run
    refine ⟨parts.layout_eq.symm, (ofKind_eq_ok parts.fits).2 ⟨rfl, ?_, refs_eq, wf⟩⟩
    rw [bits_eq, parts.layout_eq]

/-- A Merkle update from a leaf to a branch that stands in for it. -/
theorem finalize_exotic_update :
    ∃ leaf branch update, Cell.leaf [0xA0] 3 = .ok leaf ∧ leaf.prunedBranch 0 = .ok branch ∧
      leaf.merkleUpdate branch = .ok update ∧
      finalize update.bits [leaf, branch] true = .ok update ∧
      Parts update.kind update.bits [leaf, branch] ∧
      ofKind update.kind [leaf, branch] = .ok update ∧
      (∃ p, branch.prunedBranch 1 = .ok p) ∧ ¬ ∃ p, branch.prunedBranch 0 = .ok p := by
  have run : (do
      let leaf ← Cell.leaf [0xA0] 3
      let branch ← leaf.prunedBranch 0
      let update ← leaf.merkleUpdate branch
      return (update.isExotic, branch.mask)) = .ok (true, ⟨1⟩) := by decide +kernel
  simp only [Outcome.bind_eq_ok, Outcome.pure_eq_ok, Prod.mk.injEq] at run
  obtain ⟨leaf, el, branch, eb, update, eu, exotic, mask⟩ := run
  obtain ⟨_, _, refs, wf⟩ := merkleUpdate_eq_ok.1 eu
  have made : finalize update.bits [leaf, branch] true = .ok update :=
    finalize_eq_ok.2 ⟨rfl, refs, exotic, wf⟩
  obtain ⟨accepted, _, again, branches⟩ := finalize_exotic update.bits [leaf, branch]
  refine ⟨leaf, branch, update, el, eb, eu, made, (accepted _).1 ⟨update, made, rfl⟩,
    (again update made).2, (branches branch 1).2 ?_, ?_⟩
  · rw [mask]
    decide
  · rw [branches branch 0, mask]
    decide

end Cell

end CellBag
