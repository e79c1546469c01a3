import CellBag.Proofs.Cell.Fingerprint
import Mathlib

/-!
# Depths

Two cells have the same depths when they have one mask and the same depth at each level. The data of
ordinary cells does not matter for this: they have the same depths when their references do
(`Cell.WellFormed.sameDepths`), and over such references there is a cell with any data
(`Cell.WellFormed.exists_sameDepths`). Over references without levels an ordinary cell fails on their
depths alone (`Cell.finalize_of_no_levels`).
-/

namespace CellBag.Cell

/-- Two cells with one mask and the same depth at each level. -/
structure SameDepths (c c' : Cell) : Prop where
  mask_eq : c'.mask = c.mask
  depthAt_eq : ∀ l, c'.depthAt l = c.depthAt l

/-- A cell has the same depths as itself. -/
lemma SameDepths.refl (c : Cell) : SameDepths c c :=
  ⟨rfl, fun _ => rfl⟩

variable {c c' : Cell} {refs refs' : List Cell}

/-- What is the same for cells with the same depths is so along lists of them. -/
lemma map_eq_of_sameDepths {α : Type} {f : Cell → α} (same : List.Forall₂ SameDepths refs refs')
    (each : ∀ c c', SameDepths c c' → f c' = f c) : refs'.map f = refs.map f := by
  induction same with
  | nil => rfl
  | cons first _ ih => rw [List.map_cons, List.map_cons, each _ _ first, ih]

/-- Cells with the same depths have the same masks. -/
lemma map_mask_eq (same : List.Forall₂ SameDepths refs refs') : refs'.map mask = refs.map mask :=
  map_eq_of_sameDepths same fun _ _ h => h.mask_eq

/-- Cells with the same depths have them at each level. -/
lemma map_depthAt_eq (same : List.Forall₂ SameDepths refs refs') (l : Nat) :
    refs'.map (·.depthAt l) = refs.map (·.depthAt l) :=
  map_eq_of_sameDepths same fun _ _ h => h.depthAt_eq l

/-- At a significant level the depth of an ordinary cell stands over the depths of its references
there. -/
lemma WellFormed.depthOver_eq (wf : c.WellFormed) (ordinary : c.isExotic = false) {l : Nat}
    (sig : c.mask.isSignificant l = true) : depthOver c.refs l = .ok (c.depthAt l) := by
  have kind : c.kind = .ordinary := Kind.isExotic_eq_false.1 ordinary
  have own : l ∈ ownLevels c.kind c.mask := by
    rw [ownLevels_of_not_pruned (by rw [kind]; rfl)]
    exact LevelMask.mem_levels.2 sig
  have depth := (wf.fingerprint_of_mem own).2
  rwa [kind] at depth

/-- Ordinary cells over references with the same depths have the same depths. -/
lemma WellFormed.sameDepths (wf : c.WellFormed) (wf' : c'.WellFormed)
    (ordinary : c.isExotic = false) (ordinary' : c'.isExotic = false)
    (refs : List.Forall₂ SameDepths c.refs c'.refs) : SameDepths c c' := by
  have mask : c'.mask = c.mask := by
    rw [wf.mask_eq, wf'.mask_eq, Kind.isExotic_eq_false.1 ordinary,
      Kind.isExotic_eq_false.1 ordinary', maskOver_ordinary, maskOver_ordinary, map_mask_eq refs]
  have significant (l : Nat) (sig : c.mask.isSignificant l = true) :
      c'.depthAt l = c.depthAt l := by
    have depth := wf.depthOver_eq ordinary sig
    have depth' := wf'.depthOver_eq ordinary' (mask.symm ▸ sig)
    rw [depthOver_congr (map_depthAt_eq refs l), depth] at depth'
    exact (Except.ok.inj depth').symm
  refine ⟨mask, fun l => ?_⟩
  induction l with
  | zero => exact significant 0 rfl
  | succ l ih =>
    cases sig : c.mask.isSignificant (l + 1) with
    | true => exact significant (l + 1) sig
    | false =>
      rw [depthAt, depthAt, fingerprint_succ sig, fingerprint_succ (mask.symm ▸ sig)]
      exact ih

/-- Over references with the depths of those of an ordinary cell there is a cell with any data, and
it has the depths of that cell. -/
lemma WellFormed.exists_sameDepths (wf : c.WellFormed)
    (ordinary : c.isExotic = false) (bits : Bits) (same : List.Forall₂ SameDepths c.refs refs) :
    ∃ c' : Cell, c'.bits = bits ∧ c'.refs = refs ∧ c'.isExotic = false ∧ c'.WellFormed ∧
      SameDepths c c' := by
  obtain ⟨c', eb, er, ordinary', wf'⟩ :=
    wf.exists_ordinary_over ordinary bits (map_mask_eq same) (map_depthAt_eq same)
  rw [← er] at same
  exact ⟨c', eb, er, ordinary', wf', wf.sameDepths wf' ordinary ordinary' same⟩

/-- No depth stands above the largest one. -/
lemma deepen_of_last {depth child : UInt16} (last : child.toNat = 65535) :
    deepen depth child = .error .depthOverflow :=
  if_pos (UInt16.toNat_inj.1 last)

/-- A depth that is at least the first one and above the second one. -/
lemma exists_deepen (depth : UInt16) {child : UInt16} (lt : child.toNat < 65535) :
    ∃ d, deepen depth child = .ok d ∧ d.toNat = max depth.toNat (child.toNat + 1) := by
  have ne : child ≠ 65535 := fun last => Nat.ne_of_lt lt (congrArg UInt16.toNat last)
  have above : (child + 1).toNat = child.toNat + 1 := by
    rw [UInt16.toNat_add]
    exact Nat.mod_eq_of_lt (Nat.succ_lt_succ lt)
  refine ⟨_, if_neg ne, ?_⟩
  rw [← above]
  show (if depth ≤ child + 1 then child + 1 else depth).toNat = _
  split
  case isTrue le => exact (Nat.max_eq_right (UInt16.le_iff_toNat_le.1 le)).symm
  case isFalse gt =>
    have le := Nat.le_of_not_le fun le => gt (UInt16.le_iff_toNat_le.2 le)
    exact (Nat.max_eq_left le).symm

/-- The depth over one cell is one more than its own. -/
lemma depthOver_singleton (c : Cell) (l : Nat) : depthOver [c] l = deepen 0 (c.depthAt l) := by
  rw [depthOver, List.foldlM_cons]
  cases deepen 0 (c.depthAt l) with
  | ok depth => rfl
  | error e => rfl

/-- An ordinary cell over cells without levels has none. -/
lemma maskOver_of_no_levels (none : ∀ r ∈ refs, r.mask = .empty) :
    maskOver .ordinary refs = .empty := by
  show refs.foldl (fun mask c => mask.union c.mask) LevelMask.empty = .empty
  induction refs with
  | nil => rfl
  | cons r refs ih =>
    obtain ⟨first, later⟩ := List.forall_mem_cons.1 none
    rw [List.foldl_cons, first]
    exact ih later

/-- Over references without levels an ordinary cell has one fingerprint, if its depth is not too
large. -/
lemma finalize_of_no_levels (bits : Bits) (few : refs.length ≤ maxRefs)
    (none : ∀ r ∈ refs, r.mask = .empty) :
    finalize bits refs false = do
      let depth ← depthOver refs 0
      return mk .ordinary bits refs .empty
        [⟨Digest.of (message .ordinary bits refs .empty Option.none 0), depth⟩] := by
  have parts : finalize bits refs false = do
      let own ← fingerprintsAt .ordinary bits refs (maskOver .ordinary refs)
        (ownLevels .ordinary (maskOver .ordinary refs)) Option.none
      return mk .ordinary bits refs (maskOver .ordinary refs) own := by
    rw [finalize, if_neg (Nat.not_lt.2 few)]
    rfl
  rw [parts, maskOver_of_no_levels none, show ownLevels .ordinary .empty = [0] from rfl,
    fingerprintsAt]
  show (depthOver refs 0 >>= _) >>= _ = _
  cases depthOver refs 0 with
  | ok depth => rfl
  | error e => rfl

end CellBag.Cell
