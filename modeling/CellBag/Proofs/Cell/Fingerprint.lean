import CellBag.Proofs.Cell.Built

/-!
# Fingerprints by level

`Cell.messageAt` is the message that is hashed for a level of a cell. At each level that has a
fingerprint of its own, `Cell.fingerprint_of_mem` says that the hash is the digest of this message
and that the depth stands over those of the references; at the other levels a cell has the
fingerprint of the level below (`Cell.fingerprint_succ`).
-/

namespace CellBag

namespace Cell

/-- The hash that stands before an index of a list of fingerprints, `below` standing before all. -/
def hashBefore (own : List Fingerprint) (below : Option Digest) : Nat → Option Digest
  | 0 => below
  | i + 1 => own[i]?.map Fingerprint.hash

section Own
variable {kind : Kind} {bits : Bits} {refs : List Cell} {mask : LevelMask} {levels : List Nat}
  {below : Option Digest} {own : List Fingerprint}

/-- Fingerprints at levels begin with the one at the first level. -/
lemma fingerprintsAt_cons {level : Nat} :
    fingerprintsAt kind bits refs mask (level :: levels) below = .ok own ↔
      ∃ depth rest, depthOver refs (level + kind.levelOffset) = .ok depth ∧
        fingerprintsAt kind bits refs mask levels
          (some (Digest.of (message kind bits refs mask below level))) = .ok rest ∧
        own = ⟨Digest.of (message kind bits refs mask below level), depth⟩ :: rest := by
  rw [fingerprintsAt]
  simp only [Outcome.bind_eq_ok, Outcome.pure_eq_ok]
  constructor
  · rintro ⟨depth, ed, rest, er, rfl⟩
    exact ⟨depth, rest, ed, er, rfl⟩
  · rintro ⟨depth, rest, ed, er, rfl⟩
    exact ⟨depth, ed, rest, er, rfl⟩

/-- There is one fingerprint for each level of a cell's own. -/
lemma length_own (h : fingerprintsAt kind bits refs mask levels below = .ok own) :
    own.length = levels.length := by
  induction levels generalizing below own with
  | nil =>
    cases Outcome.pure_eq_ok.1 h
    rfl
  | cons level levels ih =>
    obtain ⟨_, rest, _, er, rfl⟩ := fingerprintsAt_cons.1 h
    rw [List.length_cons, ih er, List.length_cons]

/-- The fingerprint of a level is that of the message over the hash before it. -/
lemma getElem?_own {i level : Nat}
    (h : fingerprintsAt kind bits refs mask levels below = .ok own)
    (e : levels[i]? = some level) :
    ∃ f, own[i]? = some f ∧
      f.hash = Digest.of (message kind bits refs mask (hashBefore own below i) level) ∧
      depthOver refs (level + kind.levelOffset) = .ok f.depth := by
  induction levels generalizing below own i with
  | nil => cases e
  | cons first levels ih =>
    obtain ⟨depth, rest, ed, er, rfl⟩ := fingerprintsAt_cons.1 h
    cases i with
    | zero =>
      cases e
      exact ⟨_, rfl, rfl, ed⟩
    | succ i =>
      obtain ⟨f, ef, eh, ed'⟩ := ih er (by simpa using e)
      refine ⟨f, by simpa using ef, ?_, ed'⟩
      rw [eh]
      cases i <;> rfl

end Own

/-- The message whose digest is the hash of a cell at one of its levels. At level zero, and in a
pruned branch, it holds the data, and otherwise the hash at the level below. -/
def messageAt (c : Cell) (level : Nat) : List UInt8 :=
  message c.kind c.bits c.refs c.mask
    (if level = 0 ∨ c.kind.isPruned then none else some (c.hashAt (level - 1))) level

/-- The levels of a cell's own are all those of its mask, unless it is a pruned branch. -/
lemma ownLevels_of_not_pruned {k : Kind} {m : LevelMask} (np : k.isPruned = false) :
    ownLevels k m = m.levels := by
  rw [ownLevels, np]
  rfl

/-- A pruned branch has its top level only. -/
lemma ownLevels_of_pruned {k : Kind} {m : LevelMask} (p : k.isPruned = true) :
    ownLevels k m = [m.topLevel] := by
  rw [ownLevels, p]
  rfl

/-- A cell that is no pruned branch has only its own fingerprints. -/
lemma fingerprint_of_not_pruned {c : Cell} (np : c.kind.isPruned = false) (l : Nat) :
    c.fingerprint l = c.own.getD (c.mask.hashIndex l) default := by
  rw [fingerprint]
  cases e : c.kind with
  | pruned => rw [e] at np; cases np
  | _ => rfl

/-- At a level that is not significant a cell has the fingerprint of the level below. -/
lemma fingerprint_succ {c : Cell} {l : Nat} (insig : c.mask.isSignificant (l + 1) = false) :
    c.fingerprint (l + 1) = c.fingerprint l := by
  have e : c.mask.hashIndex (l + 1) = c.mask.hashIndex l := by
    rw [LevelMask.hashIndex_succ, insig]
    rfl
  rw [fingerprint, fingerprint, e]

/-- The highest level of the mask has the fingerprint of the third level. -/
lemma fingerprint_of_topLevel_le {c : Cell} {l : Nat} (le : c.mask.topLevel ≤ l) :
    c.fingerprint l = c.fingerprint 3 := by
  have h : c.mask.hashIndex l = c.mask.level := by
    apply Nat.le_antisymm (c.mask.hashIndex_le_level l)
    rw [← c.mask.hashIndex_topLevel]
    exact LevelMask.hashIndex_mono le
  rw [fingerprint, fingerprint, h, LevelMask.hashIndex_of_three_le (Nat.le_refl 3)]

/-- A cell of level zero has the same fingerprint at each level. -/
lemma fingerprint_of_level {c : Cell} (level : c.level = 0) (l : Nat) :
    c.fingerprint l = ⟨c.hash, c.depth⟩ := by
  have top : c.mask.topLevel ≤ l := by
    rw [LevelMask.topLevel_eq_zero.2 (LevelMask.level_eq_zero.1 level)]
    exact Nat.zero_le l
  exact fingerprint_of_topLevel_le top

/-- A pruned branch has its own fingerprint behind the stored ones. -/
lemma WellFormed.fingerprint_top {c : Cell} (wf : c.WellFormed) (p : c.kind.isPruned = true) {l : Nat}
    (le : c.mask.topLevel ≤ l) : c.fingerprint l = c.own.getD 0 default := by
  obtain ⟨stored, kind, _, len, _⟩ := wf.pruned p
  rw [fingerprint_of_topLevel_le le, fingerprint, LevelMask.hashIndex_of_three_le (Nat.le_refl 3),
    kind]
  simp only [List.getD_eq_getElem?_getD]
  rw [List.getElem?_eq_none (Nat.le_of_eq len)]
  rfl

/-- At its own levels the hash of a cell is the digest of the message there, and its depth stands
over the depths of the references there. -/
theorem WellFormed.fingerprint_of_mem {c : Cell} (wf : c.WellFormed) {l : Nat}
    (mem : l ∈ ownLevels c.kind c.mask) :
    c.hashAt l = Digest.of (c.messageAt l) ∧
      depthOver c.refs (l + c.kind.levelOffset) = .ok (c.depthAt l) := by
  cases p : c.kind.isPruned with
  | true =>
    rw [ownLevels_of_pruned p, List.mem_singleton] at mem
    have first : (ownLevels c.kind c.mask)[0]? = some l := by
      rw [ownLevels_of_pruned p, mem]
      rfl
    obtain ⟨f, ef, eh, ed⟩ := getElem?_own wf.own_eq first
    have e : c.fingerprint l = f := by
      rw [wf.fingerprint_top p (Nat.le_of_eq mem.symm), List.getD_eq_getElem?_getD, ef]
      rfl
    rw [hashAt, depthAt, e, messageAt, if_pos (Or.inr p)]
    exact ⟨eh, ed⟩
  | false =>
    rw [ownLevels_of_not_pruned p, LevelMask.mem_levels] at mem
    obtain ⟨f, ef, eh, ed⟩ := getElem?_own wf.own_eq
      (by rw [ownLevels_of_not_pruned p]; exact LevelMask.getElem?_levels mem)
    have e : c.fingerprint l = f := by
      rw [fingerprint_of_not_pruned p, List.getD_eq_getElem?_getD, ef]
      rfl
    rw [hashAt, depthAt, e, messageAt, p]
    refine ⟨?_, ed⟩
    rw [eh]
    congr 2
    cases l with
    | zero => rw [LevelMask.hashIndex_zero, if_pos (Or.inl rfl)]; rfl
    | succ l =>
      have len : c.mask.hashIndex l < c.own.length := by
        rw [length_own wf.own_eq, ownLevels_of_not_pruned p, LevelMask.length_levels]
        exact Nat.lt_succ_of_le (c.mask.hashIndex_le_level l)
      rw [LevelMask.hashIndex_succ, mem, if_neg (by simp), Nat.add_sub_cancel, hashAt,
        fingerprint_of_not_pruned p, List.getD_eq_getElem?_getD, List.getElem?_eq_getElem len]
      simp [hashBefore, List.getElem?_eq_getElem len]

end Cell

end CellBag
