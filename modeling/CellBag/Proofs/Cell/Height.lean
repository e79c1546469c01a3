import CellBag.Proofs.Cell.Depth
import CellBag.Proofs.Cell.Levels
import Mathlib

/-!
# Heights

The height over some references is their depth as a natural number, which has no bound. A depth is
the height as long as this fits sixteen bits, and overflows otherwise (`Cell.depthOver_eq`), so that
a cell is made of its parts exactly if none of the heights that it hashes is too large
(`Cell.finalize_of_kind`). In a tree of ordinary cells and library references the height is the
length of the longest path (`Cell.finalize_depth`).
-/

namespace CellBag.Cell

/-- The largest depth that sixteen bits hold. -/
def maxDepth : Nat := 65535

/-- One more than the largest depth of some references at a level, and zero over none. -/
def heightOver (refs : List Cell) (l : Nat) : Nat :=
  (refs.map fun c => (c.depthAt l).toNat + 1).foldr max 0

section Over
variable {refs : List Cell} {l l' n : Nat}

/-- A further cell makes the height the larger one of two. -/
lemma heightOver_cons (c : Cell) (refs : List Cell) (l : Nat) :
    heightOver (c :: refs) l = max ((c.depthAt l).toNat + 1) (heightOver refs l) :=
  rfl

/-- A height bounds the depths of all cells below it. -/
lemma heightOver_le : heightOver refs l ≤ n ↔ ∀ r ∈ refs, (r.depthAt l).toNat < n := by
  induction refs with
  | nil => exact iff_of_true (Nat.zero_le n) (List.forall_mem_nil _)
  | cons c refs ih => rw [heightOver_cons, Nat.max_le, ih, List.forall_mem_cons, Nat.succ_le_iff]

/-- A height that is not zero comes from one of the cells below it. -/
lemma heightOver_eq_zero_or (refs : List Cell) (l : Nat) :
    heightOver refs l = 0 ∨ ∃ r ∈ refs, heightOver refs l = (r.depthAt l).toNat + 1 := by
  induction refs with
  | nil => exact Or.inl rfl
  | cons c refs ih =>
    rw [heightOver_cons]
    cases Nat.le_total (heightOver refs l) ((c.depthAt l).toNat + 1) with
    | inl le => exact Or.inr ⟨c, List.mem_cons_self, Nat.max_eq_left le⟩
    | inr le =>
      rw [Nat.max_eq_right le]
      exact ih.imp_right fun ⟨r, mem, e⟩ => ⟨r, List.mem_cons_of_mem c mem, e⟩

/-- Cells with the same depths at two levels have the same height above them. -/
lemma heightOver_congr (same : ∀ r ∈ refs, r.depthAt l = r.depthAt l') :
    heightOver refs l = heightOver refs l' := by
  have depths : refs.map (fun c => (c.depthAt l).toNat + 1) =
      refs.map fun c => (c.depthAt l').toNat + 1 :=
    List.map_congr_left fun r mem => by rw [same r mem]
  rw [heightOver, heightOver, depths]

/-- The depth grows with each reference, until one is too deep. -/
lemma foldlM_deepen (refs : List Cell) (l : Nat) (depth : UInt16) :
    refs.foldlM (fun depth c => deepen depth (c.depthAt l)) depth =
      if heightOver refs l ≤ maxDepth then
        .ok (UInt16.ofNat (max depth.toNat (heightOver refs l)))
      else .error .depthOverflow := by
  induction refs generalizing depth with
  | nil =>
    have none : heightOver [] l = 0 := rfl
    rw [List.foldlM_nil, none, if_pos (Nat.zero_le _), Nat.max_zero, UInt16.ofNat_toNat]
    rfl
  | cons c refs ih =>
    rw [List.foldlM_cons, heightOver_cons]
    cases Nat.lt_or_ge (c.depthAt l).toNat maxDepth with
    | inl lt =>
      obtain ⟨next, run, value⟩ := exists_deepen depth lt
      have room : max ((c.depthAt l).toNat + 1) (heightOver refs l) ≤ maxDepth ↔
          heightOver refs l ≤ maxDepth :=
        Nat.max_le.trans (and_iff_right lt)
      rw [run, Outcome.ok_bind, ih, value, Nat.max_assoc]
      simp only [room]
    | inr ge =>
      have last : (c.depthAt l).toNat = 65535 :=
        Nat.le_antisymm (Nat.le_of_lt_succ (c.depthAt l).toNat_lt) ge
      have above : ¬ max ((c.depthAt l).toNat + 1) (heightOver refs l) ≤ maxDepth := fun le =>
        absurd (Nat.max_le.1 le).1 (Nat.not_le.2 (Nat.lt_succ_of_le ge))
      rw [deepen_of_last last, if_neg above]
      rfl

/-- The depth over some references is the height, if it is not too large. -/
theorem depthOver_eq (refs : List Cell) (l : Nat) :
    depthOver refs l =
      if heightOver refs l ≤ maxDepth then .ok (UInt16.ofNat (heightOver refs l))
      else .error .depthOverflow := by
  rw [depthOver, foldlM_deepen, UInt16.toNat_zero, Nat.zero_max]

/-- A depth over cells is the height above them. -/
lemma toNat_of_depthOver {depth : UInt16} (e : depthOver refs l = .ok depth) :
    depth.toNat = heightOver refs l := by
  rw [depthOver_eq, Outcome.check_eq_ok] at e
  obtain ⟨le, e⟩ := e
  cases e
  exact UInt16.toNat_ofNat_of_lt (Nat.lt_succ_of_le le)

end Over

section Finalize
variable {kind : Kind} {bits : Bits} {refs : List Cell} {mask : LevelMask} {levels : List Nat}
  {below : Option Digest}

/-- Fingerprints are computed when the height is not too large at any of their levels. -/
lemma exists_fingerprintsAt_of_heights
    (fit : ∀ l ∈ levels, heightOver refs (l + kind.levelOffset) ≤ maxDepth) :
    ∃ own, fingerprintsAt kind bits refs mask levels below = .ok own := by
  induction levels generalizing below with
  | nil => exact ⟨[], rfl⟩
  | cons level levels ih =>
    obtain ⟨first, later⟩ := List.forall_mem_cons.1 fit
    obtain ⟨rest, run⟩ := @ih (some (Digest.of (message kind bits refs mask below level))) later
    have depth := depthOver_eq refs (level + kind.levelOffset)
    rw [if_pos first] at depth
    exact ⟨_, fingerprintsAt_cons.2 ⟨_, rest, depth, run, rfl⟩⟩

/-- One height that is too large is reported. -/
lemma fingerprintsAt_of_height
    (high : ∃ l ∈ levels, maxDepth < heightOver refs (l + kind.levelOffset)) :
    fingerprintsAt kind bits refs mask levels below = .error .depthOverflow := by
  induction levels generalizing below with
  | nil =>
    obtain ⟨l, mem, _⟩ := high
    cases mem
  | cons level levels ih =>
    rw [fingerprintsAt, depthOver_eq]
    split
    case isTrue le =>
      have later : ∃ l ∈ levels, maxDepth < heightOver refs (l + kind.levelOffset) := by
        obtain ⟨l, mem, lt⟩ := high
        cases mem with
        | head => exact absurd le (Nat.not_le.2 lt)
        | tail _ mem => exact ⟨l, mem, lt⟩
      rw [Outcome.ok_bind]
      dsimp only
      rw [ih later]
      rfl
    case isFalse => rfl

/-- At each level that is hashed for a cell of a kind over references, the height over them is not
too large. -/
def DepthsFit (kind : Kind) (refs : List Cell) : Prop :=
  ∀ l ∈ ownLevels kind (maskOver kind refs), heightOver refs (l + kind.levelOffset) ≤ maxDepth

/-- A cell that is no pruned branch is hashed at all levels of its mask. -/
lemma depthsFit_of_not_pruned (np : kind.isPruned = false) :
    DepthsFit kind refs ↔ ∀ l, (maskOver kind refs).isSignificant l = true →
      heightOver refs (l + kind.levelOffset) ≤ maxDepth := by
  rw [DepthsFit, ownLevels_of_not_pruned np]
  simp only [LevelMask.mem_levels]

/-- When the kind of a cell is known, it is made exactly if its depths fit. -/
theorem finalize_of_kind (bits : Bits) (exotic : Bool) (few : refs.length ≤ maxRefs)
    (known : (if exotic then Kind.parse bits refs else pure .ordinary) = .ok kind) :
    (DepthsFit kind refs → ∃ c, finalize bits refs exotic = .ok c ∧ c.kind = kind) ∧
      (¬ DepthsFit kind refs → finalize bits refs exotic = .error .depthOverflow) := by
  have parts : finalize bits refs exotic = do
      let own ← fingerprintsAt kind bits refs (maskOver kind refs)
        (ownLevels kind (maskOver kind refs)) none
      return mk kind bits refs (maskOver kind refs) own := by
    rw [finalize, if_neg (Nat.not_lt.2 few)]
    cases exotic with
    | true =>
      rw [if_pos rfl] at known
      rw [known]
      rfl
    | false =>
      cases known
      rfl
  constructor
  · intro fit
    obtain ⟨own, run⟩ := exists_fingerprintsAt_of_heights fit
    rw [parts, run]
    exact ⟨_, rfl, rfl⟩
  · intro high
    rw [DepthsFit] at high
    push Not at high
    rw [parts, fingerprintsAt_of_height high]
    rfl

/-- The depths of a cell that is made fit. -/
lemma depthsFit_of_finalize (exotic : Bool) {c : Cell} (few : refs.length ≤ maxRefs)
    (known : (if exotic then Kind.parse bits refs else pure .ordinary) = .ok kind)
    (made : finalize bits refs exotic = .ok c) : DepthsFit kind refs := by
  by_contra high
  cases made.symm.trans ((finalize_of_kind bits exotic few known).2 high)

/-- The depth of a cell that is no pruned branch is the height over its references, one level higher
for a Merkle cell. -/
theorem WellFormed.depthAt_eq {c : Cell} (wf : c.WellFormed) (np : c.kind.isPruned = false)
    (l : Nat) : (c.depthAt l).toNat = heightOver c.refs (l + c.kind.levelOffset) := by
  have significant (l : Nat) (sig : c.mask.isSignificant l = true) :
      (c.depthAt l).toNat = heightOver c.refs (l + c.kind.levelOffset) := by
    have own : l ∈ ownLevels c.kind c.mask := by
      rw [ownLevels_of_not_pruned np]
      exact LevelMask.mem_levels.2 sig
    exact toNat_of_depthOver (wf.fingerprint_of_mem own).2
  induction l with
  | zero => exact significant 0 rfl
  | succ l ih =>
    cases sig : c.mask.isSignificant (l + 1) with
    | true => exact significant (l + 1) sig
    | false =>
      -- the references do not have this level either
      have same : ∀ r ∈ c.refs, r.depthAt (l + 1 + c.kind.levelOffset) =
          r.depthAt (l + c.kind.levelOffset) := by
        intro r ref
        rw [LevelMask.isSignificant_succ, wf.getLsbD_mask np, List.any_eq_false] at sig
        have none := sig _ (List.mem_map_of_mem ref)
        rw [id_eq, Bool.not_eq_true] at none
        rw [Nat.add_right_comm, depthAt, depthAt, fingerprint_succ none]
      rw [heightOver_congr same, ← ih, depthAt, depthAt, fingerprint_succ sig]

/-- An ordinary cell has the levels of its references, and the height over them as its depth. -/
lemma WellFormed.of_ordinary {c : Cell} (wf : c.WellFormed) (ordinary : c.isExotic = false) :
    c.mask = maskOver .ordinary c.refs ∧ ∀ l, (c.depthAt l).toNat = heightOver c.refs l := by
  have kind := Kind.isExotic_eq_false.1 ordinary
  constructor
  · rw [wf.mask_eq, kind]
  · intro l
    rw [wf.depthAt_eq (by rw [kind]; rfl), kind]
    rfl

end Finalize

section Paths

/-- The lengths of the paths of references from a cell. -/
def pathLengths (c : Cell) : Set Nat :=
  {n | ∃ cells p, Path c cells p ∧ cells.length = n + 1}

/-- The lengths of the paths from a cell over these references: none is taken, or one and then a path
from there. -/
def pathLengthsOver (refs : List Cell) : Set Nat :=
  {n | n = 0 ∨ ∃ r ∈ refs, ∃ m ∈ r.pathLengths, n = m + 1}

/-- A tree of ordinary cells and library references. -/
def Plain (c : Cell) : Prop :=
  ∀ s ∈ c.subcells, s.kind = .ordinary ∨ ∃ hash, s.kind = .library hash

variable {refs : List Cell} {c : Cell} {l : Nat}

/-- A path is not empty. -/
lemma Path.length_pos {p : Cell} {cells : List Cell} (path : Path c cells p) :
    0 < cells.length := by
  cases path with
  | here => exact Nat.one_pos
  | ref => exact Nat.succ_pos _

/-- The paths of a cell lead over its references. -/
lemma pathLengths_eq (c : Cell) : c.pathLengths = pathLengthsOver c.refs := by
  ext n
  constructor
  · intro mem
    obtain ⟨_, p, path, len⟩ := mem
    cases path with
    | here => exact Or.inl (Nat.succ.inj len).symm
    | @ref _ r _ cells ref path =>
      obtain ⟨m, rest⟩ := Nat.exists_eq_add_one.2 path.length_pos
      rw [List.length_cons, rest] at len
      exact Or.inr ⟨r, ref, m, ⟨cells, p, path, rest⟩, (Nat.succ.inj len).symm⟩
  · intro mem
    cases mem with
    | inl none => exact ⟨[c], c, .here, by rw [none]; rfl⟩
    | inr some =>
      obtain ⟨r, ref, m, ⟨cells, p, path, len⟩, e⟩ := some
      exact ⟨c :: cells, p, .ref ref path, by rw [List.length_cons, len, e]⟩

/-- The height over references is the length of the longest path, if their depths are. -/
lemma isGreatest_heightOver (each : ∀ r ∈ refs, IsGreatest r.pathLengths (r.depthAt l).toNat) :
    IsGreatest (pathLengthsOver refs) (heightOver refs l) := by
  constructor
  · cases heightOver_eq_zero_or refs l with
    | inl none => exact Or.inl none
    | inr some =>
      obtain ⟨r, ref, e⟩ := some
      exact Or.inr ⟨r, ref, _, (each r ref).1, e⟩
  · intro n mem
    cases mem with
    | inl none =>
      rw [none]
      exact Nat.zero_le _
    | inr some =>
      obtain ⟨r, ref, m, path, rfl⟩ := some
      have le : m ≤ (r.depthAt l).toNat := (each r ref).2 path
      exact Nat.lt_of_le_of_lt le (heightOver_le.1 (Nat.le_refl _) r ref)

/-- In a tree of ordinary cells and library references the depth at any level is the length of the
longest path. -/
lemma Built.isGreatest_depthAt (built : c.Built) (plain : c.Plain) (l : Nat) :
    IsGreatest c.pathLengths (c.depthAt l).toNat := by
  induction c using Cell.induction with
  | step c ih =>
    have kind : c.kind.isPruned = false ∧ c.kind.levelOffset = 0 := by
      cases plain c (self_mem_subcells c) with
      | inl ordinary => exact ordinary ▸ ⟨rfl, rfl⟩
      | inr library =>
        obtain ⟨hash, e⟩ := library
        exact e ▸ ⟨rfl, rfl⟩
    rw [built.wellFormed.depthAt_eq kind.1, kind.2, pathLengths_eq]
    apply isGreatest_heightOver
    intro r ref
    exact ih r ref (built.ref r ref) fun s mem => plain s (mem_subcells_of_ref ref mem)

/-- Over trees of ordinary cells and library references an ordinary cell is made exactly if its
longest path of references is not too long. Its depth at each level is the length of this path. -/
theorem finalize_depth (bits : Bits) (few : refs.length ≤ 4) (built : ∀ r ∈ refs, r.Built)
    (plain : ∀ r ∈ refs, r.Plain) :
    ∃ n, IsGreatest (pathLengthsOver refs) n ∧
      (n ≤ 65535 → ∃ c, finalize bits refs false = .ok c ∧ c.pathLengths = pathLengthsOver refs ∧
        c.depth.toNat = n ∧ ∀ l, (c.depthAt l).toNat = n) ∧
      (65535 < n → finalize bits refs false = .error .depthOverflow) := by
  have greatest (l : Nat) : IsGreatest (pathLengthsOver refs) (heightOver refs l) :=
    isGreatest_heightOver fun r ref => (built r ref).isGreatest_depthAt (plain r ref) l
  have same (l : Nat) : heightOver refs l = heightOver refs 0 := (greatest l).unique (greatest 0)
  have fit : DepthsFit .ordinary refs ↔ heightOver refs 0 ≤ maxDepth := by
    rw [depthsFit_of_not_pruned rfl]
    constructor
    · intro fit
      exact fit 0 rfl
    · intro le l _
      rw [same]
      exact le
  obtain ⟨made, fails⟩ := finalize_of_kind bits false few rfl
  refine ⟨heightOver refs 0, greatest 0, fun le => ?_, fun lt => ?_⟩
  · obtain ⟨c, run, kind⟩ := made (fit.2 le)
    obtain ⟨_, refs_eq, _, wf⟩ := finalize_eq_ok.1 run
    have depth (l : Nat) : (c.depthAt l).toNat = heightOver refs 0 := by
      rw [wf.depthAt_eq (by rw [kind]; rfl), kind, refs_eq]
      exact same l
    exact ⟨c, run, by rw [pathLengths_eq, refs_eq], depth maxLevel, depth⟩
  · exact fails fun h => Nat.not_le.2 lt (fit.1 h)

/-- A cell over a library reference and a cell above it: the longer path counts. -/
theorem finalize_depth_library :
    ∃ lib tree c, Cell.library default = .ok lib ∧ finalize .empty [lib] false = .ok tree ∧
      [tree, lib].length ≤ 4 ∧ (∀ r ∈ [tree, lib], r.Built) ∧ (∀ r ∈ [tree, lib], r.Plain) ∧
      finalize .empty [tree, lib] false = .ok c ∧ IsGreatest c.pathLengths 2 ∧
      ∀ l, (c.depthAt l).toNat = 2 := by
  have run : (do
      let lib ← Cell.library default
      let tree ← finalize .empty [lib] false
      let c ← finalize .empty [tree, lib] false
      return (lib.subcells.map kind, tree.subcells.map kind, c.depth)) =
        .ok ([.library default], [.ordinary, .library default], 2) := by decide +kernel
  simp only [Outcome.bind_eq_ok, Outcome.pure_eq_ok, Prod.mk.injEq] at run
  obtain ⟨lib, el, tree, et, c, ec, below, below', depth⟩ := run
  have bl : lib.Built := .ofKind (List.forall_mem_nil _) el
  have bt : tree.Built := .finalize (List.forall_mem_singleton.2 bl) et
  have built : ∀ r ∈ [tree, lib], r.Built := by simp [bl, bt]
  have plain : ∀ r ∈ [tree, lib], r.Plain := by
    have kinds {r s : Cell} (mem : s ∈ r.subcells) : s.kind ∈ r.subcells.map kind :=
      List.mem_map_of_mem mem
    refine List.forall_mem_cons.2 ⟨fun s mem => ?_, List.forall_mem_singleton.2 fun s mem => ?_⟩
    · have at' := kinds mem
      rw [below', List.mem_cons, List.mem_singleton] at at'
      exact at'.imp_right fun library => ⟨default, library⟩
    · have at' := kinds mem
      rw [below, List.mem_singleton] at at'
      exact Or.inr ⟨default, at'⟩
  have few : [tree, lib].length ≤ 4 := Nat.le_of_ble_eq_true rfl
  obtain ⟨n, greatest, made, fails⟩ := finalize_depth .empty few built plain
  cases Nat.lt_or_ge 65535 n with
  | inl lt => cases ec.symm.trans (fails lt)
  | inr le =>
    obtain ⟨c', ec', paths, depth', depths⟩ := made le
    cases ec.symm.trans ec'
    have two : n = 2 := by rw [← depth', depth]; rfl
    subst two
    exact ⟨lib, tree, c, el, et, few, built, plain, ec, paths ▸ greatest, depths⟩

end Paths

end CellBag.Cell
