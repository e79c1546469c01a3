import CellBag.Proofs.Bag.Table
import CellBag.Proofs.Cell.Subtree

/-!
# Soundness of Merkle proofs

A tree whose hash at level zero is the representation hash of a tree of ordinary cells agrees with
it outside its pruned branches (`Cell.Built.agreesOutsidePruned`), however it was made: without a
collision the messages of the two roots are the same, and so are the hashes of their references in
pairs. The cell below a Merkle proof is such a tree.
-/

namespace CellBag

namespace Cell

/-- The cell at the end of a path of reference indexes. -/
def follow : Cell → List Nat → Option Cell
  | c, [] => some c
  | c, i :: path => c.refs[i]?.bind fun r => r.follow path

/-- All cells of the tree are ordinary. -/
def AllOrdinary (c : Cell) : Prop :=
  ∀ s ∈ c.subcells, s.kind = .ordinary

instance (c : Cell) : Decidable c.AllOrdinary :=
  inferInstanceAs (Decidable (∀ s ∈ c.subcells, s.kind = .ordinary))

end Cell

/-- The first tree agrees with the second one outside its pruned branches. A path either meets a
pruned branch with the hash of the cell in its place, or it leads nowhere in both trees, or to two
ordinary cells with the same data and as many references. -/
def AgreesOutsidePruned (b c : Cell) : Prop :=
  ∀ path : List Nat,
    (∃ front x y, front <+: path ∧ b.follow front = some x ∧ c.follow front = some y ∧
      x.kind.isPruned = true ∧ x.hashAt 0 = y.hash) ∨
    (b.follow path = none ∧ c.follow path = none) ∨
    ∃ x y, b.follow path = some x ∧ c.follow path = some y ∧
      x.kind = .ordinary ∧ y.kind = .ordinary ∧ x.bits = y.bits ∧ x.refs.length = y.refs.length

namespace AgreesOutsidePruned
variable {b c : Cell}

/-- A pruned branch agrees with a cell whose hash it has. -/
lemma branch (p : b.kind.isPruned = true) (e : b.hashAt 0 = c.hash) : AgreesOutsidePruned b c :=
  fun _ => Or.inl ⟨[], b, c, List.nil_prefix, rfl, rfl, p, e⟩

/-- Ordinary cells with the same data agree when their references do in pairs. -/
lemma node (kb : b.kind = .ordinary) (kc : c.kind = .ordinary) (bits : b.bits = c.bits)
    (len : b.refs.length = c.refs.length)
    (each : ∀ {i : Nat} {x y : Cell}, b.refs[i]? = some x → c.refs[i]? = some y →
      AgreesOutsidePruned x y) :
    AgreesOutsidePruned b c := by
  intro path
  cases path with
  | nil => exact Or.inr (Or.inr ⟨b, c, rfl, rfl, kb, kc, bits, len⟩)
  | cons i path =>
    rcases Nat.lt_or_ge i b.refs.length with lt | ge
    · have eb := List.getElem?_eq_getElem lt
      have ec := List.getElem?_eq_getElem (len ▸ lt)
      simp only [Cell.follow, eb, ec, Option.bind_some]
      rcases each eb ec path with ⟨front, x, y, pre, ex, ey, h⟩ | h
      · refine Or.inl ⟨i :: front, x, y, List.cons_prefix_cons.2 ⟨rfl, pre⟩, ?_, ?_, h⟩
        · simp only [Cell.follow, eb, Option.bind_some, ex]
        · simp only [Cell.follow, ec, Option.bind_some, ey]
      · exact Or.inr h
    · refine Or.inr (Or.inl ⟨?_, ?_⟩)
      · simp only [Cell.follow, List.getElem?_eq_none ge, Option.bind_none]
      · simp only [Cell.follow, List.getElem?_eq_none (len ▸ ge), Option.bind_none]

end AgreesOutsidePruned

namespace Cell

/-- A tree of ordinary cells has no levels. -/
lemma Built.mask_of_allOrdinary {c : Cell} (b : c.Built) (ord : c.AllOrdinary) : c.mask = .empty := by
  induction c using Cell.induction with
  | step c ih =>
    have kind := ord c (self_mem_subcells c)
    apply LevelMask.ext_of_isSignificant
    intro l
    rw [LevelMask.isSignificant_succ, b.wellFormed.getLsbD_mask (by rw [kind]; rfl)]
    refine Eq.trans (List.any_eq_false.2 fun bit mem => ?_) BitVec.getLsbD_zero.symm
    obtain ⟨r, ref, rfl⟩ := List.mem_map.1 mem
    rw [ih r ref (b.ref r ref) fun s mem => ord s (mem_subcells_of_ref ref mem)]
    simp [LevelMask.empty]

/-- A tree of ordinary cells has the same hash at level zero. -/
lemma Built.hash_of_allOrdinary {c : Cell} (b : c.Built) (ord : c.AllOrdinary) :
    c.hash = c.hashAt 0 := by
  have level : c.level = 0 := LevelMask.level_eq_zero.2 (b.mask_of_allOrdinary ord)
  rw [hashAt, fingerprint_of_level level]

/-- A built tree that has the hash of a tree of ordinary cells at level zero agrees with it outside
pruned branches, if there is no collision. -/
theorem Built.agreesOutsidePruned {b c : Cell} (bb : b.Built) (bc : c.Built) (ord : c.AllOrdinary)
    (clean : NoCollision b c) (e : b.hashAt 0 = c.hash) : AgreesOutsidePruned b c := by
  induction c using Cell.induction generalizing b with
  | step c ih =>
    cases p : b.kind.isPruned with
    | true => exact .branch p e
    | false =>
      have wb := bb.wellFormed
      have wc := bc.wellFormed
      have kc := ord c (self_mem_subcells c)
      -- both messages at level zero hold data
      have em : b.messageAt 0 = c.messageAt 0 := by
        refine clean.messageAt_eq wb wc ?_ ?_ (e.trans (bc.hash_of_allOrdinary ord))
        · rw [ownLevels_of_not_pruned p]
          exact LevelMask.mem_levels.2 rfl
        · rw [ownLevels_of_not_pruned (by rw [kc]; rfl)]
          exact LevelMask.mem_levels.2 rfl
      obtain ⟨len, exotic, _⟩ := message_header wb.refs_le wc.refs_le em
      obtain ⟨_, data, fps⟩ := message_inj wb.refs_le wc.refs_le rfl em
      have kb : b.kind = .ordinary := by
        rw [← Kind.isExotic_eq_false, exotic, kc]
        rfl
      refine .node kb kc (data rfl) len fun {i x y} ex ey => ?_
      have mx := List.mem_of_getElem? ex
      have my := List.mem_of_getElem? ey
      have ord' : y.AllOrdinary := fun s mem => ord s (mem_subcells_of_ref my mem)
      have h := congrArg (·[i]?) fps
      rw [kb, kc] at h
      simp only [List.getElem?_map, ex, ey, Option.map_some, Option.some.injEq] at h
      refine ih y my (bb.ref x mx) (bc.ref y my) ord' (clean.subcell ?_ ?_) ?_
      · exact mem_subcells_of_ref mx (self_mem_subcells x)
      · exact mem_subcells_of_ref my (self_mem_subcells y)
      · rw [(bc.ref y my).hash_of_allOrdinary ord']
        exact congrArg Fingerprint.hash h

/-- A Merkle proof is one over a cell with the fingerprint that it stores. -/
lemma WellFormed.refs_of_merkleProof {p : Cell} {root : Fingerprint} (wf : p.WellFormed)
    (kind : p.kind = .merkleProof root) : ∃ b, p.refs = [b] ∧ b.fingerprint 0 = root := by
  have fits := (wf.kind_eq (by rw [isExotic, kind]; rfl)).2
  rw [kind] at fits
  obtain ⟨b, refs, e⟩ := List.map_eq_singleton_iff.1 fits
  exact ⟨b, refs, e⟩

end Cell

/-- A tree that has the hash of a tree `c` of ordinary cells at level zero agrees with `c` outside
its pruned branches, and so does what stands below a Merkle proof that embeds the hash of `c`,
whether the proof was built or decoded. -/
theorem merkleProof_sound {c : Cell} (bc : c.Built) (ord : c.AllOrdinary) :
    (∀ b : Cell, b.Built → NoCollision b c → b.hashAt 0 = c.hash → AgreesOutsidePruned b c) ∧
    ∀ (p : Cell) (root : Fingerprint), p.kind = .merkleProof root → root.hash = c.hash →
      (p.Built ∨ ∃ data limits roots, Bag.decode data limits = .ok roots ∧
        ∃ r ∈ roots, p ∈ r.subcells) →
      ∃ b, p.refs = [b] ∧ (NoCollision b c → AgreesOutsidePruned b c) := by
  have sound (b : Cell) (bb : b.Built) (clean : NoCollision b c) (e : b.hashAt 0 = c.hash) :
      AgreesOutsidePruned b c := bb.agreesOutsidePruned bc ord clean e
  refine ⟨sound, fun p root kind e accepted => ?_⟩
  have bp : p.Built := by
    rcases accepted with bp | ⟨data, limits, roots, decoded, r, mem, sub⟩
    · exact bp
    · exact (Bag.decode_built decoded r mem).subcell sub
  obtain ⟨b, refs, rfl⟩ := bp.wellFormed.refs_of_merkleProof kind
  exact ⟨b, refs, fun clean => sound b (bp.ref b (by rw [refs]; exact List.mem_singleton_self b))
    clean e⟩

/-- A Merkle proof over a tree of which the only leaf is pruned. -/
theorem merkleProof_sound_leaf :
    ∃ leaf tree branch pruned proof,
      Cell.leaf [0xA0] 3 = .ok leaf ∧ Cell.finalize .empty [leaf] false = .ok tree ∧
      leaf.prunedBranch 0 = .ok branch ∧ Cell.finalize .empty [branch] false = .ok pruned ∧
      pruned.merkleProof = .ok proof ∧ NoCollision pruned tree ∧ pruned.hashAt 0 = tree.hash ∧
      AgreesOutsidePruned pruned tree ∧
      ∃ b, proof.refs = [b] ∧ (NoCollision b tree → AgreesOutsidePruned b tree) := by
  have run : (do
      let leaf ← Cell.leaf [0xA0] 3
      let tree ← Cell.finalize .empty [leaf] false
      let branch ← leaf.prunedBranch 0
      let pruned ← Cell.finalize .empty [branch] false
      let _ ← pruned.merkleProof
      return (decide tree.AllOrdinary, decide (NoCollision pruned tree),
        decide (pruned.hashAt 0 = tree.hash))) = .ok (true, true, true) := by decide +kernel
  simp only [Outcome.bind_eq_ok, Outcome.pure_eq_ok, Prod.mk.injEq, decide_eq_true_eq] at run
  obtain ⟨leaf, el, tree, et, branch, eb, pruned, ep, proof, er, ord, clean, e⟩ := run
  have bl := Cell.Built.leaf el
  have bb : branch.Built := Cell.Built.prunedBranch eb
  have bt : tree.Built := .finalize (by simp [bl]) et
  have bp : pruned.Built := .finalize (by simp [bb]) ep
  have br : proof.Built := Cell.Built.ofKind (by simp [bp]) er
  obtain ⟨agrees, inProof⟩ := merkleProof_sound bt ord
  exact ⟨leaf, tree, branch, pruned, proof, el, et, eb, ep, er, clean, e, agrees pruned bp clean e,
    inProof proof (pruned.fingerprint 0) (Cell.merkleProof_eq_ok.1 er).1 e (Or.inl br)⟩

end CellBag
