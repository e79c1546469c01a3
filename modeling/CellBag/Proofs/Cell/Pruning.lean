import CellBag.Proofs.Cell.Fingerprint

/-!
# Pruning

`Pruning d c c'` says that `c'` is `c` with some subtrees cut off at Merkle depth `d`: cells are
replaced by pruned branches, and the cells above them are made again. The levels up to `d` do not
see the difference (`Pruning.agreesUpTo`): hashes and depths are the same there, and so are the
bits of the masks below `d`. A Merkle proof over a pruned tree therefore embeds the hash and the
depth of the tree that was pruned.
-/

namespace CellBag

/-- A tree of cells is pruned at a Merkle depth. Below a Merkle cell the depth is one more. -/
inductive Pruning : Nat → Cell → Cell → Prop where
  | refl {d c} :
    Pruning d c c
  | branch {d c p} :
    c.prunedBranch d = .ok p →
    Pruning d c p
  | node {d c c' refs} :
    refs.length = c.refs.length →
    (∀ e ∈ c.refs.zip refs, Pruning (d + c.kind.levelOffset) e.1 e.2) →
    Cell.finalize c.bits refs c.isExotic = .ok c' →
    Pruning d c c'

/-- Two cells cannot be told apart at the levels up to `d`. -/
structure AgreesUpTo (d : Nat) (c c' : Cell) : Prop where
  fingerprint : ∀ l ≤ d, c'.fingerprint l = c.fingerprint l
  mask : ∀ i < d, c'.mask.bits.getLsbD i = c.mask.bits.getLsbD i

namespace Cell

section Congr
variable {kind : Kind} {refs refs' : List Cell} {l : Nat}

/-- A message depends on the references through their fingerprints at the level below it, and on the
mask through the levels up to its own. -/
lemma message_congr {bits : Bits} {mask mask' : LevelMask} {below : Option Digest}
    (e : refs'.map (·.fingerprint (l + kind.levelOffset)) =
      refs.map (·.fingerprint (l + kind.levelOffset)))
    (em : mask'.apply l = mask.apply l) :
    message kind bits refs' mask' below l = message kind bits refs mask below l := by
  have len : refs'.length = refs.length := by
    have h := congrArg List.length e
    rwa [List.length_map, List.length_map] at h
  have depths := congrArg (List.flatMap fun f => Octets.ofNat 2 f.depth.toNat) e
  have hashes := congrArg (List.flatMap fun f => f.hash.bytes) e
  rw [List.flatMap_map, List.flatMap_map] at depths hashes
  simp only [message, len, em, depthAt, hashAt, depths, hashes]

/-- A kind depends on the references through their fingerprints at level zero. -/
lemma WellFormed.kind_congr {c c' : Cell} (wf : c.WellFormed) (wf' : c'.WellFormed)
    (bits : c'.bits = c.bits) (exotic : c'.isExotic = c.isExotic)
    (e : c'.refs.map (·.fingerprint 0) = c.refs.map (·.fingerprint 0)) : c'.kind = c.kind := by
  cases ex : c.isExotic with
  | true =>
    obtain ⟨layout, fits⟩ := wf'.kind_eq (exotic.trans ex)
    rw [bits, e] at *
    exact Except.ok.inj
      ((Kind.parse_eq_ok.2 ⟨layout, fits⟩).symm.trans (Kind.parse_eq_ok.2 (wf.kind_eq ex)))
  | false =>
    rw [Kind.isExotic_eq_false.1 (exotic.trans ex), Kind.isExotic_eq_false.1 ex]

end Congr

/-- The fingerprint of a significant level stands where this level stands, and a level that is not
significant has the fingerprint of one that is. -/
lemma exists_level (c : Cell) (l : Nat) :
    ∃ k, c.mask.levels[c.mask.hashIndex l]? = some k ∧ c.fingerprint k = c.fingerprint l := by
  induction l with
  | zero =>
    exact ⟨0, LevelMask.getElem?_levels rfl, rfl⟩
  | succ l ih =>
    cases sig : c.mask.isSignificant (l + 1) with
    | true => exact ⟨l + 1, LevelMask.getElem?_levels sig, rfl⟩
    | false =>
      obtain ⟨k, e, ef⟩ := ih
      refine ⟨k, ?_, ef.trans (fingerprint_succ sig).symm⟩
      rw [LevelMask.hashIndex_succ, sig]
      exact e

/-- A pruned branch answers for the levels up to its Merkle depth as the cell that it stands in
for. -/
lemma agreesUpTo_prunedBranch {c p : Cell} {d : Nat} (e : c.prunedBranch d = .ok p) :
    AgreesUpTo d c p := by
  obtain ⟨d3, lt, kind, _, _, wf⟩ := prunedBranch_eq_ok.1 e
  have mask := wf.mask_eq
  rw [kind, maskOver] at mask
  refine ⟨fun l le => ?_, fun i lt' => ?_⟩
  · obtain ⟨k, ek, ef⟩ := c.exists_level l
    rw [Cell.fingerprint, kind, mask, LevelMask.hashIndex_withLevel d3 lt le]
    simp only [List.getD_eq_getElem?_getD, List.getElem?_map, ek, Option.map_some, Option.getD_some]
    exact ef
  · rw [mask]
    exact LevelMask.getLsbD_withLevel d3 lt lt'

/-- Two well formed cells with the same data over references that agree up to a level agree up to it
themselves. -/
lemma WellFormed.agreesUpTo {c c' : Cell} {d : Nat} (wf : c.WellFormed) (wf' : c'.WellFormed)
    (bits : c'.bits = c.bits) (exotic : c'.isExotic = c.isExotic)
    (np : c.kind.isPruned = false)
    (fps : ∀ l ≤ d + c.kind.levelOffset,
      c'.refs.map (·.fingerprint l) = c.refs.map (·.fingerprint l))
    (masks : ∀ i < d + c.kind.levelOffset,
      c'.refs.map (·.mask.bits.getLsbD i) = c.refs.map (·.mask.bits.getLsbD i)) :
    AgreesUpTo d c c' := by
  have kind := wf.kind_congr wf' bits exotic (fps 0 (Nat.zero_le _))
  have np' : c'.kind.isPruned = false := by rw [kind, np]
  have mask : ∀ i < d, c'.mask.bits.getLsbD i = c.mask.bits.getLsbD i := by
    intro i lt
    rw [wf.getLsbD_mask np, wf'.getLsbD_mask np', kind, masks _ (by omega)]
  have apply (l : Nat) (le : l ≤ d) : c'.mask.apply l = c.mask.apply l := by
    apply LevelMask.ext_of_isSignificant
    intro k
    rw [LevelMask.isSignificant_apply, LevelMask.isSignificant_apply]
    by_cases lt : k < l
    · rw [LevelMask.isSignificant_succ, LevelMask.isSignificant_succ, mask k (by omega)]
    · rw [decide_eq_false lt, Bool.false_and, Bool.false_and]
  -- at a significant level the message is the same, and so are the depths that the depth stands over
  have own (l : Nat) (le : l ≤ d) (sig : c.mask.isSignificant l = true)
      (sig' : c'.mask.isSignificant l = true)
      (below : l ≠ 0 → c'.hashAt (l - 1) = c.hashAt (l - 1)) :
      c'.fingerprint l = c.fingerprint l := by
    obtain ⟨hash, depth⟩ := wf.fingerprint_of_mem (l := l)
      (by rw [ownLevels_of_not_pruned np]; exact LevelMask.mem_levels.2 sig)
    obtain ⟨hash', depth'⟩ := wf'.fingerprint_of_mem (l := l)
      (by rw [ownLevels_of_not_pruned np']; exact LevelMask.mem_levels.2 sig')
    have e := fps (l + c.kind.levelOffset) (by omega)
    have depths := congrArg (List.map Fingerprint.depth) e
    rw [List.map_map, List.map_map] at depths
    have em : c'.messageAt l = c.messageAt l := by
      rw [messageAt, messageAt, bits, kind, message_congr e (apply l le)]
      cases l with
      | zero => rfl
      | succ l => rw [below (Nat.succ_ne_zero l)]
    rw [kind, depthOver_congr depths, depth] at depth'
    rw [em, ← hash] at hash'
    exact Fingerprint.ext hash' (Except.ok.inj depth').symm
  refine ⟨fun l => ?_, mask⟩
  induction l with
  | zero => exact fun le => own 0 le rfl rfl fun ne => absurd rfl ne
  | succ l ih =>
    intro le
    have lower := ih (by omega)
    have same : c'.mask.isSignificant (l + 1) = c.mask.isSignificant (l + 1) := mask l (by omega)
    cases sig : c.mask.isSignificant (l + 1) with
    | true =>
      exact own (l + 1) le sig (same.trans sig) fun _ => congrArg Fingerprint.hash lower
    | false =>
      rw [fingerprint_succ sig, fingerprint_succ (same.trans sig), lower]

end Cell

/-- Lists have equal images if their items have them pair by pair. -/
lemma map_eq_of_zip {α β : Type} {f : α → β} {xs ys : List α} (len : ys.length = xs.length)
    (h : ∀ e ∈ xs.zip ys, f e.2 = f e.1) : ys.map f = xs.map f := by
  induction xs generalizing ys with
  | nil =>
    rw [List.length_eq_zero_iff.1 len]
  | cons x xs ih =>
    cases ys with
    | nil => cases len
    | cons y ys =>
      rw [List.map_cons, List.map_cons, h (x, y) List.mem_cons_self,
        ih (Nat.succ.inj len) fun e mem => h e (List.mem_cons_of_mem _ mem)]

/-- A pruned tree agrees with the tree that was pruned up to the Merkle depth. -/
lemma Pruning.agreesUpTo {d : Nat} {c c' : Cell} (p : Pruning d c c') (b : c.Built) :
    AgreesUpTo d c c' := by
  induction p with
  | refl => exact ⟨fun _ _ => rfl, fun _ _ => rfl⟩
  | branch e => exact Cell.agreesUpTo_prunedBranch e
  | @node d c c' refs len _ e ih =>
    have agree : ∀ e ∈ c.refs.zip refs, AgreesUpTo (d + c.kind.levelOffset) e.1 e.2 :=
      fun e mem => ih e mem (b.ref e.1 (List.of_mem_zip mem).1)
    cases np : c.kind.isPruned with
    | true =>
      -- there is nothing below a pruned branch, so that it is made again as it was
      obtain ⟨_, _, _, _, none⟩ := b.wellFormed.pruned np
      rw [none] at len
      have self := b.finalize_self
      rw [none] at self
      rw [List.length_eq_zero_iff.1 len, self] at e
      cases e
      exact ⟨fun _ _ => rfl, fun _ _ => rfl⟩
    | false =>
      obtain ⟨bits, rfl, exotic, wf⟩ := Cell.finalize_eq_ok.1 e
      refine b.wellFormed.agreesUpTo wf bits exotic np ?_ ?_
      · exact fun l le => map_eq_of_zip len fun e mem => (agree e mem).fingerprint l le
      · exact fun i lt => map_eq_of_zip len fun e mem => (agree e mem).mask i lt

/-- Pruning keeps the hashes and depths at the levels up to its Merkle depth and the bits of the
mask below it. What a Merkle proof or a Merkle update over pruned trees of level zero embeds are
the hashes and depths of the trees that were pruned. -/
theorem pruning_keeps_fingerprints :
    (∀ {d : Nat} {c c' : Cell}, c.Built → Pruning d c c' →
      (∀ l ≤ d, c'.hashAt l = c.hashAt l ∧ c'.depthAt l = c.depthAt l) ∧
      ∀ i < d, c'.mask.bits.getLsbD i = c.mask.bits.getLsbD i) ∧
    (∀ {c c' p : Cell}, c.Built → c.level = 0 → Pruning 0 c c' → c'.merkleProof = .ok p →
      p.kind = .merkleProof ⟨c.hash, c.depth⟩ ∧ p.bits.toList = p.kind.layout) ∧
    ∀ {old old' new new' u : Cell}, old.Built → old.level = 0 → Pruning 0 old old' →
      new.Built → new.level = 0 → Pruning 0 new new' → old'.merkleUpdate new' = .ok u →
      u.kind = .merkleUpdate ⟨old.hash, old.depth⟩ ⟨new.hash, new.depth⟩ ∧
      u.bits.toList = u.kind.layout := by
  have zero {c c' : Cell} (b : c.Built) (level : c.level = 0) (p : Pruning 0 c c') :
      c'.fingerprint 0 = ⟨c.hash, c.depth⟩ := by
    rw [(p.agreesUpTo b).fingerprint 0 (Nat.le_refl 0), Cell.fingerprint_of_level level]
  refine ⟨fun b p => ?_, fun b level p e => ?_, fun bo lo po bn ln pn e => ?_⟩
  · have agree := p.agreesUpTo b
    refine ⟨fun l le => ?_, agree.mask⟩
    exact ⟨congrArg Fingerprint.hash (agree.fingerprint l le),
      congrArg Fingerprint.depth (agree.fingerprint l le)⟩
  · obtain ⟨kind, layout, _⟩ := Cell.merkleProof_eq_ok.1 e
    exact ⟨by rw [kind, zero b level p], layout⟩
  · obtain ⟨kind, layout, _⟩ := Cell.merkleUpdate_eq_ok.1 e
    exact ⟨by rw [kind, zero bo lo po, zero bn ln pn], layout⟩

/-- A tree whose only leaf is pruned, and Merkle cells over it. -/
theorem pruning_keeps_fingerprints_leaf :
    ∃ leaf tree branch tree' proof update,
      Cell.leaf [0xA0] 3 = .ok leaf ∧ Cell.finalize .empty [leaf] false = .ok tree ∧
      leaf.prunedBranch 0 = .ok branch ∧ Cell.finalize .empty [branch] false = .ok tree' ∧
      tree'.merkleProof = .ok proof ∧ tree.merkleUpdate tree' = .ok update ∧
      tree.Built ∧ tree.level = 0 ∧ Pruning 0 tree tree' ∧
      tree'.hashAt 0 = tree.hashAt 0 ∧ tree'.depthAt 0 = tree.depthAt 0 ∧
      proof.kind = .merkleProof ⟨tree.hash, tree.depth⟩ ∧
      update.kind = .merkleUpdate ⟨tree.hash, tree.depth⟩ ⟨tree.hash, tree.depth⟩ := by
  have run : (do
      let leaf ← Cell.leaf [0xA0] 3
      let tree ← Cell.finalize .empty [leaf] false
      let branch ← leaf.prunedBranch 0
      let tree' ← Cell.finalize .empty [branch] false
      let _ ← tree'.merkleProof
      let _ ← tree.merkleUpdate tree'
      return tree.level) = .ok 0 := by decide +kernel
  simp only [Outcome.bind_eq_ok, Outcome.pure_eq_ok] at run
  obtain ⟨leaf, el, tree, et, branch, eb, tree', et', proof, ep, update, eu, level⟩ := run
  have built : tree.Built := .finalize (List.forall_mem_singleton.2 (.leaf el)) et
  obtain ⟨bits, refs, exotic, wf⟩ := Cell.finalize_eq_ok.1 et
  have again : Cell.finalize tree.bits [branch] tree.isExotic = .ok tree' := by
    rw [bits, exotic]
    exact et'
  have pruning : Pruning 0 tree tree' := by
    refine .node (by rw [refs]; rfl) ?_ again
    rw [refs, Kind.isExotic_eq_false.1 exotic]
    exact List.forall_mem_singleton.2 (.branch eb)
  obtain ⟨keeps, inProof, inUpdate⟩ := pruning_keeps_fingerprints
  obtain ⟨hash, depth⟩ := (keeps built pruning).1 0 (Nat.le_refl 0)
  exact ⟨leaf, tree, branch, tree', proof, update, el, et, eb, et', ep, eu, built, level, pruning,
    hash, depth, (inProof built level pruning ep).1,
    (inUpdate built level .refl built level pruning eu).1⟩

end CellBag
