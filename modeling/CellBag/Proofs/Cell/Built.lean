import CellBag.Cell.Construct
import CellBag.Proofs.Cell.Layout

/-!
# Built cells

A cell is `WellFormed` when it is what `finalize` makes of its parts (`Cell.finalize_eq_ok`), and
`Built` when the cells below it are so too. The constructors of exotic cells make a cell exactly
when `finalize` makes one of the kind that they lay out (`Cell.ofKind_eq_ok`).
-/

namespace CellBag

/-- The only kind that is not exotic is the ordinary one. -/
lemma Kind.isExotic_eq_false {k : Kind} : k.isExotic = false ↔ k = .ordinary := by
  cases k <;> simp [isExotic]

/-- A kind that fits to a layout is exotic. -/
lemma Kind.Fits.isExotic {k : Kind} {refs : List Fingerprint} (fits : k.Fits refs) :
    k.isExotic = true := by
  cases k with
  | ordinary => exact fits.elim
  | _ => rfl

/-- An exotic cell has room for a hash behind its type. -/
lemma Kind.Fits.lt_length_layout {k : Kind} {refs : List Fingerprint} (fits : k.Fits refs) :
    256 < k.layout.length := by
  cases k with
  | ordinary => exact fits.elim
  | pruned mask stored =>
    have some : stored.length ≠ 0 := by
      rw [fits.2.1, ne_eq, LevelMask.level_eq_zero]
      exact fits.1
    simp only [layout, List.length_append, Binary.length_ofNat, length_flatMap_hash]
    omega
  | library hash =>
    simp only [layout, List.length_append, Binary.length_ofNat, Digest.length_bits]
    omega
  | merkleProof root =>
    simp only [layout, List.length_append, Binary.length_ofNat, Digest.length_bits]
    omega
  | merkleUpdate old new =>
    simp only [layout, List.length_append, Binary.length_ofNat, Digest.length_bits]
    omega

namespace Cell

/-- What `finalize` sees to: few references, a kind that the bits say and that fits the references,
and the mask and the fingerprints that follow from these. -/
structure WellFormed (c : Cell) : Prop where
  refs_le : c.refs.length ≤ maxRefs
  kind_eq : c.isExotic = true →
    c.bits.toList = c.kind.layout ∧ c.kind.Fits (c.refs.map (·.fingerprint 0))
  mask_eq : c.mask = maskOver c.kind c.refs
  own_eq : fingerprintsAt c.kind c.bits c.refs c.mask (ownLevels c.kind c.mask) none = .ok c.own

/-- The well formed cells are those that are made of their own parts. -/
theorem finalize_eq_ok {bits : Bits} {refs : List Cell} {exotic : Bool} {c : Cell} :
    finalize bits refs exotic = .ok c ↔
      c.bits = bits ∧ c.refs = refs ∧ c.isExotic = exotic ∧ c.WellFormed := by
  have kinds (k : Kind) : (if exotic then Kind.parse bits refs else pure .ordinary) = .ok k ↔
      k.isExotic = exotic ∧ (k.isExotic = true →
        bits.toList = k.layout ∧ k.Fits (refs.map (·.fingerprint 0))) := by
    cases exotic with
    | true =>
      rw [if_pos rfl, Kind.parse_eq_ok]
      exact ⟨fun h => ⟨h.2.isExotic, fun _ => h⟩, fun h => h.2 h.1⟩
    | false =>
      rw [if_neg Bool.false_ne_true, Outcome.pure_eq_ok, Kind.isExotic_eq_false]
      refine ⟨?_, fun h => h.1.symm⟩
      rintro rfl
      exact ⟨rfl, by rintro ⟨⟩⟩
  have steps : finalize bits refs exotic = .ok c ↔ ¬ maxRefs < refs.length ∧ ∃ k,
      (if exotic then Kind.parse bits refs else pure .ordinary) = .ok k ∧ ∃ own,
      fingerprintsAt k bits refs (maskOver k refs) (ownLevels k (maskOver k refs)) none = .ok own ∧
      mk k bits refs (maskOver k refs) own = c := by
    rw [finalize]
    cases exotic <;>
      simp only [Outcome.bind_eq_ok, Outcome.throw_bind, Outcome.guard_eq_ok, Outcome.pure_eq_ok,
        if_true, Bool.false_eq_true, if_false]
  rw [steps]
  constructor
  · rintro ⟨few, k, ek, own, eo, rfl⟩
    obtain ⟨ex, fits⟩ := (kinds k).1 ek
    exact ⟨rfl, rfl, ex, Nat.not_lt.1 few, fits, rfl, eo⟩
  · rintro ⟨rfl, rfl, ex, wf⟩
    refine ⟨Nat.not_lt.2 wf.refs_le, c.kind, (kinds c.kind).2 ⟨ex, wf.kind_eq⟩, c.own, ?_, ?_⟩
    · rw [← wf.mask_eq]
      exact wf.own_eq
    · rw [← wf.mask_eq]
      cases c
      rfl

/-- Well formed cells are the same when they are made of the same parts. -/
lemma WellFormed.ext {a b : Cell} (wa : a.WellFormed) (wb : b.WellFormed) (bits : a.bits = b.bits)
    (refs : a.refs = b.refs) (exotic : a.isExotic = b.isExotic) : a = b := by
  have ea := finalize_eq_ok.2 ⟨bits, refs, exotic, wa⟩
  have eb := finalize_eq_ok.2 ⟨rfl, rfl, rfl, wb⟩
  exact Except.ok.inj (ea.symm.trans eb)

/-- The cells that can be made: the empty one, and what `finalize` makes of such cells. -/
inductive Built : Cell → Prop where
  | empty : Built .empty
  | finalize {bits refs exotic c} :
    (∀ r ∈ refs, Built r) →
    Cell.finalize bits refs exotic = .ok c →
    Built c

/-- A well formed pruned branch has the mask that it says, which is not empty, a stored fingerprint
for each of its levels, and no references. -/
lemma WellFormed.pruned {c : Cell} (wf : c.WellFormed) (p : c.kind.isPruned = true) :
    ∃ stored, c.kind = .pruned c.mask stored ∧ c.mask ≠ .empty ∧ stored.length = c.mask.level ∧
      c.refs = [] := by
  have fits := wf.kind_eq
  have em := wf.mask_eq
  rw [isExotic] at fits
  cases e : c.kind with
  | pruned mask stored =>
    rw [e] at fits em
    rw [em]
    obtain ⟨nonempty, len, none⟩ := (fits rfl).2
    exact ⟨stored, rfl, nonempty, len, List.map_eq_nil_iff.1 none⟩
  | _ => rw [e] at p; cases p

/-- A library cell has no references. -/
lemma WellFormed.library {c : Cell} {hash : Digest} (wf : c.WellFormed) (e : c.kind = .library hash) :
    c.refs = [] := by
  have fits := wf.kind_eq
  rw [isExotic, e] at fits
  exact List.map_eq_nil_iff.1 (fits rfl).2

/-- An ordinary cell has the levels of its references. -/
lemma maskOver_ordinary (refs : List Cell) :
    maskOver .ordinary refs = (refs.map mask).foldl LevelMask.union LevelMask.empty := by
  rw [maskOver, List.foldl_map]

/-- The bits of a union of masks are those of any of them. -/
lemma getLsbD_foldl_union (refs : List Cell) (i : Nat) :
    (refs.foldl (fun mask c => mask.union c.mask) LevelMask.empty).bits.getLsbD i =
      (refs.map (·.mask.bits.getLsbD i)).any id := by
  suffices h : ∀ m : LevelMask,
      (refs.foldl (fun mask c => mask.union c.mask) m).bits.getLsbD i =
        (m.bits.getLsbD i || (refs.map (·.mask.bits.getLsbD i)).any id) by
    rw [h, show LevelMask.empty.bits.getLsbD i = false from BitVec.getLsbD_zero, Bool.false_or]
  induction refs with
  | nil => simp
  | cons c refs ih =>
    intro m
    rw [List.foldl_cons, ih, List.map_cons, List.any_cons, ← Bool.or_assoc, LevelMask.union,
      BitVec.getLsbD_or]
    rfl

/-- A cell that is no pruned branch has the levels of its references, one higher below a Merkle
cell. -/
lemma WellFormed.getLsbD_mask {c : Cell} (wf : c.WellFormed) (np : c.kind.isPruned = false)
    (i : Nat) :
    c.mask.bits.getLsbD i =
      (c.refs.map (·.mask.bits.getLsbD (i + c.kind.levelOffset))).any id := by
  rw [wf.mask_eq]
  cases e : c.kind with
  | ordinary => exact getLsbD_foldl_union c.refs i
  | pruned => rw [e] at np; cases np
  | library =>
    rw [wf.library e]
    exact BitVec.getLsbD_zero
  | merkleProof | merkleUpdate =>
    simp only [maskOver, LevelMask.virtualize, BitVec.getLsbD_ushiftRight]
    rw [Nat.add_comm]
    exact getLsbD_foldl_union c.refs (i + 1)

/-- The empty cell is made of no bits and no references. -/
lemma finalize_empty : finalize .empty [] false = .ok .empty := by
  rw [finalize_eq_ok]
  refine ⟨rfl, rfl, rfl, ?_⟩
  exact ⟨by decide, by rintro ⟨⟩, rfl, rfl⟩

/-- A cell that can be made is well-formed. -/
lemma Built.wellFormed {c : Cell} (b : Built c) : c.WellFormed := by
  cases b with
  | empty => exact (finalize_eq_ok.1 finalize_empty).2.2.2
  | finalize _ e => exact (finalize_eq_ok.1 e).2.2.2

/-- The references of a cell that can be made can be made. -/
lemma Built.ref {c : Cell} (b : Built c) : ∀ r ∈ c.refs, Built r := by
  cases b with
  | empty => rintro _ ⟨⟩
  | finalize sub e =>
    obtain ⟨_, rfl, _⟩ := finalize_eq_ok.1 e
    exact sub

/-- A well formed cell over cells that can be made can be made. -/
lemma WellFormed.built {c : Cell} (wf : c.WellFormed) (sub : ∀ r ∈ c.refs, Built r) : c.Built :=
  .finalize sub (finalize_eq_ok.2 ⟨rfl, rfl, rfl, wf⟩)

/-- A cell that can be made is made again of its parts. -/
lemma Built.finalize_self {c : Cell} (b : Built c) : Cell.finalize c.bits c.refs c.isExotic = .ok c :=
  finalize_eq_ok.2 ⟨rfl, rfl, rfl, b.wellFormed⟩

/-- A depth depends on the references through their depths at the level. -/
lemma depthOver_congr {refs refs' : List Cell} {l : Nat}
    (e : refs'.map (·.depthAt l) = refs.map (·.depthAt l)) : depthOver refs' l = depthOver refs l := by
  have h (cs : List Cell) : depthOver cs l = (cs.map (·.depthAt l)).foldlM deepen 0 := by
    rw [depthOver, List.foldlM_map]
  rw [h, h, e]

/-- Whether there are fingerprints depends on the references through their depths alone. -/
lemma exists_fingerprintsAt {kind : Kind} {bits : Bits} {refs refs' : List Cell} {mask : LevelMask}
    {levels : List Nat} {below : Option Digest} {own : List Fingerprint} (bits' : Bits)
    (below' : Option Digest) (depths : ∀ l, refs'.map (·.depthAt l) = refs.map (·.depthAt l))
    (e : fingerprintsAt kind bits refs mask levels below = .ok own) :
    ∃ own', fingerprintsAt kind bits' refs' mask levels below' = .ok own' := by
  induction levels generalizing below below' own with
  | nil => exact ⟨[], rfl⟩
  | cons level levels ih =>
    simp only [fingerprintsAt, Outcome.bind_eq_ok] at e ⊢
    obtain ⟨depth, ed, rest, er, _⟩ := e
    obtain ⟨own', e'⟩ := ih (some (Digest.of (message kind bits' refs' mask below' level))) er
    exact ⟨_, depth, (depthOver_congr (depths _)).trans ed, own', e', rfl⟩

/-- Over references with the masks and depths of those of an ordinary cell there is one with any
data. -/
lemma WellFormed.exists_ordinary_over {c : Cell} {refs' : List Cell} (wf : c.WellFormed)
    (ordinary : c.isExotic = false) (bits : Bits) (masks : refs'.map mask = c.refs.map mask)
    (depths : ∀ l, refs'.map (·.depthAt l) = c.refs.map (·.depthAt l)) :
    ∃ c' : Cell, c'.bits = bits ∧ c'.refs = refs' ∧ c'.isExotic = false ∧ c'.WellFormed := by
  have kind : c.kind = .ordinary := Kind.isExotic_eq_false.1 ordinary
  have own := wf.own_eq
  have mask := wf.mask_eq
  rw [kind] at own mask
  obtain ⟨own', e⟩ := exists_fingerprintsAt bits none depths own
  refine ⟨Cell.mk .ordinary bits refs' c.mask own', rfl, rfl, rfl, ?_, by rintro ⟨⟩, ?_, e⟩
  · have len := congrArg List.length masks
    rw [List.length_map, List.length_map] at len
    exact len ▸ wf.refs_le
  · show c.mask = maskOver .ordinary refs'
    rw [mask, maskOver_ordinary, maskOver_ordinary, masks]

/-- Over the references of an ordinary cell there is one with any data. -/
lemma WellFormed.exists_ordinary {c : Cell} (wf : c.WellFormed) (ordinary : c.isExotic = false)
    (bits : Bits) :
    ∃ c' : Cell, c'.bits = bits ∧ c'.refs = c.refs ∧ c'.isExotic = false ∧ c'.WellFormed :=
  wf.exists_ordinary_over ordinary bits rfl fun _ => rfl

section OfKind
variable {k : Kind} {refs : List Cell} {c : Cell}

/-- An exotic cell of a kind that fits its references has this kind and its layout. -/
lemma ofKind_eq_ok (fits : k.Fits (refs.map (·.fingerprint 0))) :
    ofKind k refs = .ok c ↔
      c.kind = k ∧ c.bits.toList = k.layout ∧ c.refs = refs ∧ c.WellFormed := by
  rw [ofKind]
  simp only [Outcome.bind_eq_ok, Bits.empty_append, finalize_eq_ok]
  constructor
  · rintro ⟨bits, layout, rfl, rfl, ex, wf⟩
    have e := (Kind.parse_eq_ok.2 (wf.kind_eq ex)).symm.trans (Kind.parse_eq_ok.2 ⟨layout, fits⟩)
    exact ⟨Except.ok.inj e, layout, rfl, wf⟩
  · rintro ⟨rfl, layout, rfl, wf⟩
    exact ⟨c.bits, layout, rfl, rfl, fits.isExotic, wf⟩

/-- A cell that is made by its kind over cells that can be made can be made. -/
lemma Built.ofKind (sub : ∀ r ∈ refs, Built r) (e : Cell.ofKind k refs = .ok c) : Built c := by
  obtain ⟨bits, _, e⟩ := Outcome.bind_eq_ok.1 e
  exact .finalize sub e

end OfKind

/-- A pruned branch for a Merkle depth below three stands in for a cell whose levels are all below
it. It keeps the fingerprints at these levels. -/
lemma prunedBranch_eq_ok {c p : Cell} {d : Nat} :
    prunedBranch c d = .ok p ↔
      d < 3 ∧ c.mask.toByte.toNat < 1 <<< d ∧
      p.kind = .pruned (c.mask.union ⟨1 <<< d⟩) (c.mask.levels.map c.fingerprint) ∧
      p.bits.toList = p.kind.layout ∧ p.refs = [] ∧ p.WellFormed := by
  have levels : (List.range (maxLevel + 1)).filter c.mask.isSignificant = c.mask.levels :=
    c.mask.filter_range_four
  rw [prunedBranch, levels, Outcome.guard_eq_ok, not_or, Nat.not_le, Nat.not_le]
  constructor
  · rintro ⟨⟨d3, lt⟩, e⟩
    have level := LevelMask.level_withLevel d3 lt
    have fits : (Kind.pruned (c.mask.union ⟨1 <<< d⟩) (c.mask.levels.map c.fingerprint)).Fits
        (([] : List Cell).map (·.fingerprint 0)) := by
      refine ⟨fun e => ?_, by rw [List.length_map, LevelMask.length_levels, level], rfl⟩
      rw [LevelMask.level_eq_zero.2 e] at level
      cases level
    obtain ⟨ek, layout, er, wf⟩ := (ofKind_eq_ok fits).1 e
    exact ⟨d3, lt, ek, by rw [ek, layout], er, wf⟩
  · rintro ⟨d3, lt, ek, layout, er, wf⟩
    refine ⟨⟨d3, lt⟩, (ofKind_eq_ok ?_).2 ⟨ek, by rw [layout, ek], er, wf⟩⟩
    rw [← ek, ← er]
    exact (wf.kind_eq (by rw [isExotic, ek]; rfl)).2

/-- A leaf can be made. -/
lemma Built.leaf {bytes : List UInt8} {count : Nat} {c : Cell}
    (e : Cell.leaf bytes count = .ok c) : Built c := by
  obtain ⟨bits, _, e⟩ := Outcome.bind_eq_ok.1 e
  exact .finalize (List.forall_mem_nil _) e

/-- A leaf has no references. -/
lemma refs_of_leaf {bytes : List UInt8} {count : Nat} {c : Cell}
    (e : Cell.leaf bytes count = .ok c) : c.refs = [] := by
  obtain ⟨bits, _, e⟩ := Outcome.bind_eq_ok.1 e
  obtain ⟨_, refs, _⟩ := finalize_eq_ok.1 e
  exact refs

/-- A pruned branch can be made. -/
lemma Built.prunedBranch {c p : Cell} {d : Nat} (e : Cell.prunedBranch c d = .ok p) : Built p := by
  rw [Cell.prunedBranch, Outcome.guard_eq_ok] at e
  exact .ofKind (List.forall_mem_nil _) e.2

/-- A Merkle proof over a cell embeds the fingerprint of the cell at level zero. -/
lemma merkleProof_eq_ok {c p : Cell} :
    merkleProof c = .ok p ↔ p.kind = .merkleProof (c.fingerprint 0) ∧
      p.bits.toList = p.kind.layout ∧ p.refs = [c] ∧ p.WellFormed := by
  have fits : (Kind.merkleProof (c.fingerprint 0)).Fits ([c].map (·.fingerprint 0)) := rfl
  rw [merkleProof, ofKind_eq_ok fits]
  exact and_congr_right fun e => by rw [e]

/-- A Merkle update embeds the fingerprints of both cells at level zero. -/
lemma merkleUpdate_eq_ok {old new u : Cell} :
    merkleUpdate old new = .ok u ↔
      u.kind = .merkleUpdate (old.fingerprint 0) (new.fingerprint 0) ∧
      u.bits.toList = u.kind.layout ∧ u.refs = [old, new] ∧ u.WellFormed := by
  have fits : (Kind.merkleUpdate (old.fingerprint 0) (new.fingerprint 0)).Fits
      ([old, new].map (·.fingerprint 0)) := rfl
  rw [merkleUpdate, ofKind_eq_ok fits]
  exact and_congr_right fun e => by rw [e]

end Cell

end CellBag
