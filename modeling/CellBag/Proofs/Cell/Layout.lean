import CellBag.Cell.Exotic
import CellBag.Proofs.Bits
import CellBag.Proofs.LevelMask
import CellBag.Proofs.Outcome

/-!
# Layouts and kinds

The bits of an exotic cell and its kind determine each other: `Kind.parse_eq_ok` says that a kind is
read from exactly those bits that are its layout, provided that it fits the references.
-/

namespace CellBag

/-- A digest has 256 bits. -/
@[simp]
lemma Digest.length_bits (d : Digest) : d.bits.length = 256 := by
  rw [bits, Octets.length_unpack, d.length_bytes]

/-- Bytes are those of a digest. -/
lemma Digest.ofBytes?_eq_some {bytes : List UInt8} {d : Digest} :
    ofBytes? bytes = some d ↔ bytes = d.bytes := by
  rw [ofBytes?]
  split
  case isTrue => rw [Option.some.injEq, Digest.ext_iff]
  case isFalse other =>
    apply iff_of_false
    · intro e
      cases e
    · intro same
      exact other (same ▸ d.length_bytes)

/-- A depth takes 16 bits. -/
@[simp]
lemma Fingerprint.length_depthBits (f : Fingerprint) : f.depthBits.length = 16 :=
  Binary.length_ofNat _ _

namespace Kind

/-- A digest is read where its bits stand. -/
lemma readHash_eq_ok {bits : Bits} {offset : Nat} {d : Digest} :
    readHash bits offset = .ok d ↔ bits.range offset 256 = d.bits := by
  rcases Nat.lt_or_ge (bits.length - offset) 256 with lt | le
  · rw [readHash, Bits.bytesAt_of_lt lt]
    refine ⟨by rintro ⟨⟩, fun e => ?_⟩
    have h := Bits.le_of_length_range (by rw [e, Digest.length_bits])
    omega
  · have len : (bits.range offset 256).length = 256 := Bits.length_range le
    have bytes : (Octets.pack (bits.range offset 256)).length = 32 := by
      rw [Octets.length_pack, len]; rfl
    rw [readHash, Bits.bytesAt_of_le (by omega) le]
    simp only [Outcome.ok_bind, Digest.ofBytes?, dif_pos bytes, Outcome.pure_eq_ok]
    constructor
    · rintro rfl
      rw [Digest.bits, Octets.unpack_pack_of_whole (by rw [len])]
    · intro e
      apply Digest.ext
      show Octets.pack (bits.range offset 256) = d.bytes
      rw [e, Digest.bits, Octets.pack_unpack]

/-- A depth is read from the 16 bits that stand for it. -/
lemma readDepth_eq_ok {bits : Bits} {offset : Nat} {depth : UInt16} :
    readDepth bits offset = .ok depth ↔ bits.range offset 16 = Binary.ofNat 16 depth.toNat := by
  rw [readDepth, Outcome.bind_eq_ok]
  constructor
  · rintro ⟨word, e, h⟩
    cases Outcome.pure_eq_ok.1 h
    exact Bits.wordAt_eq_ok.1 e
  · intro e
    exact ⟨depth.toBitVec, Bits.wordAt_eq_ok.2 e, rfl⟩

/-- Fingerprints are read where the bits of their hashes and those of their depths stand. -/
lemma readStored_eq_ok {bits : Bits} {hashes depths count : Nat} {stored : List Fingerprint} :
    readStored bits hashes depths count = .ok stored ↔
      stored.length = count ∧
      bits.range hashes (256 * count) = stored.flatMap (·.hash.bits) ∧
      bits.range depths (16 * count) = stored.flatMap Fingerprint.depthBits := by
  induction count generalizing hashes depths stored with
  | zero =>
    rw [readStored, Outcome.pure_eq_ok]
    constructor
    · rintro rfl
      exact ⟨rfl, by simp [Bits.range], by simp [Bits.range]⟩
    · rintro ⟨len, _⟩
      exact (List.length_eq_zero_iff.1 len).symm
  | succ count ih =>
    rw [readStored, Nat.mul_add_one, Nat.mul_add_one, Nat.add_comm (256 * count),
      Nat.add_comm (16 * count)]
    simp only [Outcome.bind_eq_ok, Outcome.pure_eq_ok, readHash_eq_ok, readDepth_eq_ok, ih]
    constructor
    · rintro ⟨hash, eh, depth, ed, rest, ⟨len, ehs, eds⟩, rfl⟩
      refine ⟨congrArg Nat.succ len, ?_, ?_⟩
      · exact (Bits.range_add_eq_append (Digest.length_bits hash)).2 ⟨eh, ehs⟩
      · exact (Bits.range_add_eq_append (Binary.length_ofNat 16 depth.toNat)).2 ⟨ed, eds⟩
    · rintro ⟨len, ehs, eds⟩
      cases stored with
      | nil => cases len
      | cons f rest =>
        obtain ⟨eh, ehs⟩ := (Bits.range_add_eq_append (Digest.length_bits f.hash)).1 ehs
        obtain ⟨ed, eds⟩ := (Bits.range_add_eq_append f.length_depthBits).1 eds
        exact ⟨f.hash, eh, f.depth, ed, rest, ⟨Nat.succ.inj len, ehs, eds⟩, rfl⟩

/-- What a kind asks of its fields and of the fingerprints of the references at level zero. -/
def Fits : Kind → List Fingerprint → Prop
  | .ordinary, _ => False
  | .pruned mask stored, refs => mask ≠ .empty ∧ stored.length = mask.level ∧ refs = []
  | .library _, refs => refs = []
  | .merkleProof root, refs => refs = [root]
  | .merkleUpdate old new, refs => refs = [old, new]

section Parse
variable {bits : Bits} {refs : List Cell} {k : Kind}

/-- Hashes take 256 bits each. -/
lemma length_flatMap_hash (stored : List Fingerprint) :
    (stored.flatMap (·.hash.bits)).length = 256 * stored.length := by
  induction stored with
  | nil => rfl
  | cons f rest ih => rw [List.flatMap_cons, List.length_append, ih, Digest.length_bits,
      List.length_cons]; omega

/-- Depths take 16 bits each. -/
lemma length_flatMap_depth (stored : List Fingerprint) :
    (stored.flatMap Fingerprint.depthBits).length = 16 * stored.length := by
  induction stored with
  | nil => rfl
  | cons f rest ih => rw [List.flatMap_cons, List.length_append, ih, Fingerprint.length_depthBits,
      List.length_cons]; omega

/-- The parts of the layout of a pruned branch. -/
lemma toList_eq_layout_pruned {mask : LevelMask} {stored : List Fingerprint}
    (len : stored.length = mask.level) :
    bits.toList = (pruned mask stored).layout ↔
      bits.length = 16 + 272 * mask.level ∧ bits.range 0 8 = Binary.ofNat 8 1 ∧
      bits.range 8 8 = Binary.ofNat 8 mask.toByte.toNat ∧
      bits.range 16 (256 * mask.level) = stored.flatMap (·.hash.bits) ∧
      bits.range (16 + 256 * mask.level) (16 * mask.level) =
        stored.flatMap Fingerprint.depthBits := by
  have hashes := length_flatMap_hash stored
  have depths := length_flatMap_depth stored
  rw [len] at hashes depths
  have e : 16 + 272 * mask.level = 8 + (8 + (256 * mask.level + 16 * mask.level)) := by omega
  simp only [layout, typeByte, List.append_assoc]
  rw [Bits.toList_eq (n := 16 + 272 * mask.level)
      (by simp only [List.length_append, hashes, depths, Binary.length_ofNat]; omega), e,
    Bits.range_add_eq_append (Binary.length_ofNat _ _),
    Bits.range_add_eq_append (Binary.length_ofNat _ _), Bits.range_add_eq_append hashes]

/-- A pruned branch is read from its layout. -/
lemma parsePruned_eq_ok (type : bits.range 0 8 = Binary.ofNat 8 1) :
    parsePruned bits refs = .ok k ↔
      ∃ mask stored, k = .pruned mask stored ∧ bits.toList = k.layout ∧
        k.Fits (refs.map (·.fingerprint 0)) := by
  rw [parsePruned]
  simp only [Outcome.bind_eq_ok, Outcome.throw_bind, Outcome.guard_eq_ok, Bits.wordAt_eq_ok,
    readStored_eq_ok, Outcome.pure_eq_ok, List.isEmpty_iff]
  constructor
  · rintro ⟨word, ew, proper, whole, stored, ⟨len, hashes, depths⟩, rfl⟩
    generalize LevelMask.ofByte ⟨word⟩ = mask at *
    rw [not_or, not_not] at proper whole
    rw [not_not] at whole
    obtain ⟨nonzero, byte⟩ := proper
    obtain ⟨length, rfl⟩ := whole
    refine ⟨mask, stored, rfl, (toList_eq_layout_pruned len).2 ?_, ?_⟩
    · refine ⟨length, type, ?_, hashes, depths⟩
      rw [ew, ← byte]
      rfl
    · exact ⟨fun e => nonzero (LevelMask.level_eq_zero.2 e), len, rfl⟩
  · rintro ⟨mask, stored, rfl, layout, nonempty, len, e⟩
    obtain ⟨length, _, byte, hashes, depths⟩ := (toList_eq_layout_pruned len).1 layout
    refine ⟨mask.toByte.toBitVec, byte, ?_, ?_, stored, ?_, ?_⟩
    · rw [not_or, not_not, LevelMask.ofByte_toByte, LevelMask.level_eq_zero]
      exact ⟨nonempty, rfl⟩
    · rw [not_or, not_not, not_not, LevelMask.ofByte_toByte]
      exact ⟨length, List.map_eq_nil_iff.1 e⟩
    · rw [LevelMask.ofByte_toByte]
      exact ⟨len, hashes, depths⟩
    · rw [LevelMask.ofByte_toByte]

/-- A library reference is read from its layout. -/
lemma parseLibrary_eq_ok (type : bits.range 0 8 = Binary.ofNat 8 2) :
    parseLibrary bits refs = .ok k ↔
      ∃ hash, k = .library hash ∧ bits.toList = k.layout ∧ k.Fits (refs.map (·.fingerprint 0)) := by
  have parts (hash : Digest) : bits.toList = (library hash).layout ↔
      bits.length = 264 ∧ bits.range 0 8 = Binary.ofNat 8 2 ∧ bits.range 8 256 = hash.bits := by
    rw [Bits.toList_eq (n := 8 + 256) (by simp [layout])]
    exact and_congr_right fun _ => Bits.range_add_eq_append (Binary.length_ofNat 8 2)
  rw [parseLibrary]
  simp only [Outcome.bind_eq_ok, Outcome.throw_bind, Outcome.guard_eq_ok, readHash_eq_ok,
    Outcome.pure_eq_ok, List.isEmpty_iff]
  constructor
  · rintro ⟨whole, hash, eh, rfl⟩
    rw [not_or, not_not, not_not] at whole
    obtain ⟨length, rfl⟩ := whole
    exact ⟨hash, rfl, (parts hash).2 ⟨length, type, eh⟩, rfl⟩
  · rintro ⟨hash, rfl, layout, e⟩
    obtain ⟨length, _, eh⟩ := (parts hash).1 layout
    refine ⟨?_, hash, eh, rfl⟩
    rw [not_or, not_not, not_not]
    exact ⟨length, List.map_eq_nil_iff.1 e⟩

/-- A Merkle proof is read from its layout, over one reference that has the fingerprint in it. -/
lemma parseProof_eq_ok (type : bits.range 0 8 = Binary.ofNat 8 3) :
    parseProof bits refs = .ok k ↔
      ∃ root, k = .merkleProof root ∧ bits.toList = k.layout ∧
        k.Fits (refs.map (·.fingerprint 0)) := by
  have parts (root : Fingerprint) : bits.toList = (merkleProof root).layout ↔
      bits.length = 280 ∧ bits.range 0 8 = Binary.ofNat 8 3 ∧
      bits.range 8 256 = root.hash.bits ∧ bits.range 264 16 = root.depthBits := by
    rw [Bits.toList_eq (n := 8 + (256 + 16)) (by simp [layout])]
    refine and_congr_right fun _ => ?_
    exact (Bits.range_add_eq_append (Binary.length_ofNat 8 3)).trans
      (and_congr_right fun _ => Bits.range_add_eq_append (Digest.length_bits _))
  rcases refs with _ | ⟨cell, _ | ⟨_, _⟩⟩
  · constructor
    · rintro ⟨⟩
    · rintro ⟨root, rfl, _, ⟨⟩⟩
  · simp only [parseProof, Outcome.bind_eq_ok, Outcome.throw_bind, Outcome.guard_eq_ok,
      readHash_eq_ok, readDepth_eq_ok, Outcome.pure_eq_ok, ne_eq, not_not]
    constructor
    · rintro ⟨length, hash, eh, depth, ed, e, rfl⟩
      refine ⟨⟨hash, depth⟩, rfl, (parts ⟨hash, depth⟩).2 ⟨length, type, eh, ed⟩, ?_⟩
      simp only [Fits, List.map_cons, List.map_nil, e]
    · rintro ⟨root, rfl, layout, e⟩
      obtain ⟨length, _, eh, ed⟩ := (parts root).1 layout
      exact ⟨length, root.hash, eh, root.depth, ed, List.cons.inj e |>.1, rfl⟩
  · constructor
    · rintro ⟨⟩
    · rintro ⟨root, rfl, _, ⟨⟩⟩

/-- A Merkle update is read from its layout, over two references that have the fingerprints in
it. -/
lemma parseUpdate_eq_ok (type : bits.range 0 8 = Binary.ofNat 8 4) :
    parseUpdate bits refs = .ok k ↔
      ∃ old new, k = .merkleUpdate old new ∧ bits.toList = k.layout ∧
        k.Fits (refs.map (·.fingerprint 0)) := by
  have parts (old new : Fingerprint) : bits.toList = (merkleUpdate old new).layout ↔
      bits.length = 552 ∧ bits.range 0 8 = Binary.ofNat 8 4 ∧
      bits.range 8 256 = old.hash.bits ∧ bits.range 264 256 = new.hash.bits ∧
      bits.range 520 16 = old.depthBits ∧ bits.range 536 16 = new.depthBits := by
    simp only [layout, typeByte, List.append_assoc]
    rw [Bits.toList_eq (n := 8 + (256 + (256 + (16 + 16)))) (by simp)]
    refine and_congr_right fun _ => ?_
    exact (Bits.range_add_eq_append (Binary.length_ofNat 8 4)).trans
      (and_congr_right fun _ => (Bits.range_add_eq_append (Digest.length_bits _)).trans
        (and_congr_right fun _ => (Bits.range_add_eq_append (Digest.length_bits _)).trans
          (and_congr_right fun _ => Bits.range_add_eq_append old.length_depthBits)))
  rcases refs with _ | ⟨oldCell, _ | ⟨newCell, _ | ⟨_, _⟩⟩⟩
  · constructor
    · rintro ⟨⟩
    · rintro ⟨old, new, rfl, _, ⟨⟩⟩
  · constructor
    · rintro ⟨⟩
    · rintro ⟨old, new, rfl, _, ⟨⟩⟩
  · simp only [parseUpdate, Outcome.bind_eq_ok, Outcome.throw_bind, Outcome.guard_eq_ok,
      readHash_eq_ok, readDepth_eq_ok, Outcome.pure_eq_ok, ne_eq, not_or, not_not]
    constructor
    · rintro ⟨length, oldHash, eo, oldDepth, edo, newHash, en, newDepth, edn, ⟨e, e'⟩, rfl⟩
      refine ⟨⟨oldHash, oldDepth⟩, ⟨newHash, newDepth⟩, rfl, ?_, ?_⟩
      · exact (parts ⟨oldHash, oldDepth⟩ ⟨newHash, newDepth⟩).2 ⟨length, type, eo, en, edo, edn⟩
      · simp only [Fits, List.map_cons, List.map_nil, e, e']
    · rintro ⟨old, new, rfl, layout, e⟩
      obtain ⟨length, _, eo, en, edo, edn⟩ := (parts old new).1 layout
      have e' := List.cons.inj e
      exact ⟨length, old.hash, eo, old.depth, edo, new.hash, en, new.depth, edn,
        ⟨e'.1, (List.cons.inj e'.2).1⟩, rfl⟩
  · constructor
    · rintro ⟨⟩
    · rintro ⟨old, new, rfl, _, ⟨⟩⟩

/-- A layout begins with the byte of its type. -/
lemma range_type (layout : bits.toList = k.layout) :
    bits.range 0 8 = Binary.ofNat 8 k.typeByte := by
  rw [Bits.range, List.drop_zero, layout]
  have len : (Binary.ofNat 8 k.typeByte).length = 8 := Binary.length_ofNat _ _
  exact List.take_left' len

/-- A kind is read from its layout, over references that it fits. -/
theorem parse_eq_ok :
    parse bits refs = .ok k ↔ bits.toList = k.layout ∧ k.Fits (refs.map (·.fingerprint 0)) := by
  rcases Nat.lt_or_ge bits.length 8 with lt | le
  · rw [parse, if_pos lt]
    refine ⟨by rintro ⟨⟩, fun h => ?_⟩
    have layout := h.1
    have h := Bits.le_of_length_range (by rw [range_type layout, Binary.length_ofNat])
    omega
  · obtain ⟨word, ew⟩ : ∃ word, bits.wordAt 8 0 8 = .ok word :=
      ⟨_, Bits.wordAt_of_le (Nat.le_refl _) le⟩
    have type := Bits.wordAt_eq_ok.1 ew
    have byte : word.toNat < 2 ^ 8 := word.isLt
    rw [Binary.ofWord] at type
    rw [parse, if_neg (Nat.not_lt.2 le), ew, Outcome.ok_bind]
    generalize word.toNat = t at type byte
    -- a layout begins with the type of its kind, so that the cases exclude each other
    have fixed (layout : bits.toList = k.layout) : t = k.typeByte := by
      have e := congrArg Binary.toNat (type.symm.trans (range_type layout))
      rw [Binary.toNat_ofNat, Binary.toNat_ofNat, Nat.mod_eq_of_lt byte] at e
      cases k <;> exact e
    split
    case h_1 =>
      rw [parsePruned_eq_ok type]
      refine ⟨by rintro ⟨_, _, _, h⟩; exact h, fun h => ?_⟩
      cases k with
      | pruned mask stored => exact ⟨mask, stored, rfl, h⟩
      | _ => cases fixed h.1
    case h_2 =>
      rw [parseLibrary_eq_ok type]
      refine ⟨by rintro ⟨_, _, h⟩; exact h, fun h => ?_⟩
      cases k with
      | library hash => exact ⟨hash, rfl, h⟩
      | _ => cases fixed h.1
    case h_3 =>
      rw [parseProof_eq_ok type]
      refine ⟨by rintro ⟨_, _, h⟩; exact h, fun h => ?_⟩
      cases k with
      | merkleProof root => exact ⟨root, rfl, h⟩
      | _ => cases fixed h.1
    case h_4 =>
      rw [parseUpdate_eq_ok type]
      refine ⟨by rintro ⟨_, _, _, h⟩; exact h, fun h => ?_⟩
      cases k with
      | merkleUpdate old new => exact ⟨old, new, rfl, h⟩
      | _ => cases fixed h.1
    case h_5 n1 n2 n3 n4 =>
      refine ⟨by rintro ⟨⟩, fun h => ?_⟩
      cases k with
      | ordinary => exact h.2.elim
      | pruned => exact (n1 (fixed h.1)).elim
      | library => exact (n2 (fixed h.1)).elim
      | merkleProof => exact (n3 (fixed h.1)).elim
      | merkleUpdate => exact (n4 (fixed h.1)).elim

end Parse

end Kind

end CellBag
