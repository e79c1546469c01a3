import CellBag.Proofs.Cell.Fingerprint

/-!
# Messages

The message that is hashed for a level of a cell says what it was made of. Its two descriptors give
the number of references, the exotic flag, the mask and the length of the data
(`Cell.refsDescriptor_inj`); with the length known, the body, the depths and the hashes can be told
apart (`Cell.message_inj`).
-/

namespace CellBag

namespace Bits

/-- Bits with a completion tag take the bytes that hold them. -/
@[simp]
lemma length_toTaggedBytes (b : Bits) : b.toTaggedBytes.length = Binary.octetsFor b.length := by
  rw [toTaggedBytes, Octets.length_pack, tagged]
  split
  · rfl
  case isFalse part =>
    rw [length, List.length_append, List.length_singleton]
    simp only [Binary.octetsFor]
    omega

end Bits

namespace LevelMask

/-- The byte of a mask is below eight. -/
lemma toNat_toByte_lt (m : LevelMask) : m.toByte.toNat < 8 := by
  have h : ∀ b : BitVec 3, (⟨b⟩ : LevelMask).toByte.toNat < 8 := by decide
  exact h m.bits

/-- The mask in a byte is the number of its low three bits. -/
lemma toNat_toByte_ofByte (b : UInt8) : (ofByte b).toByte.toNat = b.toNat % 8 := by
  show ((b.toBitVec.setWidth 3).setWidth 8).toNat = b.toNat % 8
  rw [BitVec.toNat_setWidth, BitVec.toNat_setWidth, Nat.mod_eq_of_lt]
  · rfl
  · omega

/-- Masks with the same byte are the same. -/
lemma toByte_inj {m n : LevelMask} : m.toByte.toNat = n.toByte.toNat ↔ m = n := by
  refine ⟨fun e => ?_, fun e => by rw [e]⟩
  rw [← ofByte_toByte m, UInt8.toNat_inj.1 e, ofByte_toByte]

end LevelMask

namespace Cell

section Descriptor
variable {count : Nat} {exotic stored : Bool} {mask : LevelMask}

/-- The first descriptor with the bit that says whether fingerprints are stored, which no cell has
by itself. -/
def storedDescriptor (count : Nat) (exotic stored : Bool) (mask : LevelMask) : UInt8 :=
  UInt8.ofNat (count + (if exotic then 8 else 0) + (if stored then 16 else 0) +
    32 * mask.toByte.toNat)

/-- A record without stored hashes has the descriptor of its cell. -/
lemma storedDescriptor_false :
    storedDescriptor count exotic false mask = refsDescriptor count exotic mask :=
  rfl

/-- The parts of the first descriptor do not overlap, so that each can be read off it. -/
lemma eq_storedDescriptor {b : UInt8} (few : count < 8) :
    b = storedDescriptor count exotic stored mask ↔
      b.toNat % 8 = count ∧ b.toNat.testBit 3 = exotic ∧ b.toNat.testBit 4 = stored ∧
        LevelMask.ofByte (UInt8.ofNat (b.toNat / 32)) = mask := by
  have lt := mask.toNat_toByte_lt
  have value : (storedDescriptor count exotic stored mask).toNat =
      count + exotic.toNat * 8 + stored.toNat * 16 + 32 * mask.toByte.toNat := by
    rw [storedDescriptor, UInt8.toNat_ofNat', Nat.mod_eq_of_lt]
    · cases exotic <;> cases stored <;> rfl
    · cases exotic <;> cases stored <;> simp only [Bool.false_eq_true, if_true, if_false] <;> omega
  have bit {x : Bool} {n : Nat} : decide (n % 2 = 1) = x ↔ n % 2 = x.toNat := by
    cases x <;> simp
  have top : LevelMask.ofByte (UInt8.ofNat (b.toNat / 32)) = mask ↔
      b.toNat / 32 = mask.toByte.toNat := by
    have small : b.toNat / 32 < 8 := by have := b.toNat_lt; omega
    rw [← LevelMask.toByte_inj, LevelMask.toNat_toByte_ofByte, UInt8.toNat_ofNat',
      Nat.mod_eq_of_lt (by omega : b.toNat / 32 < 2 ^ 8), Nat.mod_eq_of_lt small]
  rw [← UInt8.toNat_inj, value, top, Nat.testBit_eq_decide_div_mod_eq,
    Nat.testBit_eq_decide_div_mod_eq, bit, bit]
  have := exotic.toNat_lt
  have := stored.toNat_lt
  omega

/-- The first descriptor determines what it is made of. -/
lemma refsDescriptor_inj {count' : Nat} {exotic' : Bool} {mask' : LevelMask}
    (few : count < 8) (few' : count' < 8)
    (e : refsDescriptor count exotic mask = refsDescriptor count' exotic' mask') :
    count = count' ∧ exotic = exotic' ∧ mask = mask' := by
  obtain ⟨c, x, _, m⟩ := (eq_storedDescriptor few).1
    (show refsDescriptor count exotic mask = _ from storedDescriptor_false.symm)
  obtain ⟨c', x', _, m'⟩ := (eq_storedDescriptor few').1 (e.trans storedDescriptor_false.symm)
  exact ⟨c.symm.trans c', x.symm.trans x', m.symm.trans m'⟩

/-- The second descriptor counts the bytes of the data, rounded down and up. -/
lemma toNat_lengthDescriptor (b : Bits) :
    (lengthDescriptor b).toNat = b.length / 8 + Binary.octetsFor b.length := by
  have le : b.length ≤ 1023 := b.length_le
  rw [lengthDescriptor, UInt8.toNat_ofNat', Nat.mod_eq_of_lt]
  simp only [Binary.octetsFor]
  omega

/-- The second descriptor counts the bytes of the data. -/
lemma lengthDescriptor_half (b : Bits) :
    ((lengthDescriptor b).toNat + 1) / 2 = Binary.octetsFor b.length := by
  rw [toNat_lengthDescriptor]
  simp only [Binary.octetsFor]
  omega

/-- The second descriptor is odd if there is a completion tag. -/
lemma lengthDescriptor_odd (b : Bits) : (lengthDescriptor b).toNat % 2 = 1 ↔ b.length % 8 ≠ 0 := by
  rw [toNat_lengthDescriptor]
  simp only [Binary.octetsFor]
  omega

/-- Data is determined by its second descriptor and its bytes. -/
lemma toTaggedBytes_inj {b b' : Bits} (ed : lengthDescriptor b = lengthDescriptor b')
    (e : b.toTaggedBytes = b'.toTaggedBytes) : b = b' := by
  have odd := lengthDescriptor_odd b
  rw [ed, lengthDescriptor_odd b'] at odd
  by_cases part : b.length % 8 ≠ 0
  · have h := Bits.ofTaggedBytes_toTaggedBytes part
    rw [e, Bits.ofTaggedBytes_toTaggedBytes (odd.2 part)] at h
    exact (Except.ok.inj h).symm
  · have whole : b'.length % 8 = 0 := by
      by_contra part'
      exact part (odd.1 part')
    have h := Bits.ofWholeBytes_toTaggedBytes (not_not.1 part)
    rw [e, Bits.ofWholeBytes_toTaggedBytes whole] at h
    exact (Except.ok.inj h).symm

end Descriptor

/-- Lists of items that all have one length are the same if they are when put together. -/
lemma map_eq_of_flatMap {α β γ : Type} {n : Nat} {f : α → List γ} {g : β → List γ}
    (lf : ∀ x, (f x).length = n) (lg : ∀ y, (g y).length = n) {xs : List α} {ys : List β}
    (len : xs.length = ys.length) (e : xs.flatMap f = ys.flatMap g) : xs.map f = ys.map g := by
  induction xs generalizing ys with
  | nil =>
    rw [List.length_eq_zero_iff.1 len.symm]
    rfl
  | cons x xs ih =>
    cases ys with
    | nil => cases len
    | cons y ys =>
      rw [List.flatMap_cons, List.flatMap_cons] at e
      obtain ⟨head, tail⟩ := List.append_inj e (by rw [lf, lg])
      rw [List.map_cons, List.map_cons, head, ih (Nat.succ.inj len) tail]

section Message
variable {kind kind' : Kind} {bits bits' : Bits} {refs refs' : List Cell} {mask mask' : LevelMask}
  {below below' : Option Digest} {l l' : Nat}

/-- A message says how many references there are, whether the cell is exotic, and the mask. -/
lemma message_header (few : refs.length ≤ maxRefs) (few' : refs'.length ≤ maxRefs)
    (e : message kind bits refs mask below l = message kind' bits' refs' mask' below' l') :
    refs.length = refs'.length ∧ kind.isExotic = kind'.isExotic ∧ mask.apply l = mask'.apply l' := by
  have lt : maxRefs < 8 := by decide
  simp only [message, List.cons_append, List.cons.injEq] at e
  exact refsDescriptor_inj (by omega) (by omega) e.1

/-- A message says all that it was made of, once it is known whether a hash stands in it. -/
lemma message_inj (few : refs.length ≤ maxRefs) (few' : refs'.length ≤ maxRefs)
    (same : below.isSome = below'.isSome)
    (e : message kind bits refs mask below l = message kind' bits' refs' mask' below' l') :
    below = below' ∧ (below = none → bits = bits') ∧
      refs.map (·.fingerprint (l + kind.levelOffset)) =
        refs'.map (·.fingerprint (l' + kind'.levelOffset)) := by
  obtain ⟨len, _⟩ := message_header few few' e
  simp only [message, List.cons_append, List.nil_append, List.cons.injEq, List.append_assoc] at e
  obtain ⟨_, ed, e⟩ := e
  have octets : Binary.octetsFor bits.length = Binary.octetsFor bits'.length := by
    rw [← lengthDescriptor_half, ed, lengthDescriptor_half]
  have body : below = below' ∧ (below = none → bits = bits') ∧
      refs.flatMap (fun c => Octets.ofNat 2 (c.depthAt (l + kind.levelOffset)).toNat) ++
        refs.flatMap (fun c => (c.hashAt (l + kind.levelOffset)).bytes) =
      refs'.flatMap (fun c => Octets.ofNat 2 (c.depthAt (l' + kind'.levelOffset)).toNat) ++
        refs'.flatMap fun c => (c.hashAt (l' + kind'.levelOffset)).bytes := by
    cases below with
    | none =>
      cases below' with
      | none =>
        obtain ⟨data, rest⟩ := List.append_inj e (by simp [octets])
        exact ⟨rfl, fun _ => toTaggedBytes_inj ed data, rest⟩
      | some _ => cases same
    | some hash =>
      cases below' with
      | none => cases same
      | some hash' =>
        obtain ⟨bytes, rest⟩ := List.append_inj e (by rw [hash.length_bytes, hash'.length_bytes])
        exact ⟨congrArg some (Digest.ext bytes), by rintro ⟨⟩, rest⟩
  obtain ⟨eb, data, rest⟩ := body
  refine ⟨eb, data, ?_⟩
  have depthBytes (cs : List Cell) (k : Nat) :
      (cs.flatMap fun c => Octets.ofNat 2 (c.depthAt k).toNat).length = 2 * cs.length := by
    induction cs with
    | nil => rfl
    | cons c cs ih =>
      rw [List.flatMap_cons, List.length_append, ih, Octets.length_ofNat, List.length_cons]
      omega
  obtain ⟨depths, hashes⟩ := List.append_inj rest (by rw [depthBytes, depthBytes, len])
  have depths := map_eq_of_flatMap (fun _ => Octets.length_ofNat 2 _)
    (fun _ => Octets.length_ofNat 2 _) len depths
  have hashes := map_eq_of_flatMap (fun c => (hashAt c _).length_bytes)
    (fun c => (hashAt c _).length_bytes) len hashes
  apply List.ext_getElem (by rw [List.length_map, List.length_map, len])
  intro i lt lt'
  rw [List.length_map] at lt lt'
  have depth := congrArg (·[i]?) depths
  have hash := congrArg (·[i]?) hashes
  simp only [List.getElem?_map, List.getElem?_eq_getElem lt, List.getElem?_eq_getElem lt',
    Option.map_some, Option.some.injEq] at depth hash
  have depth := congrArg Octets.toNat depth
  rw [Octets.toNat_ofNat_of_lt (UInt16.toNat_lt _), Octets.toNat_ofNat_of_lt (UInt16.toNat_lt _)]
    at depth
  rw [List.getElem_map, List.getElem_map]
  exact Fingerprint.ext (Digest.ext hash) (UInt16.toNat_inj.1 depth)

end Message

end Cell

end CellBag
