import CellBag.Bag.Record
import CellBag.Proofs.Bag.Scan
import CellBag.Proofs.Cell.Built
import CellBag.Proofs.Cell.Message

/-!
# Record codec

`Entry.layout` are the bytes of a record, perhaps with fingerprints that are stored in it. They are
what a record is read from (`Record.scan_eq_ok`), and without fingerprints what is written for it
(`Record.bytes_eq_ok`). So reading and writing undo each other, as long as nothing is stored
(`Record.scan_bytes`).
-/

namespace CellBag.Bag

/-- A record as it stands in a bag, perhaps with bytes in which fingerprints are stored. -/
structure Entry where
  record : Record
  stored : Option (List UInt8)

namespace Entry

/-- The bytes of an entry with references of `refSize` bytes. -/
def layout (refSize : Nat) (e : Entry) : List UInt8 :=
  let r := e.record
  [Cell.storedDescriptor r.refs.length r.exotic e.stored.isSome r.mask,
    Cell.lengthDescriptor r.bits] ++ e.stored.getD [] ++ r.bits.toTaggedBytes ++
    r.refs.flatMap (Octets.ofNat refSize)

/-- What is asked of an entry: few references that fit their fields, and as many bytes of
fingerprints as there are levels, if it is no pruned branch. -/
structure Valid (refSize : Nat) (e : Entry) : Prop where
  refs_le : e.record.refs.length ≤ Cell.maxRefs
  refs_lt : ∀ n ∈ e.record.refs, n < 256 ^ refSize
  stored : ∀ xs ∈ e.stored, xs.length = Record.fingerprintSize * (e.record.mask.level + 1) ∧
    ¬ (e.record.exotic = true ∧ e.record.refs.length = 0 ∧ 0 < e.record.mask.level)

/-- A record takes its two descriptors, its stored hashes, its data and its references. -/
lemma length_layout (refSize : Nat) (e : Entry) :
    (e.layout refSize).length = 2 + (e.stored.getD []).length +
      Binary.octetsFor e.record.bits.length + e.record.refs.length * refSize := by
  simp only [layout, List.length_append, Octets.length_flatMap_ofNat, Bits.length_toTaggedBytes,
    List.length_cons, List.length_nil]

end Entry

namespace Record

/-- A record is written as an entry in which nothing is stored. -/
lemma bytes_eq_ok {refSize : Nat} {r : Record} {xs : List UInt8} :
    bytes refSize r = .ok xs ↔
      (∀ n ∈ r.refs, n < 256 ^ refSize) ∧ xs = Entry.layout refSize ⟨r, none⟩ := by
  simp only [bytes, Outcome.bind_eq_ok, Outcome.pure_eq_ok, fields_eq_ok]
  constructor
  · rintro ⟨refs, ⟨fits, rfl⟩, rfl⟩
    exact ⟨fits, rfl⟩
  · rintro ⟨fits, rfl⟩
    exact ⟨_, ⟨fits, rfl⟩, rfl⟩

/-- Data is read from the bytes with its completion tag, which are marked if there is one. -/
lemma readData_eq_ok {index : Nat} {data : List UInt8} {tagged : Bool} {b : Bits} :
    readData index data tagged = .ok b ↔
      data = b.toTaggedBytes ∧ (tagged = true ↔ b.length % 8 ≠ 0) := by
  cases tagged with
  | true =>
    simp only [true_iff]
    rw [← Bits.ofTaggedBytes_eq_ok, readData]
    simp only [true_and, if_true, Outcome.guard_eq_ok]
    refine and_congr_right fun _ => ?_
    cases Bits.ofTaggedBytes data <;> simp
  | false =>
    simp only [Bool.false_eq_true, false_iff, not_not]
    rw [← Bits.ofWholeBytes_eq_ok, readData]
    simp only [Bool.false_eq_true, false_and, if_false]
    cases Bits.ofWholeBytes data <;> simp

variable {c c' : Cursor} {refSize index : Nat}

/-- Stored fingerprints are skipped, as many as there are levels. -/
lemma skipStored_eq_ok {refCount : Nat} {exotic : Bool} {mask : LevelMask} {u : Unit} :
    skipStored index refCount exotic mask c = .ok (u, c') ↔
      ¬ (exotic = true ∧ refCount = 0 ∧ 0 < mask.level) ∧
        ∃ xs, xs.length = fingerprintSize * (mask.level + 1) ∧ Between c xs c' := by
  simp only [skipStored, Scan.guard_eq_ok, Scan.bind_eq_ok, Scan.bytes_eq_ok, Scan.pure_eq_ok]
  refine and_congr_right fun _ => ?_
  constructor
  · rintro ⟨xs, _, ⟨len, between⟩, _, rfl⟩
    exact ⟨xs, len, between⟩
  · rintro ⟨xs, len, between⟩
    exact ⟨xs, c', ⟨len, between⟩, trivial, rfl⟩

/-- The second descriptor and the bytes of data are those of the bits that are read from them. -/
lemma data_eq_iff (index : Nat) {second : UInt8} {data : List UInt8} {b : Bits} :
    data.length = (second.toNat + 1) / 2 ∧
        readData index data (decide (second.toNat % 2 = 1)) = .ok b ↔
      second = Cell.lengthDescriptor b ∧ data = b.toTaggedBytes := by
  rw [readData_eq_ok, decide_eq_true_eq]
  constructor
  · rintro ⟨len, rfl, odd⟩
    refine ⟨UInt8.toNat_inj.1 ?_, rfl⟩
    rw [Bits.length_toTaggedBytes] at len
    rw [Cell.toNat_lengthDescriptor]
    simp only [Binary.octetsFor] at len ⊢
    omega
  · rintro ⟨rfl, rfl⟩
    rw [Bits.length_toTaggedBytes, Cell.lengthDescriptor_half]
    exact ⟨rfl, rfl, Cell.lengthDescriptor_odd b⟩

/-- The data and the references are read from their bytes, and the second descriptor is the one of
the data. -/
lemma scanBody_eq_ok {refCount : Nat} {second : UInt8} {exotic : Bool} {mask : LevelMask}
    {r : Record} :
    scanBody refSize index refCount second.toNat exotic mask c = .ok (r, c') ↔
      second = Cell.lengthDescriptor r.bits ∧ exotic = r.exotic ∧ mask = r.mask ∧
        refCount = r.refs.length ∧ (∀ n ∈ r.refs, n < 256 ^ refSize) ∧
        Between c (r.bits.toTaggedBytes ++ r.refs.flatMap (Octets.ofNat refSize)) c' := by
  simp only [scanBody, Scan.bind_eq_ok, Scan.bytes_eq_ok, Scan.lift_eq_ok, Scan.nats_eq_ok,
    Scan.pure_eq_ok]
  constructor
  · rintro ⟨data, c₁, ⟨len, first⟩, bits, _, ⟨read, rfl⟩, refs, _, ⟨count, fits, others⟩, rfl, rfl⟩
    obtain ⟨ed, rfl⟩ := (data_eq_iff index).1 ⟨len, read⟩
    exact ⟨ed, rfl, rfl, count.symm, fits, Scan.between_append.2 ⟨c₁, first, others⟩⟩
  · rintro ⟨ed, rfl, rfl, rfl, fits, between⟩
    obtain ⟨c₁, first, others⟩ := Scan.between_append.1 between
    obtain ⟨len, read⟩ := (data_eq_iff index).2 ⟨ed, rfl⟩
    exact ⟨_, c₁, ⟨len, first⟩, r.bits, c₁, ⟨read, rfl⟩, r.refs, c', ⟨rfl, fits, others⟩, rfl, rfl⟩

/-- What a record stores is skipped if the first descriptor says so. -/
lemma skipped_eq_ok {flag : Bool} {refCount : Nat} {exotic : Bool} {mask : LevelMask}
    {x : Scan Record} {r : Record} :
    (if flag = true then skipStored index refCount exotic mask >>= fun _ => x else x) c =
        .ok (r, c') ↔
      ∃ stored : Option (List UInt8), stored.isSome = flag ∧
        (∀ xs ∈ stored, xs.length = fingerprintSize * (mask.level + 1) ∧
          ¬ (exotic = true ∧ refCount = 0 ∧ 0 < mask.level)) ∧
        ∃ c₁, Between c (stored.getD []) c₁ ∧ x c₁ = .ok (r, c') := by
  cases flag with
  | true =>
    simp only [if_true, Scan.bind_eq_ok, skipStored_eq_ok, Option.isSome_iff_exists]
    constructor
    · rintro ⟨_, c₁, ⟨allowed, xs, len, between⟩, e⟩
      exact ⟨some xs, ⟨xs, rfl⟩, fun _ e => Option.some.inj e ▸ ⟨len, allowed⟩, c₁, between, e⟩
    · rintro ⟨_, ⟨xs, rfl⟩, valid, c₁, between, e⟩
      obtain ⟨len, allowed⟩ := valid xs rfl
      exact ⟨(), c₁, ⟨allowed, xs, len, between⟩, e⟩
  | false =>
    simp only [Bool.false_eq_true, if_false, Option.isSome_eq_false_iff, Option.isNone_iff_eq_none]
    constructor
    · intro e
      exact ⟨none, rfl, by rintro _ ⟨⟩, c, Scan.between_nil.2 rfl, e⟩
    · rintro ⟨_, rfl, _, c₁, between, e⟩
      rwa [Scan.between_nil.1 between]

/-- A record is read from the bytes of an entry, whatever follows them, and from no others. -/
theorem scan_eq_ok {r : Record} :
    scan refSize index c = .ok (r, c') ↔
      ∃ stored, Entry.Valid refSize ⟨r, stored⟩ ∧ Between c (Entry.layout refSize ⟨r, stored⟩) c' := by
  simp only [scan, Scan.bind_eq_ok, Scan.byte_eq_ok, Scan.guard_eq_ok, skipped_eq_ok, scanBody_eq_ok]
  constructor
  · rintro ⟨first, c₁, b₁, second, c₂, b₂, _, few, stored, flag, allowed, c₃, b₃, ed, ex, mask, len,
      fits, b₄⟩
    have few : r.refs.length ≤ Cell.maxRefs := by omega
    rw [ex, mask, len] at allowed
    refine ⟨stored, ⟨few, fits, allowed⟩, ?_⟩
    -- all that was read off the first descriptor determines it
    have lt : r.refs.length < 8 := Nat.lt_of_le_of_lt few (by decide)
    have ef := (Cell.eq_storedDescriptor lt).2 ⟨len, ex, flag.symm, mask⟩
    rw [Entry.layout, ← ef, ← ed, List.append_assoc, List.append_assoc]
    exact Scan.between_append.2 ⟨c₂, Scan.between_append.2 ⟨c₁, b₁, b₂⟩,
      Scan.between_append.2 ⟨c₃, b₃, b₄⟩⟩
  · rintro ⟨stored, ⟨few, fits, allowed⟩, between⟩
    dsimp only [Entry.layout] at between
    rw [List.append_assoc, List.append_assoc] at between
    obtain ⟨c₂, descriptors, between⟩ := Scan.between_append.1 between
    obtain ⟨c₁, b₁, b₂⟩ := Scan.between_append.1 (show Between c ([_] ++ [_]) c₂ from descriptors)
    obtain ⟨c₃, b₃, b₄⟩ := Scan.between_append.1 between
    have few : r.refs.length ≤ 4 := few
    obtain ⟨len, ex, flag, mask⟩ := (Cell.eq_storedDescriptor (by omega)).1
      (Eq.refl (Cell.storedDescriptor r.refs.length r.exotic stored.isSome r.mask))
    refine ⟨_, c₁, b₁, _, c₂, b₂, by omega, ?_, stored, flag.symm, ?_, c₃, b₃, rfl, ex, mask, len,
      fits, b₄⟩
    · rw [len]
      exact Nat.not_lt.2 few
    · rw [len, ex, mask]
      exact allowed

/-- The first byte of an entry says whether fingerprints are stored in it. -/
lemma testBit_headD_layout {r : Record} {stored : Option (List UInt8)}
    (few : r.refs.length ≤ Cell.maxRefs) (rest : List UInt8) :
    ((Entry.layout refSize ⟨r, stored⟩ ++ rest).headD 0).toNat.testBit 4 = stored.isSome := by
  have lt : r.refs.length < 8 := Nat.lt_of_le_of_lt few (by decide)
  obtain ⟨_, _, flag, _⟩ := (Cell.eq_storedDescriptor lt).1
    (Eq.refl (Cell.storedDescriptor r.refs.length r.exotic stored.isSome r.mask))
  exact flag

/-- Where the first byte says that nothing is stored, a record is read from what is written for it,
and from nothing else. -/
lemma scan_eq_ok_iff_bytes {r : Record} :
    scan refSize index c = .ok (r, c') ∧ (c.rest.headD 0).toNat.testBit 4 = false ↔
      r.refs.length ≤ Cell.maxRefs ∧ ∃ xs, bytes refSize r = .ok xs ∧ Between c xs c' := by
  constructor
  · intro h
    obtain ⟨read, clear⟩ := h
    obtain ⟨stored, valid, between⟩ := scan_eq_ok.1 read
    rw [between.rest_eq, testBit_headD_layout valid.refs_le] at clear
    cases stored with
    | none => exact ⟨valid.refs_le, _, bytes_eq_ok.2 ⟨valid.refs_lt, rfl⟩, between⟩
    | some => cases clear
  · intro h
    obtain ⟨few, xs, written, between⟩ := h
    obtain ⟨fits, rfl⟩ := bytes_eq_ok.1 written
    refine ⟨scan_eq_ok.2 ⟨none, ⟨few, fits, by rintro _ ⟨⟩⟩, between⟩, ?_⟩
    rw [between.rest_eq, testBit_headD_layout few]
    rfl

/-- The record of a cell, with the indexes at which the cells that it refers to stand. -/
def ofCell (c : Cell) (indexes : List Nat) : Record :=
  ⟨c.bits, c.isExotic, c.mask, indexes⟩

/-- What is written for a cell are its descriptors, its tagged data and the indexes. -/
lemma bytes_ofCell {cell : Cell} {indexes : List Nat} (len : indexes.length = cell.refs.length)
    (fits : ∀ n ∈ indexes, n < 256 ^ refSize) :
    bytes refSize (ofCell cell indexes) = .ok
      (cell.descriptors ++ cell.bits.toTaggedBytes ++ indexes.flatMap (Octets.ofNat refSize)) := by
  have same : (ofCell cell indexes).descriptors = cell.descriptors := by
    rw [descriptors, Cell.descriptors, ← len]
    rfl
  have refs : fields refSize (ofCell cell indexes).refs =
      .ok (indexes.flatMap (Octets.ofNat refSize)) := fields_eq_ok.2 ⟨fits, rfl⟩
  rw [bytes, refs, same]
  rfl

/-- What is written for a cell is read back, whatever follows it, and nothing more of it. What is
read as a record, where the first byte says that nothing is stored, is what is written for this
record. -/
theorem scan_bytes (refSize index : Nat) :
    (∀ (cell : Cell) (indexes : List Nat), cell.Built → indexes.length = cell.refs.length →
      (∀ n ∈ indexes, n < 256 ^ refSize) →
      ∃ xs, bytes refSize (ofCell cell indexes) = .ok xs ∧
        xs = cell.descriptors ++ cell.bits.toTaggedBytes ++
          indexes.flatMap (Octets.ofNat refSize) ∧
        ∀ (rest : List UInt8) (position : Nat), scan refSize index ⟨xs ++ rest, position⟩ =
          .ok (ofCell cell indexes, ⟨rest, position + xs.length⟩)) ∧
    ∀ (c c' : Cursor) (r : Record), scan refSize index c = .ok (r, c') →
      (c.rest.headD 0).toNat.testBit 4 = false →
      ∃ xs, bytes refSize r = .ok xs ∧ c.rest = xs ++ c'.rest ∧
        c'.position = c.position + xs.length := by
  constructor
  · intro cell indexes built len fits
    have few : indexes.length ≤ Cell.maxRefs := len ▸ built.wellFormed.refs_le
    have written := bytes_ofCell len fits
    exact ⟨_, written, rfl, fun rest position =>
      (scan_eq_ok_iff_bytes.2 ⟨few, _, written, rfl, rfl⟩).1⟩
  · intro c c' r read clear
    obtain ⟨_, xs, written, between⟩ := scan_eq_ok_iff_bytes.1 ⟨read, clear⟩
    exact ⟨xs, written, between.rest_eq, between.position_eq⟩

/-- A cell of three bits, whose data is tagged, over a leaf that stands at index two, with a byte
behind its record. -/
theorem scan_bytes_over_leaf :
    ∃ leaf bits cell, Cell.leaf [] 0 = .ok leaf ∧ Cell.finalize bits [leaf] false = .ok cell ∧
      scan 2 1 ⟨[0x01, 0x01, 0xB0, 0x00, 0x02] ++ [0xFF], 7⟩ =
        .ok (ofCell cell [2], ⟨[0xFF], 7 + 5⟩) ∧
      bytes 2 (ofCell cell [2]) = .ok [0x01, 0x01, 0xB0, 0x00, 0x02] := by
  have run : (do
      let leaf ← Cell.leaf [] 0
      let bits ← Bits.ofBytes [0xA0] 3
      let cell ← Cell.finalize bits [leaf] false
      return (cell.descriptors ++ cell.bits.toTaggedBytes)) = .ok [0x01, 0x01, 0xB0] := by
    decide +kernel
  simp only [Outcome.bind_eq_ok, Outcome.pure_eq_ok] at run
  obtain ⟨leaf, el, bits, _, cell, ec, spelled⟩ := run
  obtain ⟨_, refs, _⟩ := Cell.finalize_eq_ok.1 ec
  have built : cell.Built := .finalize (List.forall_mem_singleton.2 (.leaf el)) ec
  have len : [2].length = cell.refs.length := congrArg List.length refs.symm
  obtain ⟨xs, _, rfl, read⟩ := (scan_bytes 2 1).1 cell [2] built len (by decide)
  have read := read [0xFF] 7
  rw [spelled] at read
  obtain ⟨xs, written, rest, _⟩ := (scan_bytes 2 1).2 _ _ _ read (by decide)
  have whole : [0x01, 0x01, 0xB0, 0x00, 0x02] = xs := List.append_cancel_right rest
  exact ⟨leaf, bits, cell, el, ec, read, whole ▸ written⟩

end Record

end CellBag.Bag
