import CellBag.Bag.Decode
import CellBag.Proofs.Bag.Header
import CellBag.Proofs.Bag.Record

/-!
# Bytes of a bag

An `Image` is a bag as it stands in bytes: the header, the index, the entries of the records and the
checksum. The bytes of an image are scanned when it is valid within the limits, and no others are
(`Bag.scan_eq_ok`).
-/

namespace CellBag.Bag

/-- A bag as it stands in bytes. The numbers of the index are as they are stored. -/
structure Image where
  options : Options
  refSize : Nat
  offsetSize : Nat
  entries : List Entry
  roots : List Nat
  index : List Nat

namespace Image

/-- The bytes of the records, one by one. -/
def chunks (i : Image) : List (List UInt8) :=
  i.entries.map (Entry.layout i.refSize)

/-- The header of an image. -/
def header (i : Image) : Header :=
  ⟨i.options, i.refSize, i.offsetSize, i.entries.length, i.chunks.flatten.length, i.roots⟩

/-- How many bytes follow the header of an image. -/
lemma required_header (i : Image) :
    i.header.required = (if i.options.index then i.entries.length * i.offsetSize else 0) +
      i.chunks.flatten.length + (if i.options.checksum then 4 else 0) :=
  rfl

/-- What stands before the checksum. -/
def body (i : Image) : List UInt8 :=
  i.header.layout ++ i.index.flatMap (Octets.ofNat i.offsetSize) ++ i.chunks.flatten

/-- The bytes of an image. -/
def bytes (i : Image) : List UInt8 :=
  i.body ++ if i.options.checksum then checksumBytes i.body else []

/-- The offset that a number of an index stands for. -/
def offset (o : Options) (n : Nat) : Nat :=
  if o.cacheBits then n / 2 else n

/-- The offsets that an index stands for, if there is one. -/
def ends (i : Image) : Option (List Nat) :=
  if i.options.index then some (i.index.map (offset i.options)) else none

/-- What is asked of an index: the ends of the records if there is one, and nothing otherwise. -/
structure ValidIndex (i : Image) : Prop where
  index_lt : ∀ n ∈ i.index, n < 256 ^ i.offsetSize
  length_index : i.index.length = if i.options.index then i.entries.length else 0
  ends_eq : ∀ es ∈ i.ends, es = endOffsets 0 i.chunks

/-- What is asked of an image: an acceptable header, valid entries and a valid index. -/
structure Valid (limits : Limits) (i : Image) : Prop extends ValidIndex i where
  header : i.header.Acceptable limits
  entries : ∀ e ∈ i.entries, e.Valid i.refSize

end Image

/-- An image begins with its header. -/
lemma Image.exists_bytes_eq (i : Image) : ∃ rest, i.bytes = i.header.layout ++ rest :=
  ⟨_, by rw [Image.bytes, Image.body, List.append_assoc, List.append_assoc]⟩

/-- The header says how many bytes follow it. -/
lemma Image.ValidIndex.length_bytes {i : Image} (valid : i.ValidIndex) :
    i.bytes.length = i.header.layout.length + i.header.required := by
  have check : (if i.options.checksum = true then checksumBytes i.body else []).length =
      if i.options.checksum = true then 4 else 0 := by
    split
    · rw [checksumBytes, List.length_reverse, Octets.length_ofNat]
    · rfl
  have index : i.index.length * i.offsetSize =
      if i.options.index = true then i.entries.length * i.offsetSize else 0 := by
    rw [valid.length_index]
    split
    · rfl
    · exact Nat.zero_mul _
  rw [Image.bytes, List.length_append, check, Image.body, List.length_append, List.length_append,
    Octets.length_flatMap_ofNat, index, Image.required_header]
  omega

/-- Each chunk has its offset. -/
@[simp]
lemma length_endOffsets (start : Nat) (chunks : List (List UInt8)) :
    (endOffsets start chunks).length = chunks.length := by
  induction chunks generalizing start with
  | nil => rfl
  | cons chunk chunks ih => rw [endOffsets, List.length_cons, ih, List.length_cons]

variable {c c' : Cursor}

/-- A checksum is read from its bytes, and is that of the bytes before it. -/
lemma scanChecksum_eq_ok {data : List UInt8} {u : Unit} :
    scanChecksum data c = .ok (u, c') ↔ Between c (checksumBytes (data.take c.position)) c' := by
  have le (x : UInt32) {xs : List UInt8} (len : xs.length = 4) :
      UInt32.ofNat (Octets.toNat xs.reverse) = x ↔ xs = (Octets.ofNat 4 x.toNat).reverse := by
    have len' : xs.reverse.length = 4 := by rw [List.length_reverse, len]
    have lt : Octets.toNat xs.reverse < 2 ^ 32 := by
      have lt := Octets.toNat_lt xs.reverse
      rwa [len'] at lt
    have e := Octets.ofNat_toNat xs.reverse
    rw [len'] at e
    rw [← UInt32.toNat_inj, UInt32.toNat_ofNat', Nat.mod_eq_of_lt lt]
    constructor
    · intro h
      rw [← h, e, List.reverse_reverse]
    · rintro rfl
      rw [List.reverse_reverse, Octets.toNat_ofNat_of_lt x.toNat_lt]
  simp only [scanChecksum, Scan.bind_eq_ok, Scan.position_eq_ok, Scan.bytes_eq_ok,
    Scan.guard_throw_eq_ok, Scan.pure_eq_ok, ne_eq, Decidable.not_not, checksumBytes]
  constructor
  · rintro ⟨_, _, ⟨rfl, rfl⟩, xs, _, ⟨len, between⟩, same, _, rfl⟩
    rwa [← (le _ len).1 same]
  · intro between
    have len : (Octets.ofNat 4 (Crc32.checksum (data.take c.position)).toNat).reverse.length = 4 := by
      rw [List.length_reverse, Octets.length_ofNat]
    exact ⟨_, c, ⟨rfl, rfl⟩, _, c', ⟨len, between⟩, (le _ len).2 rfl, trivial, rfl⟩

/-- An index is read from its numbers, if the header announces it. -/
lemma scanIndex_eq_ok {h : Header} {ends : Option (List Nat)} :
    scanIndex h c = .ok (ends, c') ↔
      ∃ index : List Nat, (∀ n ∈ index, n < 256 ^ h.offsetSize) ∧
        Between c (index.flatMap (Octets.ofNat h.offsetSize)) c' ∧
        index.length = (if h.options.index then h.cellCount else 0) ∧
        ends = if h.options.index then some (index.map (Image.offset h.options)) else none := by
  rw [scanIndex]
  cases h.options.index with
  | true =>
    simp only [if_true, Scan.bind_eq_ok, Scan.nats_eq_ok, Scan.pure_eq_ok]
    constructor
    · rintro ⟨index, _, ⟨len, fits, between⟩, rfl, rfl⟩
      exact ⟨index, fits, between, len, rfl⟩
    · rintro ⟨index, fits, between, len, rfl⟩
      exact ⟨index, c', ⟨len, fits, between⟩, rfl, rfl⟩
  | false =>
    simp only [Bool.false_eq_true, if_false, Scan.pure_eq_ok, List.length_eq_zero_iff]
    constructor
    · rintro ⟨rfl, rfl⟩
      exact ⟨[], List.forall_mem_nil _, Scan.between_nil.2 rfl, rfl, rfl⟩
    · rintro ⟨_, _, between, rfl, rfl⟩
      exact ⟨rfl, Scan.between_nil.1 between⟩

/-- A record is read from the bytes of a valid entry, and its end is the one that an index gives. -/
lemma scanRecords_succ {refSize start count index : Nat} {ends : Option (List Nat)}
    {records : List Record} (ne : ends ≠ some []) :
    scanRecords refSize start (count + 1) index ends c = .ok (records, c') ↔
      ∃ (e : Entry) (later : List Record) (c₁ : Cursor), e.record :: later = records ∧
        e.Valid refSize ∧ Between c (e.layout refSize) c₁ ∧
        (∀ es ∈ ends, es.head? = some (c₁.position - start)) ∧
        scanRecords refSize start count (index + 1) (ends.map List.tail) c₁ = .ok (later, c') := by
  rcases ends with _ | _ | ⟨n, ns⟩
  · simp only [scanRecords, Scan.bind_eq_ok, Record.scan_eq_ok, Scan.pure_eq_ok, Option.map_none]
    constructor
    · rintro ⟨r, c₁, ⟨stored, valid, first⟩, later, _, e, rfl, rfl⟩
      exact ⟨⟨r, stored⟩, later, c₁, rfl, valid, first, by rintro _ ⟨⟩, e⟩
    · rintro ⟨⟨r, stored⟩, later, c₁, rfl, valid, first, _, e⟩
      exact ⟨r, c₁, ⟨stored, valid, first⟩, later, c', e, rfl, rfl⟩
  · exact absurd rfl ne
  · simp only [scanRecords, Scan.bind_eq_ok, Record.scan_eq_ok, Scan.pure_eq_ok, Option.map_some,
      Scan.position_eq_ok, Scan.guard_eq_ok, ne_eq, Decidable.not_not, List.tail_cons]
    constructor
    · rintro ⟨r, c₁, ⟨stored, valid, first⟩, _, _, ⟨rfl, rfl⟩, rfl, later, _, e, rfl, rfl⟩
      refine ⟨⟨r, stored⟩, later, c₁, rfl, valid, first, ?_, e⟩
      rintro _ ⟨⟩
      rfl
    · rintro ⟨⟨r, stored⟩, later, c₁, rfl, valid, first, ends, e⟩
      have here := Option.some.inj (ends _ rfl)
      exact ⟨r, c₁, ⟨stored, valid, first⟩, _, c₁, ⟨rfl, rfl⟩, here, later, c', e, rfl, rfl⟩

/-- Records are read from the bytes of valid entries, one after the other, and their ends are those
that an index gives. -/
lemma scanRecords_eq_ok {refSize start count index : Nat} {ends : Option (List Nat)}
    {records : List Record} (le : start ≤ c.position) (len : ∀ es ∈ ends, es.length = count) :
    scanRecords refSize start count index ends c = .ok (records, c') ↔
      ∃ entries : List Entry, entries.map Entry.record = records ∧ entries.length = count ∧
        (∀ e ∈ entries, e.Valid refSize) ∧
        Between c (entries.map (Entry.layout refSize)).flatten c' ∧
        ∀ es ∈ ends, es = endOffsets (c.position - start) (entries.map (Entry.layout refSize)) := by
  induction count generalizing c index ends records with
  | zero =>
    rw [scanRecords, Scan.pure_eq_ok]
    constructor
    · rintro ⟨rfl, rfl⟩
      refine ⟨[], rfl, rfl, List.forall_mem_nil _, Scan.between_nil.2 rfl, fun es mem => ?_⟩
      exact List.length_eq_zero_iff.1 (len es mem)
    · rintro ⟨entries, rfl, none, _, between, _⟩
      cases List.length_eq_zero_iff.1 none
      exact ⟨rfl, Scan.between_nil.1 between⟩
  | succ count ih =>
    have ne : ends ≠ some [] := by
      rintro rfl
      cases len [] rfl
    have lens : ∀ es ∈ ends.map List.tail, es.length = count := by
      intro es mem
      obtain ⟨es', found, rfl⟩ := Option.map_eq_some_iff.1 mem
      rw [List.length_tail, len es' found, Nat.add_sub_cancel]
    rw [scanRecords_succ ne]
    constructor
    · rintro ⟨e, later, c₁, rfl, valid, first, here, run⟩
      have next := first.position_eq
      obtain ⟨entries, rfl, rfl, valids, others, there⟩ := (ih (by omega) lens).1 run
      refine ⟨e :: entries, rfl, rfl, List.forall_mem_cons.2 ⟨valid, valids⟩,
        Scan.between_append.2 ⟨c₁, first, others⟩, fun es mem => ?_⟩
      have tail := there es.tail (Option.mem_map_of_mem _ mem)
      rw [next, Nat.sub_add_comm le] at tail
      rw [List.map_cons, endOffsets, ← tail, ← Nat.sub_add_comm le, ← next]
      exact (List.cons_head?_tail (here es mem)).symm
    · rintro ⟨entries, rfl, length, valids, between, ends_eq⟩
      obtain ⟨e, entries, rfl⟩ := List.exists_cons_of_length_eq_add_one length
      obtain ⟨valid, valids⟩ := List.forall_mem_cons.1 valids
      obtain ⟨c₁, first, others⟩ := Scan.between_append.1 between
      have next := first.position_eq
      refine ⟨e, _, c₁, rfl, valid, first, ?_, (ih (by omega) lens).2
        ⟨entries, rfl, Nat.succ.inj length, valids, others, ?_⟩⟩
      · intro es mem
        rw [ends_eq es mem, next, Nat.sub_add_comm le]
        rfl
      · intro es mem
        obtain ⟨es', found, rfl⟩ := Option.map_eq_some_iff.1 mem
        rw [ends_eq es' found, next, Nat.sub_add_comm le]
        rfl

/-- The bytes between the beginning and a cursor are those before its position. -/
lemma take_position {data xs : List UInt8} (between : Between ⟨data, 0⟩ xs c) :
    data.take c.position = xs := by
  have rest := between.rest_eq
  have position := between.position_eq
  dsimp only at rest position
  rw [position, rest, Nat.zero_add, List.take_left]

/-- The checksum is read if there is one, and then nothing is left. -/
lemma scanEnd_eq_ok {α : Type} {data : List UInt8} {checksum : Bool} {a b : α} :
    (if checksum = true then scanChecksum data >>= fun _ => Scan.finish >>= fun _ => pure a
        else Scan.finish >>= fun _ => pure a : Scan α) c = .ok (b, c') ↔
      a = b ∧ c'.rest = [] ∧
        Between c (if checksum then checksumBytes (data.take c.position) else []) c' := by
  cases checksum with
  | true =>
    simp only [if_true, Scan.bind_eq_ok, scanChecksum_eq_ok, Scan.finish_eq_ok, Scan.pure_eq_ok]
    constructor
    · rintro ⟨_, _, between, _, _, ⟨done, rfl⟩, rfl, rfl⟩
      exact ⟨rfl, done, between⟩
    · rintro ⟨rfl, done, between⟩
      exact ⟨(), c', between, (), c', ⟨done, rfl⟩, rfl, rfl⟩
  | false =>
    simp only [Bool.false_eq_true, if_false, Scan.bind_eq_ok, Scan.finish_eq_ok, Scan.pure_eq_ok,
      Scan.between_nil]
    constructor
    · rintro ⟨_, _, ⟨done, rfl⟩, rfl, rfl⟩
      exact ⟨rfl, done, rfl⟩
    · rintro ⟨rfl, done, rfl⟩
      exact ⟨(), c, ⟨done, rfl⟩, rfl, rfl⟩

/-- The bytes of a valid image are scanned. -/
lemma Image.Valid.scan {limits : Limits} {i : Image} (valid : i.Valid limits) :
    Bag.scan i.bytes limits ⟨i.bytes, 0⟩ =
      .ok ((i.roots, i.entries.map Entry.record), ⟨[], i.bytes.length⟩) := by
  have all : Between ⟨i.bytes, 0⟩ i.bytes ⟨[], i.bytes.length⟩ :=
    ⟨(List.append_nil _).symm, (Nat.zero_add _).symm⟩
  -- cursors stand between the header, the index, the records and the checksum
  obtain ⟨c₃, front, b₄⟩ := Scan.between_append.1 all
  obtain ⟨c₂, b, b₃⟩ := Scan.between_append.1 front
  obtain ⟨c₁, b₁, b₂⟩ := Scan.between_append.1 b
  have lens : ∀ es ∈ i.ends, es.length = i.entries.length := by
    intro es mem
    rw [valid.ends_eq es mem, length_endOffsets, Image.chunks, List.length_map]
  have left : i.header.required ≤ c₁.rest.length := by
    have length := congrArg List.length b₁.rest_eq
    rw [valid.length_bytes, List.length_append] at length
    omega
  simp only [Bag.scan, Scan.bind_eq_ok, Header.scan_eq_ok, Scan.ensure_eq_ok, scanIndex_eq_ok,
    Scan.position_eq_ok, Scan.guard_eq_ok, ne_eq, Decidable.not_not, scanEnd_eq_ok]
  refine ⟨i.header, c₁, ⟨valid.header, b₁⟩, (), c₁, ⟨left, rfl⟩, i.ends, c₂,
    ⟨i.index, valid.index_lt, b₂, valid.length_index, rfl⟩, _, c₂, ⟨rfl, rfl⟩, _, c₃,
    (scanRecords_eq_ok (Nat.le_refl _) lens).2 ⟨i.entries, rfl, rfl, valid.entries, b₃, ?_⟩, _, c₃,
    ⟨rfl, rfl⟩, ?_, ⟨rfl, trivial, ?_⟩⟩
  · rw [Nat.sub_self]
    exact valid.ends_eq
  · rw [b₃.position_eq, Nat.add_sub_cancel_left]
    rfl
  · rw [take_position front]
    exact b₄

/-- Bytes that are scanned are those of a valid image. -/
lemma exists_image {data : List UInt8} {limits : Limits} {roots : List Nat} {records : List Record}
    (e : scan data limits ⟨data, 0⟩ = .ok ((roots, records), c')) :
    ∃ i : Image, i.Valid limits ∧ i.bytes = data ∧ i.roots = roots ∧
      i.entries.map Entry.record = records := by
  simp only [scan, Scan.bind_eq_ok, Header.scan_eq_ok, Scan.ensure_eq_ok, scanIndex_eq_ok,
    Scan.position_eq_ok, Scan.guard_eq_ok, ne_eq, Decidable.not_not, scanEnd_eq_ok, Prod.mk.injEq] at e
  obtain ⟨⟨o, refSize, offsetSize, n, total, hroots⟩, c₁, ⟨acceptable, b₁⟩, _, _, ⟨_, rfl⟩, ends, c₂,
    ⟨index, fits, b₂, count, rfl⟩, _, _, ⟨rfl, rfl⟩, _, c₃, run, _, _, ⟨rfl, rfl⟩, size, ⟨rfl, rfl⟩,
    done, b₄⟩ := e
  dsimp only at fits b₂ count run size b₄
  have lens : ∀ es ∈ (if o.index then some (index.map (Image.offset o)) else none),
      es.length = n := by
    cases flag : o.index with
    | true =>
      rintro _ ⟨⟩
      rw [List.length_map, count, if_pos flag]
    | false => rintro _ ⟨⟩
  obtain ⟨entries, rfl, rfl, valids, b₃, ends_eq⟩ := (scanRecords_eq_ok (Nat.le_refl _) lens).1 run
  rw [Nat.sub_self] at ends_eq
  -- what was read is an image, and its counts and sizes are those that the header gives
  let i : Image := ⟨o, refSize, offsetSize, entries, hroots, index⟩
  have header : i.header = ⟨o, refSize, offsetSize, entries.length, total, hroots⟩ := by
    have total_eq : i.chunks.flatten.length = total := by
      rw [← size, b₃.position_eq, Nat.add_sub_cancel_left]
      rfl
    rw [Image.header, total_eq]
  have b : Between ⟨data, 0⟩ i.body c₃ := by
    rw [Image.body, header]
    exact Scan.between_append.2 ⟨c₂, Scan.between_append.2 ⟨c₁, b₁, b₂⟩, b₃⟩
  rw [take_position b] at b₄
  have all : Between ⟨data, 0⟩ i.bytes c' := Scan.between_append.2 ⟨c₃, b, b₄⟩
  refine ⟨i, ⟨⟨fits, count, ends_eq⟩, header ▸ acceptable, valids⟩, ?_, rfl, rfl⟩
  rw [← List.append_nil i.bytes, ← done]
  exact all.rest_eq.symm

/-- Nothing is read from bytes that are not those of a valid image. -/
lemma exists_image_of_decode {bytes : List UInt8} {limits : Limits} {roots : List Cell}
    (e : decode bytes limits = .ok roots) : ∃ i : Image, i.Valid limits ∧ i.bytes = bytes := by
  rw [decode] at e
  obtain ⟨⟨⟨indexes, records⟩, c⟩, scanned, _⟩ := Outcome.bind_eq_ok.1 e
  obtain ⟨i, valid, same, _⟩ := exists_image scanned
  exact ⟨i, valid, same⟩

/-- Bytes are scanned when they are those of a valid image, whose roots and records are then
read. -/
theorem scan_eq_ok {data : List UInt8} {limits : Limits} {roots : List Nat} {records : List Record} :
    (∃ c', scan data limits ⟨data, 0⟩ = .ok ((roots, records), c')) ↔
      ∃ i : Image, i.Valid limits ∧ i.bytes = data ∧ i.roots = roots ∧
        i.entries.map Entry.record = records := by
  constructor
  · rintro ⟨c', e⟩
    exact exists_image e
  · rintro ⟨i, valid, rfl, rfl, rfl⟩
    exact ⟨_, valid.scan⟩

end CellBag.Bag
