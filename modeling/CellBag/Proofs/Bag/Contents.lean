import CellBag.Proofs.Bag.Assembly
import CellBag.Proofs.Bag.Image
import Mathlib

/-!
# Contents of a bag

A `Contents` is a bag apart from its bytes, whoever has written it: sizes of numbers need not be the
smallest ones, records may repeat fingerprints, stand in the table twice or be named by nothing, and
cache bits are arbitrary. Bytes are read exactly when they are those of well formed contents within
the limits whose records make cells (`decode_eq_ok`).
-/

namespace CellBag.Bag

/-- A bag apart from its bytes. A cache bit belongs to every number of the index, if the index has
bits to spare. -/
structure Contents where
  options : Options
  refSize : Nat
  offsetSize : Nat
  entries : List Entry
  roots : List Nat
  cacheBits : List Bool

namespace Contents

/-- The bytes of the records, one by one. -/
def chunks (b : Contents) : List (List UInt8) :=
  b.entries.map (Entry.layout b.refSize)

/-- The size of the records. -/
def dataSize (b : Contents) : Nat := b.chunks.flatten.length

/-- The numbers of the index: where each record ends, above its cache bit if there is one. -/
def index (b : Contents) : List Nat :=
  if b.options.index then
    if b.options.cacheBits then
      ((endOffsets 0 b.chunks).zip b.cacheBits).map fun e => 2 * e.1 + e.2.toNat
    else endOffsets 0 b.chunks
  else []

/-- What stands before the checksum. -/
def body (b : Contents) : List UInt8 :=
  Octets.ofNat 4 magic ++ [Header.flags b.options b.refSize] ++ [UInt8.ofNat b.offsetSize] ++
    Octets.ofNat b.refSize b.entries.length ++ Octets.ofNat b.refSize b.roots.length ++
    Octets.ofNat b.refSize 0 ++ Octets.ofNat b.offsetSize b.dataSize ++
    b.roots.flatMap (Octets.ofNat b.refSize) ++ b.index.flatMap (Octets.ofNat b.offsetSize) ++
    b.chunks.flatten

/-- The bytes of a bag. -/
def bytes (b : Contents) : List UInt8 :=
  b.body ++ if b.options.checksum then checksumBytes b.body else []

/-- What every bag keeps to: sizes of numbers that hold what is written with them, roots and
references that are cells of the bag, references that go forward, and as many bytes of stored
fingerprints as a record has levels, unless it is a pruned branch. -/
structure WellFormed (b : Contents) : Prop where
  refSize : 1 ≤ b.refSize ∧ b.refSize ≤ 4
  offsetSize : 1 ≤ b.offsetSize ∧ b.offsetSize ≤ 8
  cellCount_lt : b.entries.length < 256 ^ b.refSize
  dataSize_lt : b.dataSize < 256 ^ b.offsetSize
  index_lt : ∀ n ∈ b.index, n < 256 ^ b.offsetSize
  roots_ne : b.roots ≠ []
  rootCount_le : b.roots.length ≤ b.entries.length
  roots_lt : ∀ n ∈ b.roots, n < b.entries.length
  cache : b.options.cacheBits = true → b.options.index = true
  length_cacheBits : b.cacheBits.length = if b.options.cacheBits then b.entries.length else 0
  refs_le : ∀ e ∈ b.entries, e.record.refs.length ≤ 4
  refs_lt : ∀ e ∈ b.entries, ∀ n ∈ e.record.refs, n < b.entries.length
  forward : Forward 0 (b.entries.map Entry.record)
  stored : ∀ e ∈ b.entries, ∀ xs ∈ e.stored, xs.length = 34 * (e.record.mask.level + 1) ∧
    ¬ (e.record.exotic = true ∧ e.record.refs = [] ∧ e.record.mask ≠ .empty)

/-- A bag that has no more cells and roots and no larger records than the limits allow. -/
structure Within (b : Contents) (limits : Limits) : Prop where
  cells : b.entries.length ≤ limits.maxCells
  roots : b.roots.length ≤ limits.maxRoots
  dataSize : b.dataSize ≤ limits.maxTotalSize

/-- The image of a bag. -/
def image (b : Contents) : Image :=
  ⟨b.options, b.refSize, b.offsetSize, b.entries, b.roots, b.index⟩

/-- The image of the contents of a bag has their bytes. -/
lemma bytes_image (b : Contents) : b.image.bytes = b.bytes := by
  have e : b.image.body = b.body := by
    simp only [Image.body, Header.layout, body, List.append_assoc]
    rfl
  rw [Image.bytes, e]
  rfl

/-- The numbers of an index stand for the ends of the records, whatever the cache bits are. -/
lemma map_offset_index {b : Contents} (flag : b.options.index = true)
    (length : b.cacheBits.length = if b.options.cacheBits then b.entries.length else 0) :
    b.index.map (Image.offset b.options) = endOffsets 0 b.chunks := by
  cases cache : b.options.cacheBits with
  | false =>
    have same : Image.offset b.options = id := funext fun n => if_neg (by simp [cache])
    rw [index, if_pos flag, if_neg (by simp [cache]), same, List.map_id]
  | true =>
    have half : Image.offset b.options ∘ (fun e : Nat × Bool => 2 * e.1 + e.2.toNat) = Prod.fst := by
      funext e
      have lt := e.2.toNat_lt
      rw [Function.comp_apply, Image.offset, if_pos cache]
      omega
    have le : (endOffsets 0 b.chunks).length ≤ b.cacheBits.length := by
      rw [length, if_pos cache, length_endOffsets, chunks, List.length_map]
    rw [index, if_pos flag, if_pos cache, List.map_map, half, List.map_fst_zip le]

/-- An index has one entry for each cell, if there is one. -/
lemma length_index {b : Contents}
    (length : b.cacheBits.length = if b.options.cacheBits then b.entries.length else 0) :
    b.index.length = if b.options.index then b.entries.length else 0 := by
  cases flag : b.options.index with
  | false => rw [index, if_neg (by simp [flag])]; rfl
  | true =>
    have same := congrArg List.length (map_offset_index flag length)
    rw [List.length_map, length_endOffsets, chunks, List.length_map] at same
    exact same

/-- A record has at least its descriptors, and at most four stored fingerprints, 128 bytes of data
and four references of four bytes besides. -/
lemma WellFormed.entry_size {b : Contents} (wf : b.WellFormed) {e : Entry} (mem : e ∈ b.entries) :
    minRecordSize ≤ (e.layout b.refSize).length ∧ (e.layout b.refSize).length ≤ maxRecordSize := by
  have bits : e.record.bits.length ≤ 1023 := e.record.bits.length_le
  have refs : e.record.refs.length * b.refSize ≤ 4 * 4 :=
    Nat.mul_le_mul (wf.refs_le e mem) wf.refSize.2
  have level := e.record.mask.level_le
  have stored : (e.stored.getD []).length ≤ 34 * (3 + 1) := by
    cases es : e.stored with
    | none => exact Nat.zero_le _
    | some xs =>
      have len := (wf.stored e mem xs es).1
      rw [Option.getD_some]
      omega
  rw [Entry.length_layout]
  simp only [minRecordSize, maxRecordSize, Binary.octetsFor]
  omega

/-- The records of a bag take no less and no more room than records can. -/
lemma WellFormed.dataSize_bounds {b : Contents} (wf : b.WellFormed) :
    b.entries.length * minRecordSize ≤ b.dataSize ∧
      b.dataSize ≤ b.entries.length * maxRecordSize := by
  have sum : b.dataSize = (b.entries.map fun e => (e.layout b.refSize).length).sum := by
    rw [dataSize, List.length_flatten, chunks, List.map_map]
    rfl
  rw [sum]
  constructor
  · have h := List.sum_le_sum fun e (mem : e ∈ b.entries) => (wf.entry_size mem).1
    rwa [List.map_const', List.sum_replicate_nat] at h
  · have h := List.sum_le_sum fun e (mem : e ∈ b.entries) => (wf.entry_size mem).2
    rwa [List.map_const', List.sum_replicate_nat] at h

/-- A well formed bag within the limits has a valid image. -/
lemma WellFormed.valid {b : Contents} {limits : Limits} (wf : b.WellFormed)
    (within : b.Within limits) : b.image.Valid limits := by
  have bounds := wf.dataSize_bounds
  have fits : ∀ {n}, n < b.entries.length → n < 256 ^ b.refSize := fun lt =>
    Nat.lt_trans lt wf.cellCount_lt
  refine ⟨⟨wf.index_lt, length_index wf.length_cacheBits, fun es mem => ?_⟩,
    ⟨⟨wf.cellCount_lt, ?_, wf.dataSize_lt, fun n mem => fits (wf.roots_lt n mem)⟩, wf.cache,
      wf.refSize.1, wf.refSize.2, wf.offsetSize.1, wf.offsetSize.2, within.cells, wf.roots_ne,
      Nat.le_min.2 ⟨within.roots, wf.rootCount_le⟩, bounds.1,
      Nat.le_min.2 ⟨bounds.2, within.dataSize⟩, wf.roots_lt⟩, fun e mem => ?_⟩
  · cases flag : b.options.index with
    | false =>
      have none : b.image.ends = Option.none := if_neg (by simp [image, flag])
      rw [none] at mem
      cases mem
    | true =>
      have all : b.image.ends = some (endOffsets 0 b.chunks) := by
        rw [← map_offset_index flag wf.length_cacheBits]
        exact if_pos flag
      rw [all] at mem
      exact (Option.some.inj mem).symm
  · exact Nat.lt_of_le_of_lt wf.rootCount_le wf.cellCount_lt
  · refine ⟨wf.refs_le e mem, fun n ref => fits (wf.refs_lt e mem n ref), fun xs stored => ?_⟩
    obtain ⟨len, normal⟩ := wf.stored e mem xs stored
    refine ⟨len, fun ⟨exotic, refs, level⟩ => normal ⟨exotic, List.length_eq_zero_iff.1 refs, ?_⟩⟩
    intro empty
    rw [LevelMask.level_eq_zero.2 empty] at level
    exact Nat.lt_irrefl 0 level

/-- The cache bits that the numbers of an index have below the ends of the records. -/
def cacheBitsOf (i : Image) : List Bool :=
  if i.options.cacheBits then i.index.map fun n => decide (n % 2 = 1) else []

/-- The contents of an image. -/
def ofImage (i : Image) : Contents :=
  ⟨i.options, i.refSize, i.offsetSize, i.entries, i.roots, cacheBitsOf i⟩

/-- There is one cache bit for each cell, if there are any. -/
lemma length_cacheBitsOf {i : Image} (valid : i.ValidIndex)
    (cache : i.options.cacheBits = true → i.options.index = true) :
    (cacheBitsOf i).length = if i.options.cacheBits then i.entries.length else 0 := by
  cases flag : i.options.cacheBits with
  | false =>
    rw [cacheBitsOf, if_neg (by simp [flag])]
    rfl
  | true =>
    rw [cacheBitsOf, if_pos flag, List.length_map, valid.length_index, if_pos (cache flag)]
    rfl

/-- The index of an image is put together again from the ends of the records and the cache bits. -/
lemma index_ofImage {i : Image} (valid : i.ValidIndex) : (ofImage i).index = i.index := by
  cases flag : i.options.index with
  | false =>
    have none := valid.length_index
    rw [if_neg (by simp [flag]), List.length_eq_zero_iff] at none
    rw [none]
    exact if_neg (by simp [ofImage, flag])
  | true =>
    have ends : endOffsets 0 i.chunks = i.index.map (Image.offset i.options) :=
      (valid.ends_eq _ (if_pos flag)).symm
    have unfolded : (ofImage i).index = if i.options.cacheBits then
        ((endOffsets 0 i.chunks).zip (cacheBitsOf i)).map fun e => 2 * e.1 + e.2.toNat
        else endOffsets 0 i.chunks := if_pos flag
    rw [unfolded, ends]
    cases cache : i.options.cacheBits with
    | false =>
      have same : Image.offset i.options = id := funext fun n => if_neg (by simp [cache])
      rw [if_neg Bool.false_ne_true, same, List.map_id]
    | true =>
      have parts : (fun e : Nat × Bool => 2 * e.1 + e.2.toNat) ∘
          (fun n => (Image.offset i.options n, decide (n % 2 = 1))) = id := by
        funext n
        rw [Function.comp_apply, Image.offset, if_pos cache]
        rcases Nat.mod_two_eq_zero_or_one n with even | odd
        · simp only [even, id]
          show 2 * (n / 2) + 0 = n
          omega
        · simp only [odd, id]
          show 2 * (n / 2) + 1 = n
          omega
      rw [if_pos rfl, cacheBitsOf, if_pos cache, List.zip_map', List.map_map, parts, List.map_id]

/-- A valid image whose references are cells of the bag further on is that of a well formed bag. -/
lemma exists_contents {i : Image} {limits : Limits} (valid : i.Valid limits)
    (refs_lt : ∀ e ∈ i.entries, ∀ n ∈ e.record.refs, n < i.entries.length)
    (forward : Forward 0 (i.entries.map Entry.record)) :
    ∃ b : Contents, b.WellFormed ∧ b.Within limits ∧ b.image = i := by
  have header := valid.header
  have same := index_ofImage valid.toValidIndex
  refine ⟨ofImage i, ?_, ?_, by rw [image, same]; rfl⟩
  · refine ⟨⟨header.refSize_pos, header.refSize_le⟩, ⟨header.offsetSize_pos, header.offsetSize_le⟩,
      header.fits.cellCount_lt, header.fits.totalSize_lt, ?_, header.roots_ne,
      (Nat.le_min.1 header.rootCount_le).2, header.roots_lt, header.cache,
      length_cacheBitsOf valid.toValidIndex header.cache,
      fun e mem => (valid.entries e mem).refs_le, refs_lt, forward, fun e mem xs stored => ?_⟩
    · rw [same]
      exact valid.index_lt
    · obtain ⟨len, normal⟩ := (valid.entries e mem).stored xs stored
      refine ⟨len, fun ⟨exotic, refs, nonempty⟩ => normal ⟨exotic, by rw [refs]; rfl, ?_⟩⟩
      exact Nat.pos_of_ne_zero fun zero => nonempty (LevelMask.level_eq_zero.1 zero)
  · exact ⟨header.cellCount_le, (Nat.le_min.1 header.rootCount_le).1,
      (Nat.le_min.1 header.totalSize_le).2⟩

end Contents

/-- What is read from bytes are the cells that the records at the roots are made into, when the bytes
are those of a well formed bag within the limits, of whose records cells with the masks that they
say can be made; nothing is read from any other bytes. -/
theorem decode_eq_ok {data : List UInt8} {limits : Limits} {roots : List Cell} :
    decode data limits = .ok roots ↔
      ∃ b : Contents, b.WellFormed ∧ b.Within limits ∧ b.bytes = data ∧
        ∃ cells, List.Forall₂ (Record.Makes cells) (b.entries.map Entry.record) cells ∧
          List.Forall₂ (fun n c => cells[n]? = some c) b.roots roots := by
  simp only [decode, Outcome.bind_eq_ok, Outcome.mapM_eq_ok]
  constructor
  · rintro ⟨⟨⟨indexes, records⟩, rest⟩, run, made, em, found⟩
    obtain ⟨i, valid, rfl, rfl, rfl⟩ := scan_eq_ok.1 ⟨rest, run⟩
    obtain ⟨cells, rfl, forward, makes⟩ := Table.cells_eq_ok.1 em
    have count := makes.length_eq
    have refs_lt : ∀ e ∈ i.entries, ∀ n ∈ e.record.refs, n < i.entries.length := by
      intro e mem n ref
      obtain ⟨_, _, m⟩ := Outcome.exists_of_mem makes.flip (List.mem_map_of_mem mem)
      obtain ⟨refs, named, _⟩ := m.finalize
      obtain ⟨_, _, here⟩ := Outcome.exists_of_mem named.flip ref
      rw [← List.length_map Entry.record, count]
      exact (List.getElem?_eq_some_iff.1 here).1
    obtain ⟨b, wf, within, rfl⟩ := Contents.exists_contents valid refs_lt forward
    exact ⟨b, wf, within, b.bytes_image.symm, cells, makes, found.imp fun n c e => root_eq_ok.1 e⟩
  · rintro ⟨b, wf, within, rfl, cells, makes, named⟩
    obtain ⟨rest, run⟩ := scan_eq_ok.2 ⟨b.image, wf.valid within, rfl, rfl, rfl⟩
    rw [b.bytes_image] at run
    exact ⟨_, run, _, Table.cells_eq_ok.2 ⟨cells, rfl, wf.forward, makes⟩,
      named.imp fun n c e => root_eq_ok.2 e⟩

end CellBag.Bag
