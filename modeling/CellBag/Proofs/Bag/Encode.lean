import CellBag.Proofs.Bag.Image
import CellBag.Proofs.Bag.Rebuild
import Mathlib

/-!
# Written bags

The fields of a bag are wide enough for their numbers (`lt_byteWidth`) and as narrow as that allows
(`byteWidth_le`). What is written for the records of a table is an image (`encode_eq_ok`), which is
valid within every limits that its counts and its size do not exceed (`IsTable.valid`).
-/

namespace CellBag.Bag

section Width
variable {n k : Nat}

/-- A number fits into as many bytes as it is said to take. -/
lemma lt_byteWidth (n : Nat) : n < 256 ^ byteWidth n := by
  have bits : Binary.width n ≤ 8 * byteWidth n := by
    simp only [byteWidth, Binary.octetsFor]
    omega
  calc n < 2 ^ Binary.width n := Binary.lt_two_pow_width n
    _ ≤ 2 ^ (8 * byteWidth n) := Nat.pow_le_pow_right (by decide) bits
    _ = 256 ^ byteWidth n := Nat.pow_mul 2 8 _

/-- No field that a number fits is narrower than its width. -/
lemma byteWidth_le (pos : 0 < k) (lt : n < 256 ^ k) : byteWidth n ≤ k := by
  rw [show 256 = 2 ^ 8 from rfl, ← Nat.pow_mul] at lt
  have bits : Binary.width n ≤ 8 * k := Binary.width_le lt
  simp only [byteWidth, Binary.octetsFor]
  omega

/-- Every number takes a byte. -/
lemma byteWidth_pos (n : Nat) : 0 < byteWidth n :=
  Nat.lt_of_lt_of_le Nat.one_pos (Nat.le_max_left _ _)

end Width

section Offsets
variable {o : Options}

/-- No end is behind the end of all records. -/
lemma le_of_mem_endOffsets {start n : Nat} {chunks : List (List UInt8)}
    (mem : n ∈ endOffsets start chunks) : n ≤ start + chunks.flatten.length := by
  induction chunks generalizing start with
  | nil => cases mem
  | cons chunk chunks ih =>
    rw [List.flatten_cons, List.length_append]
    rcases List.mem_cons.1 mem with rfl | mem
    · omega
    · have le := ih mem
      omega

/-- The number of an index stands for the offset that it was made of. -/
@[simp]
lemma Image.offset_indexEntry (o : Options) (n : Nat) : Image.offset o (indexEntry o n) = n := by
  rw [Image.offset, indexEntry]
  split
  · omega
  · rfl

/-- A larger offset has a larger entry in the index. -/
lemma indexEntry_le {m n : Nat} (le : m ≤ n) : indexEntry o m ≤ indexEntry o n := by
  rw [indexEntry, indexEntry]
  split
  · omega
  · exact le

/-- An entry of the index is no smaller than its offset. -/
lemma le_indexEntry (n : Nat) : n ≤ indexEntry o n := by
  rw [indexEntry]
  split
  · omega
  · exact Nat.le_refl n

end Offsets

section Size
variable {size refs : Nat} {bits : Bits}

/-- The size of a record with this data and so many references of `size` bytes. -/
def recordSize (size : Nat) (bits : Bits) (refs : Nat) : Nat :=
  2 + Binary.octetsFor bits.length + refs * size

/-- No record is smaller than the least one. -/
lemma le_recordSize : minRecordSize ≤ recordSize size bits refs := by
  simp only [minRecordSize, recordSize]
  omega

/-- No record is larger than the largest one. -/
lemma recordSize_le (few : refs ≤ Cell.maxRefs) (narrow : size ≤ maxRefSize) :
    recordSize size bits refs ≤ maxRecordSize := by
  have bits : bits.length ≤ 1023 := bits.length_le
  have refs : refs * size ≤ 4 * 4 := Nat.mul_le_mul few narrow
  simp only [maxRecordSize, recordSize, Binary.octetsFor]
  omega

end Size

/-- The image of the records of a table and the indexes of its roots, with fields as narrow as they
can be. -/
def Image.ofTable (o : Options) (records : List Record) (roots : List Nat) : Image :=
  let refSize := byteWidth records.length
  let entries := records.map fun r => ⟨r, none⟩
  let chunks := entries.map (Entry.layout refSize)
  ⟨o, refSize, byteWidth (indexEntry o chunks.flatten.length), entries, roots,
    if o.index then (endOffsets 0 chunks).map (indexEntry o) else []⟩

namespace Image
variable {o : Options} {records : List Record} {roots : List Nat}

/-- The index of a table is written into fields that all its numbers fit. -/
lemma ofTable_validIndex : (ofTable o records roots).ValidIndex := by
  have inverse : offset o ∘ indexEntry o = id := funext (offset_indexEntry o)
  by_cases flag : o.index = true
  · refine ⟨fun n mem => ?_, ?_, fun es mem => ?_⟩
    · simp only [ofTable, if_pos flag] at mem
      obtain ⟨m, found, rfl⟩ := List.mem_map.1 mem
      have le := le_of_mem_endOffsets found
      rw [Nat.zero_add] at le
      exact Nat.lt_of_le_of_lt (indexEntry_le le) (lt_byteWidth _)
    · simp [ofTable, flag]
    · have all : (ofTable o records roots).ends =
          some (endOffsets 0 (ofTable o records roots).chunks) := by
        simp only [ends, ofTable, chunks, if_pos flag, List.map_map, inverse, List.map_id]
      rw [all] at mem
      exact (Option.some.inj mem).symm
  · have none : (ofTable o records roots).index = [] := if_neg flag
    refine ⟨?_, ?_, fun es mem => ?_⟩
    · rw [none]
      exact List.forall_mem_nil _
    · rw [none]
      exact (if_neg flag).symm
    · rw [show (ofTable o records roots).ends = Option.none from if_neg flag] at mem
      cases mem

/-- The index of a table is written if there is one. -/
lemma ofTable_index :
    indexBytes o (byteWidth (indexEntry o (ofTable o records roots).chunks.flatten.length))
      (ofTable o records roots).chunks =
    .ok ((ofTable o records roots).index.flatMap
      (Octets.ofNat (ofTable o records roots).offsetSize)) := by
  rw [indexBytes]
  by_cases flag : o.index = true
  · have e : (ofTable o records roots).index =
        (endOffsets 0 (ofTable o records roots).chunks).map (indexEntry o) := if_pos flag
    rw [if_pos flag, ← e]
    exact fields_eq_ok.2 ⟨ofTable_validIndex.index_lt, rfl⟩
  · have e : (ofTable o records roots).index = [] := if_neg flag
    rw [if_neg flag, e]
    rfl

/-- The header of a table counts its records and their bytes. -/
lemma ofTable_header :
    (ofTable o records roots).header = ⟨o, byteWidth records.length,
      byteWidth (indexEntry o (ofTable o records roots).chunks.flatten.length), records.length,
      (ofTable o records roots).chunks.flatten.length, roots⟩ := by
  rw [header, show (ofTable o records roots).entries.length = records.length from List.length_map _]
  rfl

/-- The records of a table take the sum of their sizes. -/
lemma length_ofTable_chunks :
    (ofTable o records roots).chunks.flatten.length =
      (records.map fun r => recordSize (byteWidth records.length) r.bits r.refs.length).sum := by
  rw [List.length_flatten, chunks, ofTable, List.map_map, List.map_map]
  congr 1
  apply List.map_congr_left
  intro r _
  exact Entry.length_layout _ _

/-- The records of a table take at least the room of so many least ones. -/
lemma le_length_ofTable_chunks :
    records.length * minRecordSize ≤ (ofTable o records roots).chunks.flatten.length := by
  rw [length_ofTable_chunks]
  have h := List.sum_le_sum fun r (_ : r ∈ records) =>
    @le_recordSize (byteWidth records.length) r.refs.length r.bits
  rwa [List.map_const', List.sum_replicate_nat] at h

/-- The records of a table take at most the room of so many largest ones. -/
lemma length_ofTable_chunks_le (few : byteWidth records.length ≤ maxRefSize)
    (refs_le : ∀ r ∈ records, r.refs.length ≤ Cell.maxRefs) :
    (ofTable o records roots).chunks.flatten.length ≤ records.length * maxRecordSize := by
  rw [length_ofTable_chunks]
  have h := List.sum_le_sum fun r (mem : r ∈ records) =>
    @recordSize_le _ _ r.bits (refs_le r mem) few
  rwa [List.map_const', List.sum_replicate_nat] at h

/-- The offsets of a table are not too wide. -/
lemma ofTable_offsetSize_le (few : byteWidth records.length ≤ maxRefSize)
    (refs_le : ∀ r ∈ records, r.refs.length ≤ Cell.maxRefs) :
    byteWidth (indexEntry o (ofTable o records roots).chunks.flatten.length) ≤ maxOffsetSize := by
  refine byteWidth_le (by decide) ?_
  have upper : (ofTable o records roots).chunks.flatten.length ≤ _ :=
    length_ofTable_chunks_le few refs_le
  have lt : records.length < 256 ^ 4 :=
    Nat.lt_of_lt_of_le (lt_byteWidth _) (Nat.pow_le_pow_right (by decide) few)
  simp only [maxRecordSize, maxOffsetSize] at upper ⊢
  rw [indexEntry]
  split <;> omega

/-- The sizes in the header of a table fit their fields. -/
lemma ofTable_sized (few : byteWidth records.length ≤ maxRefSize)
    (refs_le : ∀ r ∈ records, r.refs.length ≤ Cell.maxRefs)
    (fits : (ofTable o records roots).header.Fits) : (ofTable o records roots).header.Sized :=
  ⟨fits, Nat.lt_of_le_of_lt few (by decide),
    Nat.lt_of_le_of_lt (@ofTable_offsetSize_le o records roots few refs_le) (by decide)⟩

end Image

/-- What holds of the records of a table and the indexes of its roots: there are not too many
cells, and references and roots are among them. -/
structure IsTable (records : List Record) (roots : List Nat) : Prop where
  few : byteWidth records.length ≤ maxRefSize
  refs_le : ∀ r ∈ records, r.refs.length ≤ Cell.maxRefs
  refs_lt : ∀ r ∈ records, ∀ n ∈ r.refs, n < records.length
  roots_lt : ∀ n ∈ roots, n < records.length

namespace IsTable
variable {o : Options} {records : List Record} {roots : List Nat}

/-- The number of a record fits into the width of references. -/
lemma fits_of_lt {n : Nat} (lt : n < records.length) : n < 256 ^ byteWidth records.length :=
  Nat.lt_trans lt (lt_byteWidth _)

/-- The header of a table fits, if the roots are counted in a field as wide as the cells are. -/
lemma header_fits (t : IsTable records roots)
    (count : roots.length < 256 ^ byteWidth records.length) :
    (Image.ofTable o records roots).header.Fits := by
  rw [Image.ofTable_header]
  refine ⟨lt_byteWidth _, count, ?_, fun n mem => fits_of_lt (t.roots_lt n mem)⟩
  exact Nat.lt_of_le_of_lt (le_indexEntry _) (lt_byteWidth _)

/-- The image of a table is valid within limits that its counts and its size do not exceed. -/
theorem valid {limits : Limits} (t : IsTable records roots)
    (cache : o.cacheBits = true → o.index = true) (ne : roots ≠ [])
    (count : roots.length ≤ min limits.maxRoots records.length)
    (cells : records.length ≤ limits.maxCells)
    (size : (Image.ofTable o records roots).chunks.flatten.length ≤ limits.maxTotalSize) :
    (Image.ofTable o records roots).Valid limits := by
  refine ⟨Image.ofTable_validIndex, ?_, ?_⟩
  · have lt : roots.length < 256 ^ byteWidth records.length :=
      Nat.lt_of_le_of_lt (Nat.le_trans count (Nat.min_le_right _ _)) (lt_byteWidth _)
    have fits := t.header_fits (o := o) lt
    have upper : (Image.ofTable o records roots).chunks.flatten.length ≤ _ :=
      Image.length_ofTable_chunks_le t.few t.refs_le
    rw [Image.ofTable_header] at fits ⊢
    exact ⟨fits, cache, byteWidth_pos _, t.few, byteWidth_pos _,
      @Image.ofTable_offsetSize_le o records roots t.few t.refs_le, cells, ne, count,
      Image.le_length_ofTable_chunks, Nat.le_min.2 ⟨upper, size⟩, t.roots_lt⟩
  · intro e he
    obtain ⟨r, mem, rfl⟩ := List.mem_map.1 he
    exact ⟨t.refs_le r mem, fun n h => fits_of_lt (t.refs_lt r mem n h), by rintro _ ⟨⟩⟩

end IsTable

/-- The records of a table are written one by one, if its references fit their fields. -/
lemma mapM_bytes_eq_ok {o : Options} {records : List Record} {indexes : List Nat}
    {chunks : List (List UInt8)} :
    records.mapM (Record.bytes (byteWidth records.length)) = .ok chunks ↔
      (∀ r ∈ records, ∀ n ∈ r.refs, n < 256 ^ byteWidth records.length) ∧
        chunks = (Image.ofTable o records indexes).chunks := by
  rw [Outcome.mapM_eq_ok, Image.chunks, Image.ofTable, List.map_map]
  simp only [Record.bytes_eq_ok, List.forall₂_and_left]
  refine and_congr_right fun _ => ?_
  rw [eq_comm, ← List.forall₂_eq_eq_eq (α := List UInt8), List.forall₂_map_left_iff]
  exact ⟨fun h => h.imp fun _ _ e => e.symm, fun h => h.imp fun _ _ e => e.symm⟩

/-- What is written for some roots is the image of their table, if its numbers fit their fields. -/
theorem encode_eq_ok {roots : List Cell} {o : Options} {bytes : List UInt8} :
    encode roots o = .ok bytes ↔
      (o.cacheBits = true → o.index = true) ∧ roots ≠ [] ∧ ∃ records indexes,
        (Table.ofRoots roots).mapM (Table.record (Table.positions (Table.ofRoots roots))) =
          .ok records ∧
        roots.mapM (Table.find (Table.positions (Table.ofRoots roots))) = .ok indexes ∧
        byteWidth records.length ≤ maxRefSize ∧
        (∀ r ∈ records, ∀ n ∈ r.refs, n < 256 ^ byteWidth records.length) ∧
        (Image.ofTable o records indexes).header.Fits ∧
        bytes = (Image.ofTable o records indexes).bytes := by
  have cacheIff : ¬ (o.cacheBits = true ∧ ¬ o.index = true) ↔
      (o.cacheBits = true → o.index = true) := by
    rw [not_and, not_not]
  have last (i : Image) : (pure (if i.options.checksum = true then i.body ++ checksumBytes i.body
      else i.body) : Except BagFault _) = .ok bytes ↔ bytes = i.bytes := by
    rw [Outcome.pure_eq_ok, Image.bytes, eq_comm]
    split
    · exact Iff.rfl
    · rw [List.append_nil]
  rw [encode]
  simp only [Outcome.throw_bind, Outcome.guard_eq_ok, Outcome.bind_eq_ok, cacheIff,
    List.isEmpty_iff]
  refine and_congr_right fun _ => and_congr_right fun _ => ?_
  constructor
  · rintro ⟨few, records, er, chunks, ec, indexes, ei, header, eh, index, ex, e⟩
    rw [(Outcome.mapM_eq_ok.1 er).length_eq] at few ec eh
    obtain ⟨refs, rfl⟩ := (@mapM_bytes_eq_ok o records indexes chunks).1 ec
    rw [← Image.ofTable_header, Header.bytes_eq_ok] at eh
    obtain ⟨fits, rfl⟩ := eh
    rw [Image.ofTable_index] at ex
    cases ex
    exact ⟨records, indexes, er, ei, Nat.not_lt.1 few, refs, fits, (last _).1 e⟩
  · rintro ⟨records, indexes, er, ei, few, refs, fits, rfl⟩
    rw [(Outcome.mapM_eq_ok.1 er).length_eq]
    refine ⟨Nat.not_lt.2 few, records, er, _, mapM_bytes_eq_ok.2 ⟨refs, rfl⟩, indexes, ei, _, ?_, _,
      Image.ofTable_index, (last _).2 rfl⟩
    rw [← Image.ofTable_header]
    exact Header.bytes_eq_ok.2 ⟨fits, rfl⟩

/-- What is said of the bytes that are written for some roots: they are those of an image with an
index that belongs to it, with a record for each cell of the table, and with sizes that fit. -/
structure Written (roots : List Cell) (o : Options) (i : Image) : Prop where
  options_eq : i.options = o
  validIndex : i.ValidIndex
  sized : i.header.Sized
  rootCount_eq : i.roots.length = roots.length
  cellCount_eq : i.entries.length = (Table.ofRoots roots).length

/-- What is encoded are the bytes of an image that was written for the roots. -/
lemma exists_written {roots : List Cell} {o : Options} {bytes : List UInt8}
    (built : ∀ r ∈ roots, r.Built) (e : encode roots o = .ok bytes) :
    ∃ i, Written roots o i ∧ i.bytes = bytes := by
  obtain ⟨_, _, records, indexes, er, ei, few, _, fits, rfl⟩ := encode_eq_ok.1 e
  refine ⟨_, ⟨rfl, Image.ofTable_validIndex, Image.ofTable_sized few ?_ fits, ?_, ?_⟩, rfl⟩
  · intro r mem
    obtain ⟨c, mc, made⟩ := Outcome.exists_of_mem_mapM er mem
    obtain ⟨refs, found, same⟩ := Outcome.bind_eq_ok.1 made
    cases same
    obtain ⟨root, mr, sub⟩ := Cell.mem_subcellsOfAll.1 (Table.mem_subcellsOfAll_of_mem mc)
    show refs.length ≤ Cell.maxRefs
    rw [← (Outcome.mapM_eq_ok.1 found).length_eq]
    exact ((built root mr).subcell sub).wellFormed.refs_le
  · exact (Outcome.mapM_eq_ok.1 ei).length_eq.symm
  · rw [(Outcome.mapM_eq_ok.1 er).length_eq]
    exact List.length_map _

end CellBag.Bag
