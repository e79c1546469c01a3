import CellBag.Proofs.Builder.Writes
import CellBag.Proofs.Cell.Depth
import CellBag.Proofs.Snake

/-!
# Written chains

Bytes are cut into chunks, of which all but the last one are full (`Snake.chunked_chunks`), and each
chunk goes into a cell of its own, which refers to the next one (`Snake.Leads`). As each cell is one
level deeper than the next one, a chain has at most `Snake.maxLinks` cells: bytes that need more of
them are refused, and all others are written (`Snake.exists_ofBytes`, `Snake.ofBytes_of_lt`).
-/

namespace CellBag.Snake

/-- How many cells a chain has at most. -/
def maxLinks : Nat := 65536

/-- Chunks of which all but the last one are full, and none is empty. -/
inductive Chunked : List (List UInt8) → Prop where
  | nil : Chunked []
  | last {chunk} : chunk ≠ [] → chunk.length ≤ chunkSize → Chunked [chunk]
  | cons {chunk next more} :
    chunk.length = chunkSize →
    Chunked (next :: more) →
    Chunked (chunk :: next :: more)

/-- References lead along a chain of cells with these chunks, one in each, to a cell without
references. -/
inductive Leads : List Cell → List (List UInt8) → Prop where
  | nil : Leads [] []
  | cons {c chunk more} :
    c.isExotic = false →
    c.bits.toList = Octets.unpack chunk →
    Leads c.refs more →
    Leads [c] (chunk :: more)

section Chunks
variable {bytes : List UInt8} {count : Nat}

/-- There are as many chunks as are asked for. -/
lemma length_chunks (count : Nat) (bytes : List UInt8) : (chunks count bytes).length = count := by
  induction count generalizing bytes with
  | zero => rfl
  | succ count ih => rw [chunks, List.length_cons, ih]

/-- As many chunks as bytes need are all full but the last one. -/
lemma chunked_chunks (enough : bytes.length ≤ chunkSize * count)
    (least : chunkSize * count < bytes.length + chunkSize) :
    Chunked (chunks count bytes) ∧ (chunks count bytes).flatten = bytes := by
  induction count generalizing bytes with
  | zero =>
    have none : bytes = [] := List.eq_nil_of_length_eq_zero (Nat.le_zero.1 enough)
    rw [none]
    exact ⟨.nil, rfl⟩
  | succ count ih =>
    rw [Nat.mul_succ] at enough least
    have behind : (bytes.drop chunkSize).length = bytes.length - chunkSize := List.length_drop ..
    obtain ⟨chunked, parts⟩ := @ih (bytes.drop chunkSize) (by omega) (by omega)
    have all : (chunks (count + 1) bytes).flatten = bytes := by
      rw [chunks, List.flatten_cons, parts, List.take_append_drop]
    refine ⟨?_, all⟩
    cases count with
    | zero =>
      refine .last (fun none => ?_) (List.length_take_le _ _)
      have short := congrArg List.length none
      rw [List.length_take, List.length_nil] at short
      omega
    | succ count =>
      refine .cons ?_ chunked
      rw [Nat.mul_succ] at least
      rw [List.length_take]
      omega

/-- No chunk is longer than a link has room for. -/
lemma Chunked.length_le {cs : List (List UInt8)} (chunked : Chunked cs) :
    ∀ chunk ∈ cs, chunk.length ≤ chunkSize := by
  induction chunked with
  | nil => exact List.forall_mem_nil _
  | last _ le => exact List.forall_mem_singleton.2 le
  | cons full _ ih => exact List.forall_mem_cons.2 ⟨Nat.le_of_eq full, ih⟩

end Chunks

section Leads
variable {refs : List Cell} {c : Cell} {cs : List (List UInt8)}

/-- The links of a cell are its own bits and those of the chain behind it. -/
lemma Leads.links_eq_cons (behind : Leads c.refs cs) :
    links c = c.bits.toList :: c.refs.flatMap links := by
  obtain ⟨kind, bits, refs, mask, own⟩ := c
  change Leads refs cs at behind
  cases behind with
  | nil => rfl
  | cons _ _ _ => exact congrArg (bits.toList :: ·) (List.flatMap_singleton ..).symm

/-- The links of a chain are the bits of its chunks. -/
lemma Leads.links_eq (leads : Leads refs cs) : refs.flatMap links = cs.map Octets.unpack := by
  induction leads with
  | nil => rfl
  | cons _ data behind ih =>
    rw [List.flatMap_singleton, List.map_cons, ← data, ← ih]
    exact behind.links_eq_cons

end Leads

section Chain
variable {chunk : List UInt8} {refs : List Cell} {action : Store Unit}

/-- A link of a chain is a cell that is one deeper than what it refers to. -/
lemma toCell_link (writes : Store.Writes action (Octets.unpack chunk) refs)
    (le : chunk.length ≤ chunkSize) (few : refs.length ≤ Cell.maxRefs)
    (none : ∀ r ∈ refs, r.mask = .empty) :
    (∀ e, Cell.depthOver refs 0 = .error e → Store.toCell action = .error e) ∧
      ∀ depth, Cell.depthOver refs 0 = .ok depth → ∃ c, Store.toCell action = .ok c ∧
        c.isExotic = false ∧ c.bits.toList = Octets.unpack chunk ∧ c.refs = refs ∧
        c.mask = .empty ∧ c.depthAt 0 = depth := by
  have room : (Octets.unpack chunk).length ≤ Bits.capacity := by
    rw [Octets.length_unpack]
    simp only [chunkSize, Bits.capacity] at le ⊢
    omega
  obtain ⟨bits, data, made⟩ := writes.exists_toCell room few
  rw [made, Cell.finalize_of_no_levels bits few none]
  constructor
  · intro e failed
    rw [failed]
    rfl
  · intro depth deep
    rw [deep]
    refine ⟨_, rfl, rfl, data, rfl, rfl, ?_⟩
    rw [Cell.depthAt, Cell.fingerprint_of_not_pruned rfl, Cell.mask, LevelMask.hashIndex_zero]
    rfl

/-- A link is written as its bytes and the cell behind it. -/
lemma writes_link (chunk : List UInt8) (next : Cell) :
    Store.Writes (do Store.bytes chunk; Store.ref next) (Octets.unpack chunk) [next] := by
  have writes := (Store.writes_bytes chunk).bind (Store.writes_ref next)
  rwa [List.append_nil, List.nil_append] at writes

/-- A cell begins a chain with these chunks. It has no levels, and stands above all other cells of
the chain. -/
structure Begins (c : Cell) (cs : List (List UInt8)) : Prop where
  leads : Leads [c] cs
  mask_eq : c.mask = .empty
  depth_eq : (c.depthAt 0).toNat + 1 = cs.length

/-- A chunk makes the last link of a chain. -/
lemma exists_last (le : chunk.length ≤ chunkSize) :
    ∃ c, (Store.bytes chunk).toCell = .ok c ∧ Begins c [chunk] := by
  obtain ⟨_, made⟩ := toCell_link (Store.writes_bytes chunk) le (Nat.zero_le _)
    (List.forall_mem_nil _)
  obtain ⟨c, run, ordinary, data, refs, mask, depth⟩ := made 0 rfl
  refine ⟨c, run, .cons ordinary data (refs ▸ .nil), mask, ?_⟩
  rw [depth]
  rfl

/-- In front of a chain there is room for one more cell, unless it has as many as it may have. -/
lemma toCell_front {next : Cell} {cs : List (List UInt8)} (h : Begins next cs)
    (le : chunk.length ≤ chunkSize) :
    (cs.length < maxLinks → ∃ c,
      Store.toCell (do Store.bytes chunk; Store.ref next) = .ok c ∧ Begins c (chunk :: cs)) ∧
    (cs.length = maxLinks →
      Store.toCell (do Store.bytes chunk; Store.ref next) = .error .depthOverflow) := by
  obtain ⟨failed, made⟩ := toCell_link (writes_link chunk next) le (Nat.le_add_left 1 3)
    (List.forall_mem_singleton.2 h.mask_eq)
  rw [Cell.depthOver_singleton] at failed made
  rw [← h.depth_eq]
  constructor
  · intro few
    obtain ⟨depth, deep, above⟩ := Cell.exists_deepen 0 (Nat.lt_of_succ_lt_succ few)
    obtain ⟨c, run, ordinary, data, refs, mask, same⟩ := made depth deep
    refine ⟨c, run, .cons ordinary data (refs ▸ h.leads), mask, ?_⟩
    rw [same, above, List.length_cons, ← h.depth_eq]
    exact congrArg Nat.succ (Nat.zero_max _)
  · intro last
    exact failed _ (Cell.deepen_of_last (Nat.succ.inj last))

/-- Chunks are written if a chain may have as many cells. -/
lemma exists_chain {cs : List (List UInt8)} (each : ∀ chunk ∈ cs, chunk.length ≤ chunkSize)
    (some : cs ≠ []) (few : cs.length ≤ maxLinks) : ∃ c, chain cs = .ok c ∧ Begins c cs := by
  induction cs with
  | nil => exact absurd rfl some
  | cons chunk more ih =>
    obtain ⟨le, each⟩ := List.forall_mem_cons.1 each
    cases more with
    | nil => exact exists_last le
    | cons chunk' more =>
      obtain ⟨next, run, h⟩ := ih each (List.cons_ne_nil _ _) (Nat.le_of_succ_le few)
      rw [chain, run]
      · exact (toCell_front h le).1 few
      · exact List.cons_ne_nil _ _

/-- Chunks are not written if a chain cannot have as many cells. -/
lemma chain_of_lt {cs : List (List UInt8)} (each : ∀ chunk ∈ cs, chunk.length ≤ chunkSize)
    (many : maxLinks < cs.length) : chain cs = .error .depthOverflow := by
  induction cs with
  | nil => cases many
  | cons chunk more ih =>
    obtain ⟨le, each⟩ := List.forall_mem_cons.1 each
    have some : more ≠ [] := by
      rintro rfl
      exact absurd many (Nat.not_lt.2 (Nat.le_add_left 1 65535))
    rw [chain]
    · cases Nat.lt_or_eq_of_le (Nat.le_of_lt_succ many) with
      | inl many =>
        rw [ih each many]
        rfl
      | inr last =>
        -- the cells behind are as many as a chain may have, so that this one is one too many
        obtain ⟨next, run, h⟩ := exists_chain each some (Nat.le_of_eq last.symm)
        rw [run]
        exact (toCell_front h le).2 last.symm
    · exact some

end Chain

section Bytes
variable {bytes : List UInt8}

/-- How many chunks some bytes are cut into. -/
def countOf (bytes : List UInt8) : Nat :=
  (bytes.length + (chunkSize - 1)) / chunkSize

/-- Bytes are cut into as many chunks as they take. -/
lemma chunked_countOf (bytes : List UInt8) :
    Chunked (chunks (countOf bytes) bytes) ∧ (chunks (countOf bytes) bytes).flatten = bytes := by
  apply chunked_chunks
  · rw [countOf, chunkSize]
    omega
  · rw [countOf, chunkSize]
    omega

/-- There are not too many chunks if there are not too many bytes. -/
lemma countOf_le : countOf bytes ≤ maxLinks ↔ bytes.length ≤ maxLinks * chunkSize := by
  rw [countOf, maxLinks, chunkSize]
  omega

/-- Bytes are written if a chain may have as many cells as they need. -/
theorem exists_ofBytes (some : bytes ≠ []) (few : bytes.length ≤ maxLinks * chunkSize) :
    ∃ c cs, ofBytes bytes = .ok c ∧ Leads [c] cs ∧ Chunked cs ∧ cs.flatten = bytes := by
  obtain ⟨chunked, all⟩ := chunked_countOf bytes
  have ne : chunks (countOf bytes) bytes ≠ [] := by
    intro none
    rw [none] at all
    exact some all.symm
  have few := countOf_le.2 few
  obtain ⟨c, run, h⟩ := exists_chain chunked.length_le ne (length_chunks _ bytes ▸ few)
  exact ⟨c, _, run, h.leads, chunked, all⟩

/-- Bytes are refused if a chain cannot have as many cells as they need. -/
theorem ofBytes_of_lt (many : maxLinks * chunkSize < bytes.length) :
    ofBytes bytes = .error .depthOverflow := by
  have many : maxLinks < countOf bytes := Nat.lt_of_not_le fun few =>
    Nat.not_lt.2 (countOf_le.1 few) many
  obtain ⟨chunked, _⟩ := chunked_countOf bytes
  exact chain_of_lt chunked.length_le (length_chunks _ bytes ▸ many)

end Bytes

end CellBag.Snake
