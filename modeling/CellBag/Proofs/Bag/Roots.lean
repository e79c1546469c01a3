import CellBag.Proofs.Bag.RoundTrip
import Mathlib

/-!
# Roots of a bag

A bag counts its roots in a field as wide as the number of its cells takes, and no more of them are
read than there are cells. Roots that repeat share their cell, though, so that a bag can be written
for more roots than it has cells (`exists_encode_iff`), which is not read back then
(`encode_decode_iff`).
-/

namespace CellBag.Bag

variable {roots : List Cell} {o : Options}

/-- Roots are written when the cells below them can be counted in four bytes, and they themselves in
as many bytes as these cells. -/
theorem exists_encode_iff (built : ∀ r ∈ roots, r.Built)
    (apart : HashesApart (Cell.subcellsOfAll roots)) (cache : o.cacheBits = true → o.index = true)
    (ne : roots ≠ []) :
    (∃ bytes, encode roots o = .ok bytes) ↔
      (reachable roots).card < 2 ^ 32 ∧ roots.length < 256 ^ byteWidth (reachable roots).card := by
  constructor
  · rintro ⟨bytes, written⟩
    obtain ⟨_, _, records, indexes, er, ei, few, _, fits, _⟩ := encode_eq_ok.1 written
    have count := fits.rootCount_lt
    rw [Image.ofTable_header] at count
    have cells : records.length = (reachable roots).card := by
      rw [← length_ofRoots apart, (Outcome.mapM_eq_ok.1 er).length_eq]
    rw [(Outcome.mapM_eq_ok.1 ei).length_eq, ← cells]
    exact ⟨Nat.lt_of_lt_of_le (lt_byteWidth _) (Nat.pow_le_pow_right (by decide) few), count⟩
  · rintro ⟨few, count⟩
    obtain ⟨bytes, written, _⟩ := encode_decode built apart cache ne few count
    exact ⟨bytes, written⟩

/-- No more roots are read from what was written for some than there are cells below these. -/
lemma length_le_of_decode {bytes : List UInt8} {limits : Limits} {read : List Cell}
    (built : ∀ r ∈ roots, r.Built) (apart : HashesApart (Cell.subcellsOfAll roots))
    (written : encode roots o = .ok bytes) (run : decode bytes limits = .ok read) :
    roots.length ≤ (reachable roots).card := by
  obtain ⟨i, w, rfl⟩ := exists_written built written
  obtain ⟨j, vj, same⟩ := exists_image_of_decode run
  obtain ⟨rest, ei⟩ := i.exists_bytes_eq
  obtain ⟨rest', ej⟩ := j.exists_bytes_eq
  rw [ei, ej] at same
  -- the header that is read is the one that was written, and the reader asks it for enough cells
  obtain ⟨header, _⟩ := Header.layout_inj vj.header.sized w.sized same
  have count := (Nat.le_min.1 vj.header.rootCount_le).2
  rw [header] at count
  rw [← w.rootCount_eq, ← length_ofRoots apart, ← w.cellCount_eq]
  exact count

/-- Roots are written and read back, within limits that allow for their number, for that of the
cells below them and for the size of the records, exactly when there are no more roots than cells
and these can be counted in four bytes. -/
theorem encode_decode_iff {limits : Limits} (built : ∀ r ∈ roots, r.Built)
    (apart : HashesApart (Cell.subcellsOfAll roots)) (cache : o.cacheBits = true → o.index = true)
    (ne : roots ≠ []) (count : roots.length ≤ limits.maxRoots)
    (cells : (reachable roots).card ≤ limits.maxCells)
    (size : dataSize roots ≤ limits.maxTotalSize) :
    (∃ bytes, encode roots o = .ok bytes ∧ decode bytes limits = .ok roots) ↔
      (reachable roots).card < 2 ^ 32 ∧ roots.length ≤ (reachable roots).card := by
  constructor
  · rintro ⟨bytes, written, run⟩
    have few := ((exists_encode_iff built apart cache ne).1 ⟨bytes, written⟩).1
    exact ⟨few, length_le_of_decode built apart written run⟩
  · rintro ⟨few, le⟩
    have narrow := Nat.lt_of_le_of_lt le (lt_byteWidth _)
    obtain ⟨bytes, written, read⟩ := encode_decode built apart cache ne few narrow
    exact ⟨bytes, written, read limits (Nat.le_min.2 ⟨count, le⟩) cells size⟩

section Leaf
variable {leaf : Cell}

/-- Nothing but a leaf is below roots that repeat it. -/
lemma eq_of_mem_subcellsOfAll (none : leaf.refs = []) (all : ∀ r ∈ roots, r = leaf) {c : Cell}
    (mem : c ∈ Cell.subcellsOfAll roots) : c = leaf := by
  obtain ⟨r, mr, sub⟩ := Cell.mem_subcellsOfAll.1 mem
  rw [all r mr] at sub
  rcases Cell.mem_subcells.1 sub with self | ⟨r, ref, _⟩
  · exact self
  · rw [none] at ref
    cases ref

/-- Roots that are one leaf reach this leaf only. -/
lemma card_reachable_eq_one (none : leaf.refs = []) (all : ∀ r ∈ roots, r = leaf)
    (ne : roots ≠ []) : (reachable roots).card = 1 := by
  classical
  obtain ⟨r, mr⟩ := List.exists_mem_of_ne_nil roots ne
  refine Finset.card_eq_one.2 ⟨leaf, Finset.eq_singleton_iff_unique_mem.2 ⟨?_, fun c mem => ?_⟩⟩
  · rw [reachable, List.mem_toFinset]
    exact Cell.mem_subcellsOfAll.2 ⟨r, mr, all r mr ▸ Cell.self_mem_subcells r⟩
  · rw [reachable, List.mem_toFinset] at mem
    exact eq_of_mem_subcellsOfAll none all mem

/-- Roots that are one leaf reach no two cells with the same hash. -/
lemma hashesApart_of_leaf (none : leaf.refs = []) (all : ∀ r ∈ roots, r = leaf) :
    HashesApart (Cell.subcellsOfAll roots) := by
  intro x mx y my _
  rw [eq_of_mem_subcellsOfAll none all mx, eq_of_mem_subcellsOfAll none all my]

end Leaf

/-- A leaf is read back when it is the only root. It is written as the root twice as well, but that
is not read back. -/
theorem encode_decode_iff_leaf :
    ∃ leaf, Cell.leaf [0x2A] 8 = .ok leaf ∧
      (∃ bytes, encode [leaf] {} = .ok bytes ∧ decode bytes {} = .ok [leaf]) ∧
      (∃ bytes, encode [leaf, leaf] {} = .ok bytes) ∧
      ¬ ∃ bytes, encode [leaf, leaf] {} = .ok bytes ∧ decode bytes {} = .ok [leaf, leaf] := by
  have run : (do let _ ← Cell.leaf [0x2A] 8 : Except Error Unit) = .ok () := by decide +kernel
  obtain ⟨leaf, el, _⟩ := Outcome.bind_eq_ok.1 run
  have none := Cell.refs_of_leaf el
  have built (roots : List Cell) (all : ∀ r ∈ roots, r = leaf) : ∀ r ∈ roots, r.Built :=
    fun r mem => all r mem ▸ Cell.Built.leaf el
  have once : ∀ r ∈ [leaf], r = leaf := by simp
  have twice : ∀ r ∈ [leaf, leaf], r = leaf := by simp
  -- the leaf is the only cell below the roots, however often it is one of them
  have small (roots : List Cell) (all : ∀ r ∈ roots, r = leaf) (ne : roots ≠ []) :
      (reachable roots).card = 1 ∧ (reachable roots).card < 2 ^ 32 ∧
        (reachable roots).card ≤ 1048576 ∧ dataSize roots ≤ 67108864 := by
    have card := card_reachable_eq_one none all ne
    have few : (reachable roots).card < 2 ^ 32 := by omega
    have size := dataSize_le (built roots all) few
    rw [card] at size
    exact ⟨card, few, by omega, Nat.le_trans size (by decide)⟩
  have ne : [leaf] ≠ [] := List.cons_ne_nil _ _
  have ne' : [leaf, leaf] ≠ [] := List.cons_ne_nil _ _
  have cache : ({} : Options).cacheBits = true → ({} : Options).index = true := by decide
  obtain ⟨card, few, cells, size⟩ := small _ once ne
  obtain ⟨card', few', cells', size'⟩ := small _ twice ne'
  refine ⟨leaf, el, ?_, ?_, fun back => ?_⟩
  · exact (encode_decode_iff (built _ once) (hashesApart_of_leaf none once) cache ne (by simp) cells
      size).2 ⟨few, Nat.le_of_eq card.symm⟩
  · refine (exists_encode_iff (built _ twice) (hashesApart_of_leaf none twice) cache ne').2
      ⟨few', ?_⟩
    rw [card']
    show 2 < 256 ^ byteWidth 1
    decide
  · have le := ((encode_decode_iff (built _ twice) (hashesApart_of_leaf none twice) cache ne'
      (by simp) cells' size').1 back).2
    rw [card'] at le
    exact absurd le (by simp)

end CellBag.Bag
