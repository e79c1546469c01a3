import CellBag.Proofs.Bag.Encode
import CellBag.Proofs.Cell.Binding
import Mathlib

/-!
# Round trip of bags

The roots of a bag are read back from the bytes that are written for them (`encode_decode`), if
different cells have different hashes and the roots can be counted. A single root always can, so
that it is read back within every limits that the number of its cells and their size do not exceed.
-/

namespace CellBag.Bag

open Classical in
/-- The different cells below some roots. -/
noncomputable def reachable (roots : List Cell) : Finset Cell :=
  (Cell.subcellsOfAll roots).toFinset

/-- The size of the records of the different cells below some roots. -/
noncomputable def dataSize (roots : List Cell) : Nat :=
  ∑ c ∈ reachable roots, recordSize (byteWidth (reachable roots).card) c.bits c.refs.length

section Reachable
variable {roots : List Cell}

/-- No more cells are reached than there are cells below the roots. -/
lemma card_reachable_le (roots : List Cell) :
    (reachable roots).card ≤ (Cell.subcellsOfAll roots).length := by
  classical
  exact List.toFinset_card_le _

/-- What is reached from cells that can be made can be made. -/
lemma built_of_reachable (built : ∀ r ∈ roots, r.Built) {c : Cell}
    (mem : c ∈ Cell.subcellsOfAll roots) : c.Built := by
  obtain ⟨r, root, sub⟩ := Cell.mem_subcellsOfAll.1 mem
  exact (built r root).subcell sub

/-- The records of few cells are not larger than the reader allows for as many cells. -/
lemma dataSize_le (built : ∀ r ∈ roots, r.Built) (few : (reachable roots).card < 2 ^ 32) :
    dataSize roots ≤ (reachable roots).card * maxRecordSize := by
  classical
  refine Finset.sum_le_card_nsmul _ _ _ fun c mem => ?_
  rw [reachable, List.mem_toFinset] at mem
  exact recordSize_le (built_of_reachable built mem).wellFormed.refs_le
    (byteWidth_le (by decide) few)

/-- A table has no cell twice. -/
lemma nodup_ofRoots (apart : HashesApart (Cell.subcellsOfAll roots)) :
    (Table.ofRoots roots).Nodup :=
  (Table.ofRoots_ordered apart).nodup.of_map _

open Classical in
/-- A table has the cells that are reached. -/
lemma toFinset_ofRoots (apart : HashesApart (Cell.subcellsOfAll roots)) :
    (Table.ofRoots roots).toFinset = reachable roots := by
  ext c
  rw [List.mem_toFinset, Table.mem_ofRoots apart, reachable, List.mem_toFinset]

/-- A table is as long as there are cells to reach. -/
lemma length_ofRoots (apart : HashesApart (Cell.subcellsOfAll roots)) :
    (Table.ofRoots roots).length = (reachable roots).card := by
  classical
  rw [← toFinset_ofRoots apart, List.toFinset_card_of_nodup (nodup_ofRoots apart)]

end Reachable

/-- The records of the table of some roots and the indexes of the roots in it: what the writer
makes of them, and what they stand for. -/
structure Tabled (roots : List Cell) (records : List Record) (indexes : List Nat) : Prop where
  records_eq : (Table.ofRoots roots).mapM (Table.record (Table.positions (Table.ofRoots roots))) =
    .ok records
  indexes_eq : roots.mapM (Table.find (Table.positions (Table.ofRoots roots))) = .ok indexes
  describe : List.Forall₂ (Table.Describes (Table.ofRoots roots)) (Table.ofRoots roots) records
  named : List.Forall₂ (fun r i => (Table.ofRoots roots)[i]? = some r) roots indexes

/-- Roots have a table, in which every reference and every root is found. -/
lemma exists_tabled {roots : List Cell} (apart : HashesApart (Cell.subcellsOfAll roots)) :
    ∃ records indexes, Tabled roots records indexes := by
  have ordered := Table.ofRoots_ordered apart
  obtain ⟨records, er, describe⟩ := Table.exists_records ordered
  have found : ∀ r ∈ roots, ∃ i, Table.find (Table.positions (Table.ofRoots roots)) r = .ok i ∧
      (Table.ofRoots roots)[i]? = some r := by
    intro r mem
    have below : r ∈ Cell.subcellsOfAll roots :=
      Cell.mem_subcellsOfAll.2 ⟨r, mem, Cell.self_mem_subcells r⟩
    obtain ⟨i, e⟩ := List.mem_iff_getElem?.1 ((Table.mem_ofRoots apart).2 below)
    exact ⟨i, Table.find_of_getElem? ordered e, e⟩
  obtain ⟨indexes, ei, named⟩ := Outcome.exists_mapM found
  exact ⟨records, indexes, er, ei, describe, named⟩

namespace Tabled
variable {roots : List Cell} {records : List Record} {indexes : List Nat} {o : Options}

/-- There is one record for each cell that is reached. -/
lemma length_eq (t : Tabled roots records indexes) (apart : HashesApart (Cell.subcellsOfAll roots)) :
    records.length = (reachable roots).card := by
  rw [← t.describe.length_eq, length_ofRoots apart]

/-- The records take as many bytes as those of the different cells. -/
lemma length_chunks (t : Tabled roots records indexes)
    (apart : HashesApart (Cell.subcellsOfAll roots)) :
    (Image.ofTable o records indexes).chunks.flatten.length = dataSize roots := by
  classical
  have sizes (size : Nat) (cs : List Cell) (rs : List Record)
      (describe : List.Forall₂ (Table.Describes (Table.ofRoots roots)) cs rs) :
      (rs.map fun r => recordSize size r.bits r.refs.length) =
        cs.map fun c => recordSize size c.bits c.refs.length := by
    induction describe with
    | nil => rfl
    | cons d _ ih => rw [List.map_cons, List.map_cons, ih, d.bits_eq, d.refs.length_eq]
  rw [Image.length_ofTable_chunks, t.length_eq apart, sizes _ _ _ t.describe, dataSize,
    ← List.sum_toFinset _ (nodup_ofRoots apart), toFinset_ofRoots apart]

/-- References and roots are in the table, if its cells can be counted in four bytes. -/
lemma isTable (t : Tabled roots records indexes) (apart : HashesApart (Cell.subcellsOfAll roots))
    (built : ∀ r ∈ roots, r.Built) (few : (reachable roots).card < 2 ^ 32) :
    IsTable records indexes := by
  have lt {i : Nat} {c : Cell} (e : (Table.ofRoots roots)[i]? = some c) : i < records.length := by
    rw [← t.describe.length_eq]
    exact (List.getElem?_eq_some_iff.1 e).1
  refine ⟨?_, fun r mem => ?_, fun r mem n hn => ?_, fun n mem => ?_⟩
  · rw [t.length_eq apart]
    exact byteWidth_le (by decide) few
  · obtain ⟨c, mc, d⟩ := Outcome.exists_of_mem t.describe mem
    rw [← d.refs.length_eq]
    exact (built_of_reachable built ((Table.mem_ofRoots apart).1 mc)).wellFormed.refs_le
  · obtain ⟨_, _, d⟩ := Outcome.exists_of_mem t.describe mem
    obtain ⟨_, _, e⟩ := Outcome.exists_of_mem d.refs hn
    exact lt e
  · obtain ⟨_, _, e⟩ := Outcome.exists_of_mem t.named mem
    exact lt e

/-- The roots are decoded from the image of their table. -/
lemma decode_image (t : Tabled roots records indexes)
    (apart : HashesApart (Cell.subcellsOfAll roots)) (built : ∀ r ∈ roots, r.Built) {limits : Limits}
    (valid : (Image.ofTable o records indexes).Valid limits) :
    decode (Image.ofTable o records indexes).bytes limits = .ok roots := by
  have same : (Image.ofTable o records indexes).entries.map Entry.record = records := by
    rw [Image.ofTable, List.map_map]
    exact List.map_id' _
  have run := valid.scan
  rw [same] at run
  -- the cells that are made of the records are those of the table, so that each root is found again
  have made := Table.cells_eq (Table.ofRoots_ordered apart)
    (fun c mem => built_of_reachable built ((Table.mem_ofRoots apart).1 mem)) t.describe
  refine Outcome.bind_eq_ok.2 ⟨_, run, Outcome.bind_eq_ok.2 ⟨_, made, ?_⟩⟩
  exact Outcome.mapM_eq_ok.2 (t.named.flip.imp fun i r e => root_eq_ok.2 e)

end Tabled

/-- Roots that can be counted in a field as wide as the cells are written, and are read back within
every limits that their number, the number of cells and the size of the records do not exceed. -/
theorem encode_decode {roots : List Cell} {o : Options} (built : ∀ r ∈ roots, r.Built)
    (apart : HashesApart (Cell.subcellsOfAll roots)) (cache : o.cacheBits = true → o.index = true)
    (ne : roots ≠ []) (few : (reachable roots).card < 2 ^ 32)
    (count : roots.length < 256 ^ byteWidth (reachable roots).card) :
    ∃ bytes, encode roots o = .ok bytes ∧ ∀ limits : Limits,
      roots.length ≤ min limits.maxRoots (reachable roots).card →
      (reachable roots).card ≤ limits.maxCells → dataSize roots ≤ limits.maxTotalSize →
      decode bytes limits = .ok roots := by
  obtain ⟨records, indexes, t⟩ := exists_tabled apart
  have table := t.isTable apart built few
  rw [← t.length_eq apart] at count ⊢
  rw [t.named.length_eq] at count
  refine ⟨_, encode_eq_ok.2 ⟨cache, ne, records, indexes, t.records_eq, t.indexes_eq, table.few,
    fun r mem n ref => IsTable.fits_of_lt (table.refs_lt r mem n ref), table.header_fits count, rfl⟩,
    ?_⟩
  intro limits rootCount cells size
  refine t.decode_image apart built (table.valid cache ?_ ?_ cells ?_)
  · intro none
    have named := t.named
    rw [none] at named
    exact ne (List.forall₂_nil_right_iff.1 named)
  · rwa [← t.named.length_eq]
  · rwa [t.length_chunks apart]

/-- A single root is written, if its cells can be counted in four bytes, and is read back within
every limits that allow a root and that the number of its cells and the size of their records do
not exceed. What is read back is the same cell: it has the same data, kind, mask and references,
and the same fingerprint at every level. -/
theorem decodeOne_encode {root : Cell} {o : Options} (built : root.Built)
    (cache : o.cacheBits = true → o.index = true) (few : (reachable [root]).card < 2 ^ 32)
    (apart : ∀ x ∈ root.subcells, ∀ y ∈ root.subcells, x.hash = y.hash → SameTree x y) :
    ∃ bytes, encode [root] o = .ok bytes ∧ ∀ limits : Limits, 1 ≤ limits.maxRoots →
      (reachable [root]).card ≤ limits.maxCells → dataSize [root] ≤ limits.maxTotalSize →
      decodeOne bytes limits = .ok root := by
  have below : Cell.subcellsOfAll [root] = root.subcells := by
    rw [Cell.subcellsOfAll, Cell.subcellsOfAll, List.append_nil]
  have apart : HashesApart (Cell.subcellsOfAll [root]) := by
    rw [below]
    intro x mx y my e
    exact (apart x mx y my e).eq (built.subcell mx) (built.subcell my)
  have one : 1 ≤ (reachable [root]).card := by
    classical
    refine Finset.card_pos.2 ⟨root, ?_⟩
    rw [reachable, List.mem_toFinset, below]
    exact Cell.self_mem_subcells root
  obtain ⟨bytes, written, read⟩ := encode_decode (List.forall_mem_singleton.2 built) apart cache
    (List.cons_ne_nil root []) few (Nat.lt_of_le_of_lt one (lt_byteWidth _))
  refine ⟨bytes, written, fun limits roots cells size => ?_⟩
  rw [decodeOne, read limits (Nat.le_min.2 ⟨roots, one⟩) cells size]
  rfl

/-- A Merkle proof over a tree of which one of two equal leaves is pruned, in a bag with an index
and cache bits. -/
theorem decodeOne_encode_proof :
    ∃ leaf branch tree proof bytes,
      Cell.leaf [0xA0] 3 = .ok leaf ∧ leaf.prunedBranch 0 = .ok branch ∧
      Cell.finalize .empty [branch, leaf] false = .ok tree ∧ tree.merkleProof = .ok proof ∧
      (reachable [proof]).card < 2 ^ 32 ∧ (proof.subcells.map Cell.hash).Nodup ∧
      encode [proof] ⟨true, true, true⟩ = .ok bytes ∧ decodeOne bytes {} = .ok proof := by
  have run : (do
      let leaf ← Cell.leaf [0xA0] 3
      let branch ← leaf.prunedBranch 0
      let tree ← Cell.finalize .empty [branch, leaf] false
      let proof ← tree.merkleProof
      return (decide (proof.subcells.map Cell.hash).Nodup, (Cell.subcellsOfAll [proof]).length)) =
        .ok (true, 4) := by decide +kernel
  simp only [Outcome.bind_eq_ok, Outcome.pure_eq_ok, Prod.mk.injEq, decide_eq_true_eq] at run
  obtain ⟨leaf, el, branch, eb, tree, et, proof, ep, nodup, count⟩ := run
  have bl := Cell.Built.leaf el
  have bb : branch.Built := Cell.Built.prunedBranch eb
  have bt : tree.Built := .finalize (by simp [bl, bb]) et
  have built : proof.Built := Cell.Built.ofKind (by simp [bt]) ep
  have card : (reachable [proof]).card ≤ 4 := count ▸ card_reachable_le [proof]
  have few : (reachable [proof]).card < 2 ^ 32 := by omega
  have size := dataSize_le (List.forall_mem_singleton.2 built) few
  obtain ⟨bytes, written, read⟩ := decodeOne_encode (o := ⟨true, true, true⟩) built (fun _ => rfl) few
    fun x mx y my e => List.inj_on_of_nodup_map nodup mx my e ▸ .refl x
  refine ⟨leaf, branch, tree, proof, bytes, el, eb, et, ep, few, nodup, written,
    read {} (by decide) ?_ ?_⟩
  · exact Nat.le_trans card (by decide)
  · refine Nat.le_trans size (Nat.le_trans (Nat.mul_le_mul_right _ card) (by decide))

end CellBag.Bag
