import CellBag.LevelMask
import Mathlib

/-!
# Levels of a mask

The fingerprints of a cell are stored in the order of the levels of its mask, zero in front
(`LevelMask.levels`). `LevelMask.hashIndex` counts the levels up to a given one: it moves on by one
at each significant level (`LevelMask.hashIndex_succ`), where it points to this level
(`LevelMask.getElem?_levels`).
-/

namespace CellBag.LevelMask

/-- The significant levels of a mask, zero in front. -/
def levels (m : LevelMask) : List Nat :=
  (List.range (m.topLevel + 1)).filter m.isSignificant

/-- A level above zero is significant if its bit is set. -/
@[simp]
lemma isSignificant_succ (m : LevelMask) (l : Nat) :
    m.isSignificant (l + 1) = m.bits.getLsbD l :=
  rfl

/-- A mask is read back from its byte. -/
@[simp]
lemma ofByte_toByte (m : LevelMask) : ofByte m.toByte = m := by
  have h : ∀ b : BitVec 3, ofByte (⟨b⟩ : LevelMask).toByte = ⟨b⟩ := by decide
  exact h m.bits

/-- The only mask of level zero is the empty one. -/
lemma level_eq_zero {m : LevelMask} : m.level = 0 ↔ m = empty := by
  have h : ∀ b : BitVec 3, (⟨b⟩ : LevelMask).level = 0 ↔ (⟨b⟩ : LevelMask) = empty := by decide
  exact h m.bits

/-- No level is above three. -/
lemma level_le (m : LevelMask) : m.level ≤ 3 := by
  have h : ∀ b : BitVec 3, (⟨b⟩ : LevelMask).level ≤ 3 := by decide
  exact h m.bits

/-- No level above three is significant. -/
lemma not_isSignificant_of_lt {m : LevelMask} {l : Nat} (lt : 3 < l) : m.isSignificant l = false := by
  cases l with
  | zero => omega
  | succ l => exact BitVec.getLsbD_of_ge _ _ (by omega)

/-- Masks with the same significant levels are the same. -/
lemma ext_of_isSignificant {m n : LevelMask}
    (h : ∀ l, m.isSignificant (l + 1) = n.isSignificant (l + 1)) : m = n :=
  LevelMask.ext (BitVec.eq_of_getLsbD_eq fun l _ => h l)

/-- The levels that are visible from a level are those up to it. -/
lemma isSignificant_apply (m : LevelMask) (l k : Nat) :
    (m.apply l).isSignificant (k + 1) = (decide (k < l) && m.isSignificant (k + 1)) := by
  have h : ∀ b : BitVec 3, ∀ l < 4, ∀ k < 3,
      ((⟨b⟩ : LevelMask).apply l).isSignificant (k + 1) = (decide (k < l) && b.getLsbD k) := by
    decide
  rcases Nat.lt_or_ge k 3 with k3 | k3
  · rcases Nat.lt_or_ge l 4 with l4 | l4
    · exact h m.bits l l4 k k3
    · obtain ⟨l, rfl⟩ : ∃ i, l = i + 4 := ⟨l - 4, by omega⟩
      have e := h m.bits 3 (by decide) k k3
      rw [decide_eq_true k3] at e
      rw [decide_eq_true (by omega : k < l + 4)]
      exact e
  · rw [not_isSignificant_of_lt (by omega), not_isSignificant_of_lt (by omega), Bool.and_false]

/-- The hash of level zero is the first one. -/
@[simp]
lemma hashIndex_zero (m : LevelMask) : m.hashIndex 0 = 0 := by
  have h : ∀ b : BitVec 3, (⟨b⟩ : LevelMask).hashIndex 0 = 0 := by decide
  exact h m.bits

/-- The next level has the next fingerprint if it is significant, and the same one otherwise. -/
lemma hashIndex_succ (m : LevelMask) (l : Nat) :
    m.hashIndex (l + 1) = m.hashIndex l + (m.isSignificant (l + 1)).toNat := by
  have h : ∀ b : BitVec 3, ∀ l < 3, (⟨b⟩ : LevelMask).hashIndex (l + 1) =
      (⟨b⟩ : LevelMask).hashIndex l + (b.getLsbD l).toNat := by decide
  rcases Nat.lt_or_ge l 3 with l3 | l3
  · exact h m.bits l l3
  · obtain ⟨l, rfl⟩ : ∃ i, l = i + 3 := ⟨l - 3, by omega⟩
    rw [not_isSignificant_of_lt (by omega)]
    rfl

/-- The third level and those above it have the last fingerprint. -/
lemma hashIndex_of_three_le {m : LevelMask} {l : Nat} (le : 3 ≤ l) : m.hashIndex l = m.level := by
  have h : ∀ b : BitVec 3, (⟨b⟩ : LevelMask).hashIndex 3 = (⟨b⟩ : LevelMask).level := by decide
  obtain ⟨l, rfl⟩ : ∃ i, l = i + 3 := ⟨l - 3, by omega⟩
  exact h m.bits

/-- The hashes of higher levels stand behind those of lower ones. -/
lemma hashIndex_mono {m : LevelMask} {l k : Nat} (le : l ≤ k) : m.hashIndex l ≤ m.hashIndex k := by
  induction le with
  | refl => exact Nat.le_refl _
  | step _ ih => rw [hashIndex_succ]; omega

/-- The index of a hash is at most the level of the mask. -/
lemma hashIndex_le_level (m : LevelMask) (l : Nat) : m.hashIndex l ≤ m.level := by
  rw [← hashIndex_of_three_le (m := m) (Nat.le_max_left 3 l)]
  exact hashIndex_mono (Nat.le_max_right 3 l)

/-- A mask has one level more than bits that are set. -/
@[simp]
lemma length_levels (m : LevelMask) : m.levels.length = m.level + 1 := by
  have h : ∀ b : BitVec 3, (⟨b⟩ : LevelMask).levels.length = (⟨b⟩ : LevelMask).level + 1 := by
    decide
  exact h m.bits

/-- The fingerprint of a significant level stands where this level stands. -/
lemma getElem?_levels {m : LevelMask} {l : Nat} (sig : m.isSignificant l = true) :
    m.levels[m.hashIndex l]? = some l := by
  have h : ∀ b : BitVec 3, ∀ l < 4, (⟨b⟩ : LevelMask).isSignificant l = true →
      (⟨b⟩ : LevelMask).levels[(⟨b⟩ : LevelMask).hashIndex l]? = some l := by decide
  rcases Nat.lt_or_ge l 4 with l4 | l4
  · exact h m.bits l l4 sig
  · rw [not_isSignificant_of_lt l4] at sig
    cases sig

/-- The top level is significant. -/
@[simp]
lemma isSignificant_topLevel (m : LevelMask) : m.isSignificant m.topLevel = true := by
  have h : ∀ b : BitVec 3, (⟨b⟩ : LevelMask).isSignificant (⟨b⟩ : LevelMask).topLevel = true := by
    decide
  exact h m.bits

/-- No significant level is above the top level. -/
lemma le_topLevel {m : LevelMask} {l : Nat} (sig : m.isSignificant l = true) : l ≤ m.topLevel := by
  have h : ∀ b : BitVec 3, ∀ l < 4, (⟨b⟩ : LevelMask).isSignificant l = true →
      l ≤ (⟨b⟩ : LevelMask).topLevel := by decide
  rcases Nat.lt_or_ge l 4 with l4 | l4
  · exact h m.bits l l4 sig
  · rw [not_isSignificant_of_lt l4] at sig
    cases sig

/-- The top level is at most what bounds all significant levels. -/
lemma topLevel_le {m : LevelMask} {k : Nat} (h : ∀ l, m.isSignificant l = true → l ≤ k) :
    m.topLevel ≤ k :=
  h _ m.isSignificant_topLevel

/-- Nothing of a mask is cut off at its top level. -/
@[simp]
lemma apply_topLevel (m : LevelMask) : m.apply m.topLevel = m := by
  have h : ∀ b : BitVec 3, (⟨b⟩ : LevelMask).apply (⟨b⟩ : LevelMask).topLevel = ⟨b⟩ := by decide
  exact h m.bits

/-- The hash of the top level is the last one. -/
@[simp]
lemma hashIndex_topLevel (m : LevelMask) : m.hashIndex m.topLevel = m.level := by
  have h : ∀ b : BitVec 3, (⟨b⟩ : LevelMask).hashIndex (⟨b⟩ : LevelMask).topLevel =
      (⟨b⟩ : LevelMask).level := by decide
  exact h m.bits

/-- The levels of a mask are the significant ones. -/
lemma mem_levels {m : LevelMask} {l : Nat} : l ∈ m.levels ↔ m.isSignificant l = true := by
  rw [levels, List.mem_filter, List.mem_range]
  exact ⟨fun h => h.2, fun sig => ⟨Nat.lt_succ_of_le (le_topLevel sig), sig⟩⟩

section WithLevel
variable {m : LevelMask} {d : Nat}

/-- A mask below a level of its own, for a level that is one of the three. -/
lemma withLevel_facts (d3 : d < 3) (lt : m.toByte.toNat < 1 <<< d) :
    (m.union ⟨1 <<< d⟩).level = m.level + 1 ∧
      (∀ l ≤ d, (m.union ⟨1 <<< d⟩).hashIndex l = m.hashIndex l) ∧
      ∀ i < d, (m.union ⟨1 <<< d⟩).bits.getLsbD i = m.bits.getLsbD i := by
  have h : ∀ b : BitVec 3, ∀ d < 3, (⟨b⟩ : LevelMask).toByte.toNat < 1 <<< d →
      ((⟨b⟩ : LevelMask).union ⟨1 <<< d⟩).level = (⟨b⟩ : LevelMask).level + 1 ∧
      (∀ l ≤ d, ((⟨b⟩ : LevelMask).union ⟨1 <<< d⟩).hashIndex l = (⟨b⟩ : LevelMask).hashIndex l) ∧
      ∀ i < d, ((⟨b⟩ : LevelMask).union ⟨1 <<< d⟩).bits.getLsbD i = b.getLsbD i := by decide
  exact h m.bits d d3 lt

/-- A level on top of a mask is one level more. -/
lemma level_withLevel (d3 : d < 3) (lt : m.toByte.toNat < 1 <<< d) :
    (m.union ⟨1 <<< d⟩).level = m.level + 1 :=
  (withLevel_facts d3 lt).1

/-- A level on top of a mask does not change the hashes below it. -/
lemma hashIndex_withLevel (d3 : d < 3) (lt : m.toByte.toNat < 1 <<< d) {l : Nat} (le : l ≤ d) :
    (m.union ⟨1 <<< d⟩).hashIndex l = m.hashIndex l :=
  (withLevel_facts d3 lt).2.1 l le

/-- A level on top of a mask does not change the bits below it. -/
lemma getLsbD_withLevel (d3 : d < 3) (lt : m.toByte.toNat < 1 <<< d) {i : Nat} (lt' : i < d) :
    (m.union ⟨1 <<< d⟩).bits.getLsbD i = m.bits.getLsbD i :=
  (withLevel_facts d3 lt).2.2 i lt'

end WithLevel

/-- The levels of a mask are those of the first four that are significant. -/
lemma filter_range_four (m : LevelMask) : (List.range 4).filter m.isSignificant = m.levels := by
  have h : ∀ b : BitVec 3, (List.range 4).filter (⟨b⟩ : LevelMask).isSignificant =
      (⟨b⟩ : LevelMask).levels := by decide
  exact h m.bits

/-- The only mask whose top level is zero is the empty one. -/
lemma topLevel_eq_zero {m : LevelMask} : m.topLevel = 0 ↔ m = empty := by
  have h : ∀ b : BitVec 3, (⟨b⟩ : LevelMask).topLevel = 0 ↔ (⟨b⟩ : LevelMask) = empty := by decide
  exact h m.bits

end CellBag.LevelMask
