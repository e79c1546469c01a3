import CellBag.Proofs.Dictionary.Trie
import Mathlib

/-!
# Splitting entries

A trie is made of its entries by splitting them again and again, each time where the first and the
last key part. What is split stands together in the entries that one began with, behind a front that
all its keys have (`Trie.Part`). It is never empty, and two or more of its keys part before they end,
so that no bit behind the end of a key decides where an entry goes (`Trie.Part.split`).
-/

namespace CellBag.Trie

variable {α : Type} {es ls rs part : List (List Bool × α)} {front label : List Bool} {width : Nat}

/-- What the first and the last key begin with. -/
def shared (es : List (List Bool × α)) : List Bool :=
  match es.head?, es.getLast? with
  | some first, some last => commonPrefix first.1 last.1
  | _, _ => []

/-- The entries that go to one side where the first and the last key part, without the bits up to
there. -/
def side (es : List (List Bool × α)) (bit : Bool) : List (List Bool × α) :=
  let isLeft := fun e : List Bool × α => e.1[(shared es).length]?.getD false == false
  let there := if bit then es.dropWhile isLeft else es.takeWhile isLeft
  there.map fun e => (e.1.drop ((shared es).length + 1), e.2)

/-- The entries that are split on the way to a trie, behind a front of their keys. -/
inductive Splits (es : List (List Bool × α)) : List Bool → List (List Bool × α) → Prop where
  | all : Splits es [] es
  | side {front : List Bool} {part : List (List Bool × α)} (bit : Bool) :
    Splits es front part →
    2 ≤ part.length →
    Splits es (front ++ (shared part ++ [bit])) (side part bit)

/-- Entries whose keys begin with a front. -/
def behind (front : List Bool) (es : List (List Bool × α)) : List (List Bool × α) :=
  es.map fun e => (front ++ e.1, e.2)

/-- Some of the entries whose keys have `width` bits: they stand together, and they ascend behind a
front that all of them have. -/
structure Part (width : Nat) (es : List (List Bool × α)) (front : List Bool)
    (part : List (List Bool × α)) : Prop where
  ne_nil : part ≠ []
  together : behind front part <:+: es
  sorted : Sorted (width - front.length) part

/-- Behind nothing there are all entries. -/
lemma behind_nil (es : List (List Bool × α)) : behind [] es = es :=
  List.map_id es

/-- What is behind some bits in two lists is behind them in both together. -/
lemma behind_append (front : List Bool) (ls rs : List (List Bool × α)) :
    behind front (ls ++ rs) = behind front ls ++ behind front rs :=
  List.map_append

/-- What is below a side of a fork is behind its label and the bit of the side. -/
lemma behind_under (front label : List Bool) (bit : Bool) (es : List (List Bool × α)) :
    behind front (under label bit es) = behind (front ++ (label ++ [bit])) es := by
  rw [behind, under, List.map_map]
  refine List.map_congr_left fun e _ => ?_
  simp only [Function.comp_apply, List.append_assoc, List.singleton_append]

/-- Entries below a zero and below a one share the label in front of these. -/
lemma shared_under (hl : ls ≠ []) (hr : rs ≠ []) :
    shared (under label false ls ++ under label true rs) = label := by
  have first : (under label false ls ++ under label true rs).head? =
      some (label ++ false :: (ls.head hl).1, (ls.head hl).2) := by
    rw [List.head?_append_of_ne_nil _ (under_ne_nil hl), under, List.head?_map,
      List.head?_eq_some_head hl]
    rfl
  have last : (under label false ls ++ under label true rs).getLast? =
      some (label ++ true :: (rs.getLast hr).1, (rs.getLast hr).2) := by
    rw [List.getLast?_append_of_ne_nil _ (under_ne_nil hr), under, List.getLast?_map,
      List.getLast?_eq_some_getLast hr]
    rfl
  rw [shared, first, last]
  exact commonPrefix_append label _ _

/-- The side of a bit is what was put under it. -/
lemma side_under (hl : ls ≠ []) (hr : rs ≠ []) (bit : Bool) :
    side (under label false ls ++ under label true rs) bit = if bit then rs else ls := by
  rw [side, shared_under hl hr]
  cases bit with
  | false => exact (congrArg _ (span_under label ls rs).1).trans (map_drop_under label false ls)
  | true => exact (congrArg _ (span_under label ls rs).2).trans (map_drop_under label true rs)

/-- Two or more entries part before their keys end, with some on either side, and the trie has a fork
there. -/
theorem Part.split (p : Part width es front part) (several : 2 ≤ part.length) :
    front.length + (shared part).length < width ∧
      (∀ bit, Part width es (front ++ (shared part ++ [bit])) (side part bit)) ∧
      ∀ forks, ofEntries (forks + 1) part = (do
        let left ← ofEntries forks (side part false)
        let right ← ofEntries forks (side part true)
        return fork (shared part) left right) := by
  obtain ⟨ne, together, sorted⟩ := p
  obtain ⟨label, ls, rs, rfl, hl, hr, lt⟩ := sorted.exists_fork several
  have sides (bit : Bool) :
      side (under label false ls ++ under label true rs) bit = if bit then rs else ls :=
    side_under hl hr bit
  rw [shared_under hl hr]
  rw [behind_append, behind_under, behind_under] at together
  obtain ⟨sl, sr⟩ := sorted.of_append
  have width_eq (bit : Bool) : width - (front ++ (label ++ [bit])).length =
      width - front.length - label.length - 1 := by
    simp only [List.length_append, List.length_singleton]
    omega
  refine ⟨by omega, fun bit => ?_, fun forks => ?_⟩
  · rw [sides bit]
    cases bit with
    | false =>
      refine ⟨hl, (List.prefix_append _ _).isInfix.trans together, ?_⟩
      rw [width_eq]
      exact sl.of_under
    | true =>
      refine ⟨hr, (List.suffix_append _ _).isInfix.trans together, ?_⟩
      rw [width_eq]
      exact sr.of_under
  · rw [sides false, sides true]
    exact ofEntries_under hl hr

/-- All that is split on the way is a part of the entries. -/
theorem Splits.isPart (sorted : Sorted width es) (ne : es ≠ []) (splits : Splits es front part) :
    Part width es front part := by
  induction splits with
  | all =>
    refine ⟨ne, ?_, sorted⟩
    rw [behind_nil]
  | side bit _ several ih => exact (ih.split several).2.1 bit

end CellBag.Trie
