import CellBag.Proofs.Dictionary.ByteOrder
import Mathlib

/-!
# Histories of dictionaries

A dictionary that is changed time and again holds under each key the value that was set last and not
removed since (`Dictionary.get?_after`). Its entries are determined by these values
(`Dictionary.ext_get?`), so nothing else of its history can be seen
(`Dictionary.after_finite_map`).
-/

namespace CellBag

namespace Dictionary
variable {d d' : Dictionary} {key other : Key} {value : Cell}

section Lookup

/-- An inserted entry is found under its key, and the other ones under theirs. -/
lemma find?_insertEntry (es : List (Key × Cell)) :
    (insertEntry key value es).find? (fun e => e.1 = other) =
      if key = other then some (key, value) else es.find? fun e => e.1 = other := by
  induction es with
  | nil =>
    rw [insertEntry]
    by_cases same : key = other
    · simp [same]
    · simp [same]
  | cons e es ih =>
    rw [insertEntry]
    split
    case h_1 =>
      by_cases same : key = other
      · rw [List.find?_cons_of_pos (by simpa using same), if_pos same]
      · rw [List.find?_cons_of_neg (by simpa using same), if_neg same]
    case h_2 eq =>
      have here : key = e.1 := Bits.ext (Key.compareBits_eq_eq.1 eq)
      by_cases same : key = other
      · rw [List.find?_cons_of_pos (by simpa using same), if_pos same]
      · rw [List.find?_cons_of_neg (by simpa using same), if_neg same,
          List.find?_cons_of_neg (by simpa [← here] using same)]
    case h_3 gt =>
      by_cases there : e.1 = other
      · have differ : key ≠ other := by
          rintro rfl
          rw [Key.compare, there, Key.compareBits_self] at gt
          cases gt
        rw [List.find?_cons_of_pos (by simpa using there), if_neg differ,
          List.find?_cons_of_pos (by simpa using there)]
      · rw [List.find?_cons_of_neg (by simpa using there), ih,
          List.find?_cons_of_neg (by simpa using there)]

/-- An insertion changes the value under its key only. -/
lemma get?_insert (e : d.insert key value = .ok d') :
    d'.get? other = if key = other then some value else d.get? other := by
  rw [insert] at e
  obtain ⟨_, e⟩ := Outcome.check_eq_ok.1 e
  cases e
  rw [get?, find?_insertEntry]
  split
  · rfl
  · rfl

/-- An erasure takes away the value under its key only. -/
lemma get?_erase (d : Dictionary) (key other : Key) :
    (d.erase key).get? other = if key = other then none else d.get? other := by
  rw [get?, erase, List.find?_filter]
  by_cases same : key = other
  · subst same
    rw [if_pos rfl, Option.map_eq_none_iff, List.find?_eq_none]
    intro e _
    simp
  · rw [if_neg same, get?]
    congr 2
    funext e
    by_cases here : e.1 = other
    · simp [here, Ne.symm same]
    · simp [here]

end Lookup

/-- The keys of the entries ascend. -/
def Ordered (d : Dictionary) : Prop :=
  Key.Ascending (d.entries.map fun e => e.1.toList)

section Ordered

/-- An ordered dictionary stays ordered when an entry is inserted. -/
lemma Ordered.insert (h : d.Ordered) (e : d.insert key value = .ok d') : d'.Ordered := by
  rw [Dictionary.insert] at e
  obtain ⟨_, e⟩ := Outcome.check_eq_ok.1 e
  cases e
  exact ascending_insertEntry h

/-- An ordered dictionary stays ordered when an entry is erased. -/
lemma Ordered.erase (h : d.Ordered) (key : Key) : (d.erase key).Ordered := by
  have sub : (d.erase key).entries.Sublist d.entries := List.filter_sublist
  exact h.sublist (sub.map _)

/-- The value under a key of an ordered dictionary is that of its entry. -/
lemma Ordered.get?_eq_some (h : d.Ordered) : d.get? key = some value ↔ (key, value) ∈ d.entries :=
  get?_eq_some_iff (Key.Ascending.nodup h)

/-- The keys of an ordered dictionary ascend. -/
lemma Ordered.pairwise (h : d.Ordered) :
    d.entries.Pairwise fun e e' => e.1.toList < e'.1.toList := by
  apply (List.pairwise_map.1 h).imp
  intro e e' lt
  exact Key.compareBits_eq_lt.1 lt

/-- There are as many entries as keys with a value. -/
lemma Ordered.encard_keys (h : d.Ordered) :
    {key | (d.get? key).isSome}.encard = d.size := by
  have nodup : (d.entries.map Prod.fst).Nodup := by
    apply List.Nodup.of_map Bits.toList
    rw [List.map_map]
    exact Key.Ascending.nodup h
  have keys : {key | (d.get? key).isSome} = ↑(d.entries.map Prod.fst).toFinset := by
    ext key
    rw [Set.mem_ofPred_eq, Option.isSome_iff_exists, Finset.mem_coe, List.mem_toFinset,
      List.mem_map]
    constructor
    · intro found
      obtain ⟨value, found⟩ := found
      exact ⟨(key, value), h.get?_eq_some.1 found, rfl⟩
    · intro entry
      obtain ⟨e, mem, rfl⟩ := entry
      exact ⟨e.2, h.get?_eq_some.2 mem⟩
  rw [keys, Set.encard_coe_eq_coe_finsetCard, List.toFinset_card_of_nodup nodup, List.length_map,
    size]

/-- Entries in the order of their keys are determined by the values under the keys. -/
theorem ext_get? (h : d.Ordered) (h' : d'.Ordered) (width : d.keyWidth = d'.keyWidth)
    (same : ∀ key, d.get? key = d'.get? key) : d = d' := by
  have mem (e : Key × Cell) : e ∈ d.entries ↔ e ∈ d'.entries := by
    rw [← h.get?_eq_some, ← h'.get?_eq_some, same]
  have perm : d.entries.Perm d'.entries := by
    apply (List.perm_ext_iff_of_nodup _ _).2 mem
    · exact (Key.Ascending.nodup h).of_map _
    · exact (Key.Ascending.nodup h').of_map _
  have entries : d.entries = d'.entries := by
    apply List.Perm.eq_of_pairwise _ h.pairwise h'.pairwise perm
    intro e e' _ _ lt gt
    exact absurd gt (lt_asymm lt)
  obtain ⟨_, _⟩ := d
  cases width
  cases entries
  rfl

end Ordered

/-- A change of a dictionary. -/
inductive Change where
  | set (key : Key) (value : Cell)
  | remove (key : Key)

namespace Change

/-- The dictionary after a change. A value is not set under a key of another width. -/
def apply (d : Dictionary) : Change → Dictionary
  | set key value =>
    match d.insert key value with
    | .ok d' => d'
    | .error _ => d
  | remove key => d.erase key

/-- Whether a change concerns a key in a dictionary of some width. -/
def concerns (width : Nat) (key : Key) : Change → Bool
  | set changed _ => changed = key && key.length = width
  | remove changed => changed = key

/-- The value that a change leaves under its key. -/
def value? : Change → Option Cell
  | set _ value => some value
  | remove _ => none

end Change

/-- The dictionary after changes of one that was empty, the first change in front. -/
def after (width : Nat) (changes : List Change) : Dictionary :=
  changes.foldl Change.apply (.empty width)

/-- The value that the last change left that concerns a key. -/
def lastValue (width : Nat) (changes : List Change) (key : Key) : Option Cell :=
  (changes.reverse.find? (·.concerns width key)).bind Change.value?

section History
variable {width : Nat} {changes : List Change} {change : Change}

/-- The last change is made behind the others. -/
lemma after_concat : after width (changes ++ [change]) = change.apply (after width changes) := by
  rw [after, List.foldl_append]
  rfl

/-- The last change of a key decides on its value. -/
lemma lastValue_concat : lastValue width (changes ++ [change]) key =
    if change.concerns width key then change.value? else lastValue width changes key := by
  rw [lastValue, List.reverse_append, List.reverse_singleton, List.singleton_append,
    List.find?_cons]
  cases change.concerns width key with
  | true => rfl
  | false => rfl

/-- An entry of the right width is inserted. -/
lemma insert_of_width (wide : key.length = d.keyWidth) :
    d.insert key value = .ok ((Change.set key value).apply d) := by
  rw [Change.apply, insert, if_pos wide]

/-- An entry of another width is refused. -/
lemma insert_of_width_ne (wide : key.length ≠ d.keyWidth) :
    d.insert key value = .error (.dictionary .keyWidth) ∧
      (Change.set key value).apply d = d := by
  rw [Change.apply, insert, if_neg wide]
  exact ⟨rfl, rfl⟩

/-- No change concerns the width of the keys. -/
lemma Change.keyWidth_apply (change : Change) (d : Dictionary) :
    (change.apply d).keyWidth = d.keyWidth := by
  cases change with
  | set key value =>
    by_cases wide : key.length = d.keyWidth
    · rw [apply, insert, if_pos wide]
    · rw [(insert_of_width_ne wide).2]
  | remove key => rfl

/-- An ordered dictionary stays ordered. -/
lemma Ordered.apply (h : d.Ordered) (change : Change) : (change.apply d).Ordered := by
  cases change with
  | set key value =>
    by_cases wide : key.length = d.keyWidth
    · exact h.insert (insert_of_width wide)
    · rw [(insert_of_width_ne wide).2]
      exact h
  | remove key => exact h.erase key

/-- A change leaves its value under the key that it concerns. -/
lemma Change.get?_apply (change : Change) (d : Dictionary) (key : Key) :
    (change.apply d).get? key =
      if change.concerns d.keyWidth key then change.value? else d.get? key := by
  cases change with
  | set changed value =>
    by_cases wide : changed.length = d.keyWidth
    · rw [get?_insert (insert_of_width wide), concerns, value?]
      by_cases same : changed = key
      · subst same
        simp [wide]
      · simp [same]
    · rw [(insert_of_width_ne wide).2, concerns]
      by_cases same : changed = key
      · subst same
        simp [wide]
      · simp [same]
  | remove changed =>
    rw [apply, get?_erase, concerns, value?]
    simp

/-- The width of the keys stays what it was at the beginning. -/
lemma keyWidth_after : (after width changes).keyWidth = width := by
  induction changes using List.reverseRecOn with
  | nil => rfl
  | append_singleton changes change ih => rw [after_concat, Change.keyWidth_apply, ih]

/-- A dictionary is ordered after any changes. -/
lemma ordered_after : (after width changes).Ordered := by
  induction changes using List.reverseRecOn with
  | nil => exact List.Pairwise.nil
  | append_singleton changes change ih =>
    rw [after_concat]
    exact ih.apply change

/-- A key has the value that the last change left that concerns it. -/
theorem get?_after : (after width changes).get? key = lastValue width changes key := by
  induction changes using List.reverseRecOn with
  | nil => rfl
  | append_singleton changes change ih =>
    rw [after_concat, lastValue_concat, Change.get?_apply, keyWidth_after, ih]

/-- However a dictionary was changed, a key has the value that was set last and not removed since,
and there are as many entries as such keys. A value under a key of another width is refused, and
changes nothing. The entries stand in the order of their bits, which is also that of their bytes. So
changes that leave the same values make equal dictionaries, which are stored as the same root or
fail in the same way. -/
theorem after_finite_map (width : Nat) (changes : List Change) :
    (∀ key, (after width changes).get? key = lastValue width changes key) ∧
    {key | (lastValue width changes key).isSome}.encard = (after width changes).size ∧
    (∀ key value, key.length = width →
      (after width changes).insert key value = .ok (after width (changes ++ [.set key value]))) ∧
    (∀ key value, key.length ≠ width →
      (after width changes).insert key value = .error (.dictionary .keyWidth) ∧
        after width (changes ++ [.set key value]) = after width changes) ∧
    ((after width changes).entries.Pairwise fun e e' => e.1.toList < e'.1.toList) ∧
    (∀ a b : Key, Key.compareBytes a b = Key.compare a b) ∧
    ∀ others, (∀ key, lastValue width others key = lastValue width changes key) →
      after width others = after width changes ∧
        (after width others).toRoot = (after width changes).toRoot := by
  have values : ∀ key, (after width changes).get? key = lastValue width changes key :=
    fun _ => get?_after
  have ordered : (after width changes).Ordered := ordered_after
  refine ⟨values, ?_, ?_, ?_, ordered.pairwise, Key.compareBytes_eq, ?_⟩
  · have keys := ordered.encard_keys
    simp only [values] at keys
    exact keys
  · intro key value wide
    rw [after_concat]
    exact insert_of_width (wide.trans keyWidth_after.symm)
  · intro key value wide
    rw [after_concat]
    exact insert_of_width_ne (keyWidth_after.trans_ne wide.symm).symm
  · intro others same
    have equal : after width others = after width changes := by
      apply ext_get? ordered_after ordered (keyWidth_after.trans keyWidth_after.symm)
      intro key
      rw [get?_after, same, values]
    exact ⟨equal, congrArg toRoot equal⟩

/-- A value that was set and removed again leaves no trace, nor does one under a key that is too
short. -/
theorem after_finite_map_removed :
    ∃ changes others : List Change, changes.length = 4 ∧ others.length = 1 ∧
      (∀ key, lastValue 2 others key = lastValue 2 changes key) ∧
      after 2 others = after 2 changes ∧ (after 2 others).toRoot = (after 2 changes).toRoot ∧
      (after 2 changes).insert ⟨[true], by decide⟩ .empty = .error (.dictionary .keyWidth) ∧
      (after 2 changes).size = 1 := by
  let first : Key := ⟨[false, false], by decide⟩
  let second : Key := ⟨[true, false], by decide⟩
  let short : Key := ⟨[true], by decide⟩
  have same : ∀ key, lastValue 2 [.set first .empty] key =
      lastValue 2 [.set second .empty, .set first .empty, .remove second, .set short .empty]
        key := by
    intro key
    by_cases isFirst : first = key
    · subst isFirst
      rfl
    by_cases isSecond : second = key
    · subst isSecond
      rfl
    by_cases isShort : short = key
    · subst isShort
      rfl
    simp [lastValue, Change.concerns, isFirst, isSecond, isShort]
  obtain ⟨_, _, _, refused, _, _, equal⟩ := after_finite_map 2
    [.set second .empty, .set first .empty, .remove second, .set short .empty]
  obtain ⟨dictionaries, roots⟩ := equal _ same
  exact ⟨_, _, rfl, rfl, same, dictionaries, roots, (refused short .empty (by decide)).1, rfl⟩

end History

end Dictionary

end CellBag
