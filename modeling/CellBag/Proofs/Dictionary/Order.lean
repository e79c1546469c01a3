import CellBag.Dictionary.Basic
import CellBag.Proofs.Cell.Built
import Mathlib

/-!
# Order of keys

Keys are compared as lists of bits, which is a strict order. The entries of a dictionary stand in
this order and have keys of its width, however they were inserted and erased
(`Dictionary.Built.wellFormed`).
-/

namespace CellBag

namespace Key
variable {a b c : List Bool}

/-- A key compares equal to itself. -/
@[simp]
lemma compareBits_self (a : List Bool) : compareBits a a = .eq := by
  induction a with
  | nil => rfl
  | cons x a ih => rw [compareBits, if_pos rfl, ih]

/-- What both lists begin with does not matter. -/
lemma compareBits_append (front a b : List Bool) :
    compareBits (front ++ a) (front ++ b) = compareBits a b := by
  induction front with
  | nil => rfl
  | cons x front ih => rw [List.cons_append, List.cons_append, compareBits, if_pos rfl, ih]

/-- Keys that compare equal are the same. -/
lemma compareBits_eq_eq : compareBits a b = .eq ↔ a = b := by
  constructor
  · intro e
    fun_induction compareBits a b with
    | case1 => rfl
    | case4 _ _ _ ih => rw [ih e]
    | _ => cases e
  · rintro rfl
    exact compareBits_self a

/-- A key is behind another one if the other one is before it. -/
lemma compareBits_eq_gt : compareBits a b = .gt ↔ compareBits b a = .lt := by
  fun_induction compareBits a b with
  | case1 => simp [compareBits]
  | case2 => simp [compareBits]
  | case3 => simp [compareBits]
  | case4 x as bs ih => rw [ih, compareBits, if_pos rfl]
  | case5 => simp_all [compareBits]
  | case6 => simp_all [compareBits]

/-- The first bits that differ decide on the order. -/
lemma compareBits_cons (x y : Bool) (a b : List Bool) :
    compareBits (x :: a) (y :: b) = .lt ↔ x = y ∧ compareBits a b = .lt ∨ x = false ∧ y = true := by
  cases x <;> cases y <;> simp [compareBits]

/-- A key before a key before another one is before that one. -/
lemma compareBits_lt_trans (h : compareBits a b = .lt) (h' : compareBits b c = .lt) :
    compareBits a c = .lt := by
  induction a generalizing b c with
  | nil =>
    cases c with
    | nil => cases b <;> cases h'
    | cons => rfl
  | cons x a ih =>
    cases b with
    | nil => cases h
    | cons y b =>
      cases c with
      | nil => cases h'
      | cons z c =>
        rw [compareBits_cons] at h h' ⊢
        rcases h with ⟨rfl, lt⟩ | ⟨rfl, rfl⟩
        · exact h'.imp_left fun e => ⟨e.1, ih lt e.2⟩
        · rcases h' with ⟨rfl, _⟩ | ⟨e, _⟩
          · exact Or.inr ⟨rfl, rfl⟩
          · cases e

/-- Keys one after the other, none of them twice. -/
def Ascending (keys : List (List Bool)) : Prop :=
  keys.Pairwise fun a b => compareBits a b = .lt

/-- Ascending keys are different from one another. -/
lemma Ascending.nodup {keys : List (List Bool)} (asc : Ascending keys) : keys.Nodup := by
  apply asc.imp
  intro a b lt same
  rw [same, compareBits_self] at lt
  cases lt

end Key

namespace Dictionary
variable {d d' : Dictionary} {key : Key} {value : Cell}

/-- What a dictionary keeps to: ascending keys of its width, and values that can be made. -/
structure WellFormed (d : Dictionary) : Prop where
  ascending : Key.Ascending (d.entries.map fun e => e.1.toList)
  width_eq : ∀ e ∈ d.entries, e.1.length = d.keyWidth
  built : ∀ e ∈ d.entries, e.2.Built

/-- The value under a key is that of the entry with this key. -/
lemma get?_eq_some_iff (nodup : (d.entries.map fun e => e.1.toList).Nodup) :
    d.get? key = some value ↔ (key, value) ∈ d.entries := by
  have keyed {e : Key × Cell} (found : (d.entries.find? fun e => e.1 = key) = some e) :
      e.1 = key := by simpa using List.find?_some found
  rw [get?, Option.map_eq_some_iff]
  constructor
  · intro found
    obtain ⟨e, found, rfl⟩ := found
    rw [← keyed found]
    exact List.mem_of_find?_eq_some found
  · intro mem
    have some : (d.entries.find? fun e => e.1 = key).isSome := by
      rw [List.find?_isSome]
      exact ⟨_, mem, decide_eq_true rfl⟩
    obtain ⟨e, found⟩ := Option.isSome_iff_exists.1 some
    -- no other entry has this key
    have only := List.inj_on_of_nodup_map nodup (List.mem_of_find?_eq_some found) mem
      (congrArg Bits.toList (keyed found))
    exact ⟨e, found, congrArg Prod.snd only⟩

/-- What is there after an insertion was inserted or has been there. -/
lemma mem_of_mem_insertEntry {e : Key × Cell} {es : List (Key × Cell)}
    (mem : e ∈ insertEntry key value es) : e = (key, value) ∨ e ∈ es := by
  induction es with
  | nil => exact Or.inl (List.mem_singleton.1 mem)
  | cons first es ih =>
    rw [insertEntry] at mem
    split at mem
    case h_1 => exact List.mem_cons.1 mem
    case h_2 => exact (List.mem_cons.1 mem).imp_right (List.mem_cons_of_mem first)
    case h_3 =>
      rcases List.mem_cons.1 mem with rfl | mem
      · exact Or.inr List.mem_cons_self
      · exact (ih mem).imp_right (List.mem_cons_of_mem first)

/-- Keys still ascend after an insertion. -/
lemma ascending_insertEntry {es : List (Key × Cell)}
    (asc : Key.Ascending (es.map fun e => e.1.toList)) :
    Key.Ascending ((insertEntry key value es).map fun e => e.1.toList) := by
  induction es with
  | nil => exact List.pairwise_singleton _ _
  | cons first es ih =>
    obtain ⟨before, rest⟩ := List.pairwise_cons.1 asc
    rw [insertEntry]
    split
    case h_1 lt =>
      refine List.pairwise_cons.2 ⟨fun k mem => ?_, asc⟩
      rcases List.mem_cons.1 mem with rfl | mem
      · exact lt
      · exact Key.compareBits_lt_trans lt (before k mem)
    case h_2 same =>
      have same : key.toList = first.1.toList := Key.compareBits_eq_eq.1 same
      refine List.pairwise_cons.2 ⟨fun k mem => ?_, rest⟩
      show Key.compareBits key.toList k = .lt
      rw [same]
      exact before k mem
    case h_3 gt =>
      refine List.pairwise_cons.2 ⟨fun k mem => ?_, ih rest⟩
      obtain ⟨e, me, rfl⟩ := List.mem_map.1 mem
      rcases mem_of_mem_insertEntry me with rfl | me
      · exact Key.compareBits_eq_gt.1 gt
      · exact before _ (List.mem_map_of_mem me)

/-- An entry whose key comes behind all others is inserted at the end. -/
lemma insertEntry_of_ascending {es : List (Key × Cell)}
    (asc : Key.Ascending ((es ++ [(key, value)]).map fun e => e.1.toList)) :
    insertEntry key value es = es ++ [(key, value)] := by
  induction es with
  | nil => rfl
  | cons first es ih =>
    obtain ⟨before, rest⟩ := List.pairwise_cons.1 asc
    have mem : (key, value) ∈ es ++ [(key, value)] := List.mem_append_right _ List.mem_cons_self
    have behind : Key.compare key first.1 = .gt :=
      Key.compareBits_eq_gt.2 (before _ (List.mem_map_of_mem mem))
    rw [insertEntry, behind, List.cons_append]
    exact congrArg (first :: ·) (ih rest)

/-- Entries in the order of their keys are those that are there when all have been inserted. -/
lemma foldl_insertEntry {es : List (Key × Cell)}
    (asc : Key.Ascending (es.map fun e => e.1.toList)) :
    es.foldl (fun all e => insertEntry e.1 e.2 all) [] = es := by
  induction es using List.reverseRecOn with
  | nil => rfl
  | append_singleton es last ih =>
    have front : Key.Ascending (es.map fun e => e.1.toList) :=
      asc.sublist ((List.sublist_append_left es [last]).map _)
    rw [List.foldl_append, ih front]
    exact insertEntry_of_ascending asc

/-- A dictionary stays well-formed when an entry is inserted. -/
lemma WellFormed.insert (wf : d.WellFormed) (built : value.Built)
    (e : d.insert key value = .ok d') : d'.WellFormed := by
  rw [Dictionary.insert] at e
  split at e
  case isTrue width =>
    cases e
    refine ⟨ascending_insertEntry wf.ascending, fun e mem => ?_, fun e mem => ?_⟩
    · rcases mem_of_mem_insertEntry mem with rfl | mem
      · exact width
      · exact wf.width_eq e mem
    · rcases mem_of_mem_insertEntry mem with rfl | mem
      · exact built
      · exact wf.built e mem
  case isFalse => cases e

/-- A dictionary stays well-formed when an entry is erased. -/
lemma WellFormed.erase (wf : d.WellFormed) (key : Key) : (d.erase key).WellFormed := by
  have sub : (d.erase key).entries.Sublist d.entries := List.filter_sublist
  exact ⟨wf.ascending.sublist (sub.map _), fun e mem => wf.width_eq e (sub.mem mem),
    fun e mem => wf.built e (sub.mem mem)⟩

/-- The dictionaries that are made of the empty one by inserting and erasing. -/
inductive Built (width : Nat) : Dictionary → Prop where
  | empty : Built width (.empty width)
  | insert {d d' : Dictionary} {key : Key} {value : Cell} :
    Built width d →
    value.Built →
    d.insert key value = .ok d' →
    Built width d'
  | erase {d : Dictionary} {key : Key} :
    Built width d →
    Built width (d.erase key)

variable {width : Nat}

/-- A dictionary that can be made has keys of its width. -/
lemma Built.keyWidth_eq (b : Built width d) : d.keyWidth = width := by
  induction b with
  | empty => rfl
  | insert _ _ e ih =>
    rw [Dictionary.insert] at e
    split at e
    case isTrue => cases e; exact ih
    case isFalse => cases e
  | erase _ ih => exact ih

/-- A dictionary that can be made is well-formed. -/
theorem Built.wellFormed (b : Built width d) : d.WellFormed := by
  induction b with
  | empty => exact ⟨List.Pairwise.nil, List.forall_mem_nil _, List.forall_mem_nil _⟩
  | insert _ built e ih => exact ih.insert built e
  | erase _ ih => exact ih.erase _

end Dictionary

end CellBag
