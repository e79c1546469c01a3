import CellBag.Dictionary.Trie
import CellBag.Proofs.Outcome
import CellBag.Proofs.Dictionary.Order
import Mathlib

/-!
# Tries of entries

Ascending entries whose keys have the same length have a trie, whose entries they are
(`Trie.exists_ofEntries`). The keys part at the first bit that they do not share: those with a zero
there come first, and go to the left.
-/

namespace CellBag.Trie

variable {α : Type}

/-- Entries below a label and a bit. -/
def under (label : List Bool) (bit : Bool) (es : List (List Bool × α)) : List (List Bool × α) :=
  es.map fun e => (label ++ bit :: e.1, e.2)

/-- The keys of a trie have this length. -/
def Fits : Trie α → (width : Nat) → Prop
  | leaf label _, width => label.length = width
  | fork label left right, width => label.length < width ∧
      left.Fits (width - label.length - 1) ∧ right.Fits (width - label.length - 1)

/-- Entries with ascending keys of the same length. -/
structure Sorted (width : Nat) (es : List (List Bool × α)) : Prop where
  ascending : Key.Ascending (es.map Prod.fst)
  length_eq : ∀ e ∈ es, e.1.length = width

variable {label : List Bool} {bit : Bool} {width : Nat} {es ls rs : List (List Bool × α)}

/-- A trie has one leaf for each entry. -/
lemma size_eq (t : Trie α) : t.size = t.entries.length := by
  induction t with
  | leaf => rfl
  | fork label left right ihl ihr =>
    rw [size, entries, List.length_append, List.length_map, List.length_map, ihl, ihr]

/-- Entries are still there under a label. -/
lemma under_ne_nil (ne : es ≠ []) : under label bit es ≠ [] := by
  rw [under, ne_eq, List.map_eq_nil_iff]
  exact ne

/-- A trie has entries. -/
lemma entries_ne_nil (t : Trie α) : t.entries ≠ [] := by
  induction t with
  | leaf label value => exact List.cons_ne_nil _ _
  | fork label left right ihl ihr =>
    exact List.append_ne_nil_of_left_ne_nil (under_ne_nil ihl) _

/-- Keys ascend under a label if they do without it. -/
lemma ascending_under :
    Key.Ascending ((under label bit es).map Prod.fst) ↔ Key.Ascending (es.map Prod.fst) := by
  rw [Key.Ascending, Key.Ascending, under, List.map_map, List.pairwise_map, List.pairwise_map]
  have same (a b : List Bool) : Key.compareBits (label ++ bit :: a) (label ++ bit :: b) =
      Key.compareBits a b := by
    rw [Key.compareBits_append, Key.compareBits, if_pos rfl]
  simp only [Function.comp_apply, same]

/-- Entries that are sorted under a label are sorted without it. -/
lemma Sorted.of_under (s : Sorted width (under label bit es)) :
    Sorted (width - label.length - 1) es := by
  refine ⟨ascending_under.1 s.ascending, fun e mem => ?_⟩
  have len := s.length_eq _ (List.mem_map_of_mem mem)
  rw [List.length_append, List.length_cons] at len
  omega

/-- Both parts of sorted entries are sorted. -/
lemma Sorted.of_append (s : Sorted width (ls ++ rs)) : Sorted width ls ∧ Sorted width rs := by
  have asc := s.ascending
  rw [List.map_append] at asc
  obtain ⟨left, right, _⟩ := List.pairwise_append.1 asc
  exact ⟨⟨left, fun e mem => s.length_eq e (List.mem_append_left rs mem)⟩,
    ⟨right, fun e mem => s.length_eq e (List.mem_append_right ls mem)⟩⟩

/-- Entries below a zero come before those below a one. -/
lemma Sorted.fork (lt : label.length < width) (sl : Sorted (width - label.length - 1) ls)
    (sr : Sorted (width - label.length - 1) rs) :
    Sorted width (under label false ls ++ under label true rs) := by
  constructor
  · rw [List.map_append]
    apply List.pairwise_append.2
    refine ⟨ascending_under.2 sl.ascending, ascending_under.2 sr.ascending, ?_⟩
    intro a left b right
    rw [under, List.map_map] at left right
    obtain ⟨l, _, rfl⟩ := List.mem_map.1 left
    obtain ⟨r, _, rfl⟩ := List.mem_map.1 right
    exact Key.compareBits_append label (false :: l.1) (true :: r.1)
  · have length (bit : Bool) {es : List (List Bool × α)}
        (s : Sorted (width - label.length - 1) es) : ∀ e ∈ under label bit es, e.1.length = width := by
      intro _ mem
      obtain ⟨e, stands, rfl⟩ := List.mem_map.1 mem
      have len := s.length_eq e stands
      rw [List.length_append, List.length_cons]
      omega
    exact List.forall_mem_append.2 ⟨length false sl, length true sr⟩

/-- Keys that are read off a trie from the left to the right ascend. -/
theorem Fits.sorted {t : Trie α} (fits : t.Fits width) : Sorted width t.entries := by
  induction t generalizing width with
  | leaf label value =>
    exact ⟨List.pairwise_singleton _ _, List.forall_mem_singleton.2 fits⟩
  | fork label left right ihl ihr =>
    obtain ⟨lt, fl, fr⟩ := fits
    exact .fork lt (ihl fl) (ihr fr)

/-- Ascending keys that are not empty begin with zeros first and with ones then. -/
lemma Sorted.exists_parts (s : Sorted (width + 1) es) :
    ∃ ls rs, es = under [] false ls ++ under [] true rs := by
  induction es with
  | nil => exact ⟨[], [], rfl⟩
  | cons e es ih =>
    obtain ⟨before, asc⟩ := List.pairwise_cons.1 s.ascending
    obtain ⟨ls, rs, rfl⟩ := ih ⟨asc, fun e mem => s.length_eq e (List.mem_cons_of_mem _ mem)⟩
    obtain ⟨key, value⟩ := e
    have len := s.length_eq _ List.mem_cons_self
    obtain ⟨bit, key, rfl⟩ := List.exists_cons_of_length_eq_add_one len
    cases bit with
    | false => exact ⟨(key, value) :: ls, rs, rfl⟩
    | true =>
      cases ls with
      | nil => exact ⟨[], (key, value) :: rs, rfl⟩
      | cons l ls =>
        have lt := before (false :: l.1) (List.mem_cons_self)
        rw [Key.compareBits_cons] at lt
        simp at lt

/-- Two or more ascending keys of the same length part below what all of them begin with. -/
lemma Sorted.exists_fork (s : Sorted width es) (several : 2 ≤ es.length) :
    ∃ label ls rs, es = under label false ls ++ under label true rs ∧ ls ≠ [] ∧ rs ≠ [] ∧
      label.length < width := by
  induction width generalizing es with
  | zero =>
    match es, several with
    | first :: second :: es, _ =>
      -- there is only one key without bits
      have none := List.length_eq_zero_iff.1 (s.length_eq first List.mem_cons_self)
      have none' := List.length_eq_zero_iff.1
        (s.length_eq second (List.mem_cons_of_mem _ List.mem_cons_self))
      have lt := (List.pairwise_cons.1 s.ascending).1 second.1 List.mem_cons_self
      rw [none, none'] at lt
      cases lt
  | succ width ih =>
    obtain ⟨ls, rs, rfl⟩ := s.exists_parts
    obtain ⟨left, right⟩ := s.of_append
    have deeper (bit : Bool) (es : List (List Bool × α))
        (sub : Sorted (width + 1) (under [] bit es)) (several : 2 ≤ (under [] bit es).length) :
        ∃ label ls rs,
        under [] bit es = under label false ls ++ under label true rs ∧ ls ≠ [] ∧ rs ≠ [] ∧
          label.length < width + 1 := by
      rw [under, List.length_map] at several
      obtain ⟨label, ls, rs, rfl, hl, hr, lt⟩ := ih sub.of_under several
      refine ⟨bit :: label, ls, rs, ?_, hl, hr, Nat.succ_lt_succ lt⟩
      rw [under, List.map_append, under, under, List.map_map, List.map_map]
      rfl
    by_cases hl : ls = []
    · subst hl
      exact deeper true rs right several
    · by_cases hr : rs = []
      · subst hr
        have none : under [] true ([] : List (List Bool × α)) = [] := rfl
        rw [none, List.append_nil] at several ⊢
        exact deeper false ls left several
      · exact ⟨[], ls, rs, rfl, hl, hr, Nat.succ_pos _⟩

/-- Keys that part behind a label have it as their common prefix. -/
lemma commonPrefix_append (label a b : List Bool) :
    commonPrefix (label ++ false :: a) (label ++ true :: b) = label := by
  induction label with
  | nil => rfl
  | cons x label ih => rw [List.cons_append, List.cons_append, commonPrefix, if_pos rfl, ih]

/-- The bit behind the label tells the side of a key. -/
lemma getElem?_under (label : List Bool) (bit : Bool) (key : List Bool) :
    ((label ++ bit :: key)[label.length]?.getD false == false) = !bit := by
  rw [List.getElem?_append_right (Nat.le_refl _), Nat.sub_self]
  cases bit <;> rfl

/-- Without the label and the bit behind it there are the entries that were put under them. -/
lemma map_drop_under (label : List Bool) (bit : Bool) (es : List (List Bool × α)) :
    (under label bit es).map (fun e => (e.1.drop (label.length + 1), e.2)) = es := by
  rw [under, List.map_map]
  refine (List.map_congr_left fun e _ => ?_).trans (List.map_id es)
  rw [Function.comp_apply, List.drop_length_add_append]
  rfl

/-- The entries that go to the left are those below a zero. -/
lemma span_under (label : List Bool) (ls rs : List (List Bool × α)) :
    (under label false ls ++ under label true rs).takeWhile
        (fun e => e.1[label.length]?.getD false == false) = under label false ls ∧
      (under label false ls ++ under label true rs).dropWhile
        (fun e => e.1[label.length]?.getD false == false) = under label true rs := by
  induction ls with
  | nil =>
    cases rs with
    | nil => exact ⟨rfl, rfl⟩
    | cons r rs =>
      have stop := getElem?_under label true r.1
      simp only [under, List.map_nil, List.nil_append, List.map_cons, List.takeWhile_cons,
        List.dropWhile_cons, stop]
      exact ⟨rfl, rfl⟩
  | cons l ls ih =>
    have go := getElem?_under label false l.1
    simp only [under, List.map_cons, List.cons_append, List.takeWhile_cons, List.dropWhile_cons, go]
    exact ⟨congrArg _ ih.1, ih.2⟩

/-- The keys are split where they part: behind the label, zeros to the left and ones to the
right. -/
lemma ofEntries_under {forks : Nat} (hl : ls ≠ []) (hr : rs ≠ []) :
    ofEntries (forks + 1) (under label false ls ++ under label true rs) = (do
      let left ← ofEntries forks ls
      let right ← ofEntries forks rs
      return fork label left right) := by
  obtain ⟨l, ls, rfl⟩ := List.exists_cons_of_ne_nil hl
  have tail : under label false ls ++ under label true rs ≠ [] :=
    List.append_ne_nil_of_right_ne_nil _ (under_ne_nil hr)
  obtain ⟨second, more, e⟩ := List.exists_cons_of_ne_nil tail
  have last : (second :: more).getLast (List.cons_ne_nil _ _) =
      (label ++ true :: (rs.getLast hr).1, (rs.getLast hr).2) := by
    simp only [← e]
    rw [List.getLast_append_of_right_ne_nil _ _ (under_ne_nil hr)]
    exact List.getLast_map _
  have all : under label false (l :: ls) ++ under label true rs =
      (label ++ false :: l.1, l.2) :: second :: more := by
    rw [← e]
    rfl
  have long : ¬ (label ++ false :: l.1).length ≤ label.length := by
    rw [List.length_append, List.length_cons]
    omega
  rw [all, ofEntries]
  simp only [last, commonPrefix_append, if_neg long, ← all]
  rw [(span_under label (l :: ls) rs).1, (span_under label (l :: ls) rs).2, map_drop_under,
    map_drop_under]

/-- Ascending entries with keys of the same length have a trie, if there are any. -/
theorem exists_ofEntries {forks : Nat} (s : Sorted width es) (ne : es ≠ []) (le : width ≤ forks) :
    ∃ t, ofEntries forks es = .ok t ∧ t.entries = es ∧ t.Fits width := by
  induction width using Nat.strong_induction_on generalizing forks es with
  | h width ih =>
    match es, ne with
    | [(key, value)], _ =>
      exact ⟨leaf key value, by rw [ofEntries], rfl, s.length_eq _ List.mem_cons_self⟩
    | first :: second :: es, _ =>
      obtain ⟨label, ls, rs, e, hl, hr, lt⟩ := s.exists_fork (by simp)
      obtain ⟨forks, rfl⟩ := Nat.exists_eq_add_one.2 (by omega : 0 < forks)
      rw [e] at s ⊢
      obtain ⟨sl, sr⟩ := s.of_append
      have shorter : width - label.length - 1 < width := by omega
      have enough : width - label.length - 1 ≤ forks := by omega
      obtain ⟨left, el, rfl, fl⟩ := ih _ shorter sl.of_under hl enough
      obtain ⟨right, er, rfl, fr⟩ := ih _ shorter sr.of_under hr enough
      refine ⟨fork label left right, ?_, rfl, lt, fl, fr⟩
      rw [ofEntries_under hl hr, el, er]
      rfl

end CellBag.Trie
