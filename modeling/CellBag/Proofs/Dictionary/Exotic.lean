import CellBag.Proofs.Cell.Binding
import CellBag.Proofs.Dictionary.Uniqueness
import Mathlib

/-!
# Exotic values

A value is stored by its bits and references, and what is read back is an ordinary cell. So a
dictionary comes back from its root as it was exactly if its values are ordinary
(`Dictionary.ofRoot_toRoot_iff_ordinary`). An exotic value comes back as another cell, and nothing
reports this.
-/

namespace CellBag

namespace Dictionary
variable {d d' : Dictionary} {root : Cell} {limit : Nat}

/-- Equal dictionaries have the same keys, and values with the same hashes. -/
lemma beq_iff : (d == d') = true ↔ d.keyWidth = d'.keyWidth ∧
    List.Forall₂ (fun e e' => e.1 = e'.1 ∧ e.2.hash = e'.2.hash) d.entries d'.entries := by
  obtain ⟨width, es⟩ := d
  obtain ⟨width', es'⟩ := d'
  have entries : (es == es') = true ↔
      List.Forall₂ (fun e e' => e.1 = e'.1 ∧ e.2.hash = e'.2.hash) es es' := by
    induction es generalizing es' with
    | nil =>
      cases es' with
      | nil => exact iff_of_true rfl .nil
      | cons e' es' => exact iff_of_false (fun h => nomatch h) fun h => nomatch h
    | cons e es ih =>
      cases es' with
      | nil => exact iff_of_false (fun h => nomatch h) fun h => nomatch h
      | cons e' es' =>
        have first : (e == e') = true ↔ e.1 = e'.1 ∧ e.2.hash = e'.2.hash := by
          show (e.1 == e'.1 && e.2.hash == e'.2.hash) = true ↔ _
          rw [Bool.and_eq_true, beq_iff_eq, beq_iff_eq]
        rw [List.cons_beq_cons, Bool.and_eq_true, first, ih, List.forall₂_cons]
  show (width == width' && es == es') = true ↔ _
  rw [Bool.and_eq_true, beq_iff_eq, entries]

/-- The messages that are hashed for the values of two dictionaries under the same keys have different
digests unless they are the same. -/
def NoCollision (d d' : Dictionary) : Prop :=
  List.Forall₂ (fun e e' => CellBag.NoCollision e.2 e'.2) d.entries d'.entries

instance (d d' : Dictionary) : Decidable (NoCollision d d') :=
  inferInstanceAs (Decidable (List.Forall₂ _ d.entries d'.entries))

/-- What is read back for an entry is the entry exactly if its value is ordinary. -/
lemma Restores.eq_iff {e e' : Key × Cell} (r : Restores e e') (built : e.2.Built) :
    e = e' ↔ e.2.isExotic = false := by
  constructor
  · intro same
    rw [same]
    exact r.ordinary
  · intro ordinary
    exact (r.eq built ordinary).symm

/-- A value that is read back has its hash exactly if it is ordinary. -/
lemma Restores.hash_eq_iff {e e' : Key × Cell} (r : Restores e e') (built : e.2.Built)
    (clean : CellBag.NoCollision e.2 e'.2) : e.2.hash = e'.2.hash ↔ e.2.isExotic = false := by
  constructor
  · intro same
    obtain ⟨_, _, exotic, _⟩ := clean.top built.wellFormed r.wellFormed same
    exact exotic.trans r.ordinary
  · intro ordinary
    rw [r.eq built ordinary]

/-- Lists are related in pairs exactly if the members of the first one have the property that this
takes for each pair. -/
lemma forall₂_iff_forall_mem {α β : Type} {Q R : α → β → Prop} {P : α → Prop} {xs : List α}
    {ys : List β} (h : List.Forall₂ Q xs ys) (each : ∀ x y, Q x y → (R x y ↔ P x)) :
    List.Forall₂ R xs ys ↔ ∀ x ∈ xs, P x := by
  induction h with
  | nil => exact iff_of_true .nil (List.forall_mem_nil _)
  | cons first _ ih =>
    rw [List.forall₂_cons, List.forall_mem_cons]
    exact and_congr (each _ _ first) ih

/-- From its root a dictionary is read back, within limits that are large enough. The entries are the
same ones exactly if all values are ordinary. -/
lemma WellFormed.exists_restored (wf : d.WellFormed) (stored : d.toRoot = .ok (some root)) :
    ∃ es, (∀ limit, d.size ≤ limit → ofRoot root d.keyWidth limit = .ok ⟨d.keyWidth, es⟩) ∧
      List.Forall₂ Restores d.entries es ∧
      (d.entries = es ↔ ∀ e ∈ d.entries, e.2.isExotic = false) := by
  cases toRoot_eq_ok.1 stored with
  | inl none => cases none.2
  | inr some =>
    obtain ⟨ne, t, c, et, ec, same⟩ := some
    cases same
    obtain ⟨es, restored, run⟩ := exists_ofRoot wf ne et ec
    have entries := (List.forall₂_and_left _ _).2 ⟨wf.built, restored⟩
    refine ⟨es, fun limit le => ?_, restored, ?_⟩
    · rw [run, if_pos le]
    · rw [← forall₂_iff_forall_mem entries fun e e' h => h.2.eq_iff h.1, List.forall₂_eq_eq_eq]

/-- From its root a dictionary is read back, with the same bits and references under each key. It is
the same dictionary exactly if its values are ordinary, and an equal one in no other case. -/
theorem ofRoot_toRoot_iff_ordinary (h : Reachable d) (stored : d.toRoot = .ok (some root))
    (le : d.size ≤ limit) :
    ∃ d', ofRoot root d.keyWidth limit = .ok d' ∧ d'.keyWidth = d.keyWidth ∧
      List.Forall₂ Restores d.entries d'.entries ∧
      (d = d' ↔ ∀ e ∈ d.entries, e.2.isExotic = false) ∧
      (NoCollision d d' → ((d == d') = true ↔ ∀ e ∈ d.entries, e.2.isExotic = false)) := by
  have wf := h.wellFormed
  obtain ⟨es, read, restored, same⟩ := wf.exists_restored stored
  refine ⟨_, read limit le, rfl, restored, ?_, fun clean => ?_⟩
  · rw [← same]
    constructor
    · intro equal
      exact congrArg Dictionary.entries equal
    · intro equal
      rw [← equal]
  · have apart : List.Forall₂ (fun e e' => (e.2.Built ∧ Restores e e') ∧
        CellBag.NoCollision e.2 e'.2) d.entries es := by
      obtain ⟨len, made⟩ := List.forall₂_iff_zip.1
        ((List.forall₂_and_left _ _).2 ⟨wf.built, restored⟩)
      obtain ⟨_, clean⟩ := List.forall₂_iff_zip.1 clean
      exact List.forall₂_iff_zip.2 ⟨len, fun pair => ⟨made pair, clean pair⟩⟩
    rw [beq_iff, ← forall₂_iff_forall_mem apart fun e e' h =>
      (and_iff_right h.1.2.key_eq.symm).trans (h.1.2.hash_eq_iff h.1.1 h.2)]
    exact and_iff_right rfl

/-- A reference to a library comes back as an ordinary cell, so that the dictionary is another one. -/
theorem ofRoot_toRoot_iff_ordinary_library :
    ∃ value d root d', Cell.library default = .ok value ∧
      (empty 1).insert ⟨[false], by decide⟩ value = .ok d ∧ d.toRoot = .ok (some root) ∧
      ofRoot root 1 1 = .ok d' ∧ d ≠ d' ∧ (d == d') = false := by
  have run : (do
      let value ← Cell.library default
      let d ← (empty 1).insert ⟨[false], by decide⟩ value
      let root ← d.toRoot
      let d' ← ofRoot (root.getD .empty) 1 1
      return (root.isSome, d.keyWidth, d.size, decide (∀ e ∈ d.entries, e.2.isExotic = false),
        decide (NoCollision d d'))) = .ok (true, 1, 1, false, true) := by
    decide +kernel
  simp only [Outcome.bind_eq_ok, Outcome.pure_eq_ok, Prod.mk.injEq, decide_eq_true_eq,
    decide_eq_false_iff_not] at run
  obtain ⟨value, ev, d, ed, root, er, d', ed', stored, width, size, exotic, clean⟩ := run
  obtain ⟨root, rfl⟩ := Option.isSome_iff_exists.1 stored
  have built : value.Built := .ofKind (List.forall_mem_nil _) ev
  have reachable : Reachable d := .insert .empty built ed
  obtain ⟨back, read, _, _, same, equal⟩ := ofRoot_toRoot_iff_ordinary reachable er (Nat.le_of_eq size)
  rw [width, show ofRoot root 1 1 = .ok d' from ed'] at read
  cases read
  exact ⟨value, d, root, d', ev, ed, er, ed', fun h => exotic (same.1 h),
    Bool.eq_false_iff.2 fun h => exotic ((equal clean).1 h)⟩

end Dictionary

end CellBag
