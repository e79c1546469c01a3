import CellBag.Proofs.Cell.Message
import Mathlib

/-!
# Subtrees

`Cell.subcells` are the cells of a tree, and `Cell.messages` the messages that are hashed to make
them. `NoCollision` says of two trees that the digests of their messages are as different as the
messages: it is all that is assumed of the digest, and what is below two cells inherits it.
-/

namespace CellBag

namespace Cell

/-- A reference is smaller than its cell. -/
lemma sizeOf_ref {c r : Cell} (ref : r ∈ c.refs) : sizeOf r < sizeOf c := by
  cases c with
  | mk kind bits refs mask own =>
    have lt := List.sizeOf_lt_of_mem (show r ∈ refs from ref)
    simp only [mk.sizeOf_spec]
    omega

/-- What holds of a cell whenever it holds of the references holds of every cell. -/
@[elab_as_elim]
theorem induction {P : Cell → Prop} (step : ∀ c, (∀ r ∈ c.refs, P r) → P c) (c : Cell) : P c :=
  step c fun r _ref => induction step r
termination_by sizeOf c
decreasing_by exact sizeOf_ref _ref

mutual

/-- The cells of a tree, the root in front. -/
def subcells : Cell → List Cell
  | mk kind bits refs mask own => mk kind bits refs mask own :: subcellsOfAll refs

/-- The cells of several trees. -/
def subcellsOfAll : List Cell → List Cell
  | [] => []
  | c :: cs => subcells c ++ subcellsOfAll cs

end

/-- What lies below several cells lies below one of them. -/
lemma mem_subcellsOfAll {s : Cell} {cs : List Cell} :
    s ∈ subcellsOfAll cs ↔ ∃ c ∈ cs, s ∈ c.subcells := by
  induction cs with
  | nil => simp [subcellsOfAll]
  | cons c cs ih => rw [subcellsOfAll, List.mem_append, ih, List.exists_mem_cons_iff]

/-- A cell lies below itself, and so does what lies below its references. -/
lemma mem_subcells {s c : Cell} : s ∈ c.subcells ↔ s = c ∨ ∃ r ∈ c.refs, s ∈ r.subcells := by
  cases c with
  | mk kind bits refs mask own => rw [subcells, List.mem_cons, mem_subcellsOfAll]; rfl

/-- A cell lies below itself. -/
@[simp]
lemma self_mem_subcells (c : Cell) : c ∈ c.subcells :=
  mem_subcells.2 (Or.inl rfl)

/-- What lies below a reference lies below the cell. -/
lemma mem_subcells_of_ref {s r c : Cell} (ref : r ∈ c.refs) (mem : s ∈ r.subcells) :
    s ∈ c.subcells :=
  mem_subcells.2 (Or.inr ⟨r, ref, mem⟩)

/-- What lies below a cell that lies below another one lies below this one. -/
lemma mem_subcells_trans {s t c : Cell} (h : s ∈ t.subcells) (h' : t ∈ c.subcells) :
    s ∈ c.subcells := by
  induction c using Cell.induction with
  | step c ih =>
    cases mem_subcells.1 h' with
    | inl e => rwa [e] at h
    | inr h' =>
      obtain ⟨r, ref, mem⟩ := h'
      exact mem_subcells_of_ref ref (ih r ref mem)

/-- A cell does not lie below its references. -/
lemma not_mem_subcells_ref {c r : Cell} (ref : r ∈ c.refs) : c ∉ r.subcells := by
  have le (s : Cell) : ∀ t ∈ s.subcells, sizeOf t ≤ sizeOf s := by
    induction s using Cell.induction with
    | step s ih =>
      intro t mem
      rcases mem_subcells.1 mem with rfl | ⟨q, ref, mem⟩
      · exact Nat.le_refl _
      · exact Nat.le_trans (ih q ref t mem) (Nat.le_of_lt (sizeOf_ref ref))
  intro mem
  exact absurd (sizeOf_ref ref) (Nat.not_lt.2 (le r c mem))

/-- What lies below a cell that can be made can be made. -/
lemma Built.subcell {s c : Cell} (b : c.Built) (mem : s ∈ c.subcells) : s.Built := by
  induction c using Cell.induction with
  | step c ih =>
    cases mem_subcells.1 mem with
    | inl e => rwa [e]
    | inr mem =>
      obtain ⟨r, ref, mem⟩ := mem
      exact ih r ref (b.ref r ref) mem

/-- The messages that are hashed to make the cells of a tree. -/
def messages (c : Cell) : List (List UInt8) :=
  c.subcells.flatMap fun s => (ownLevels s.kind s.mask).map s.messageAt

/-- What is hashed at a level of its own is a message of a cell. -/
lemma messageAt_mem {c : Cell} {l : Nat} (mem : l ∈ ownLevels c.kind c.mask) :
    c.messageAt l ∈ c.messages :=
  List.mem_flatMap.2 ⟨c, self_mem_subcells c, List.mem_map_of_mem mem⟩

/-- The messages of what lies below a cell are messages of the cell. -/
lemma messages_subset {s c : Cell} (mem : s ∈ c.subcells) : s.messages ⊆ c.messages := by
  intro m hm
  obtain ⟨t, ht, hm⟩ := List.mem_flatMap.1 hm
  exact List.mem_flatMap.2 ⟨t, mem_subcells_trans ht mem, hm⟩

end Cell

/-- The messages that are hashed for two trees have different digests unless they are the same. -/
def NoCollision (a b : Cell) : Prop :=
  ∀ x ∈ a.messages ++ b.messages, ∀ y ∈ a.messages ++ b.messages, Digest.of x = Digest.of y → x = y

/-- There is no collision when the digests of the different messages differ in pairs. -/
lemma noCollision_iff {a b : Cell} :
    NoCollision a b ↔
      (a.messages ++ b.messages).dedup.Pairwise fun x y => Digest.of x ≠ Digest.of y := by
  constructor
  · intro clean
    refine (List.nodup_dedup _).imp_of_mem fun hx hy ne e => ne ?_
    exact clean _ (List.mem_dedup.1 hx) _ (List.mem_dedup.1 hy) e
  · intro distinct x hx y hy
    exact List.Pairwise.forall_of_forall_of_flip (R := fun x y => Digest.of x = Digest.of y → x = y)
      (fun _ _ _ => rfl) (distinct.imp fun ne e => (ne e).elim)
      (distinct.imp fun ne e => (ne e.symm).elim) (List.mem_dedup.2 hx) (List.mem_dedup.2 hy)

instance (a b : Cell) : Decidable (NoCollision a b) :=
  decidable_of_iff' _ noCollision_iff

/-- Where nothing collides below two cells, nothing does below parts of them. -/
lemma NoCollision.subcell {a b s t : Cell} (clean : NoCollision a b) (ha : s ∈ a.subcells)
    (hb : t ∈ b.subcells) : NoCollision s t := by
  have sub : s.messages ++ t.messages ⊆ a.messages ++ b.messages :=
    List.append_subset.2 ⟨List.Subset.trans (Cell.messages_subset ha) (List.subset_append_left _ _),
      List.Subset.trans (Cell.messages_subset hb) (List.subset_append_right _ _)⟩
  exact fun x hx y hy e => clean x (sub hx) y (sub hy) e

/-- Without a collision, cells with one hash at levels of their own have one message there. -/
lemma NoCollision.messageAt_eq {a b : Cell} (clean : NoCollision a b) (wa : a.WellFormed)
    (wb : b.WellFormed) {l k : Nat} (ml : l ∈ Cell.ownLevels a.kind a.mask)
    (mk : k ∈ Cell.ownLevels b.kind b.mask) (e : a.hashAt l = b.hashAt k) :
    a.messageAt l = b.messageAt k := by
  apply clean _ (List.mem_append_left _ (Cell.messageAt_mem ml)) _
    (List.mem_append_right _ (Cell.messageAt_mem mk))
  rw [← (wa.fingerprint_of_mem ml).1, ← (wb.fingerprint_of_mem mk).1, e]

end CellBag
