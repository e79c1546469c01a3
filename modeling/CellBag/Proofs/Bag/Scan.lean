import CellBag.Bag.Scan
import CellBag.Proofs.Binary
import CellBag.Proofs.Outcome

/-!
# Scanned bytes

What a scan succeeds on. `Between c xs c'` says that the bytes `xs` stand between two cursors; a
scan that gives a value is then the same as the bytes that spell this value, whatever follows them.
Scans in sequence read one part after the other (`between_append`), so that the bytes of a format
determine its scan and the scan the bytes.
-/

namespace CellBag

/-- Numbers of bytes take so many bytes each. -/
@[simp]
lemma Octets.length_flatMap_ofNat (size : Nat) (ns : List Nat) :
    (ns.flatMap (ofNat size)).length = ns.length * size := by
  induction ns with
  | nil => rw [List.flatMap_nil, List.length_nil, List.length_nil, Nat.zero_mul]
  | cons n ns ih =>
    rw [List.flatMap_cons, List.length_append, length_ofNat, ih, List.length_cons, Nat.succ_mul,
      Nat.add_comm]

namespace Bag

/-- These bytes stand between two cursors. -/
structure Between (c : Cursor) (xs : List UInt8) (c' : Cursor) : Prop where
  rest_eq : c.rest = xs ++ c'.rest
  position_eq : c'.position = c.position + xs.length

namespace Scan
variable {α β : Type} {c c' c'' : Cursor}

/-- Between a cursor and itself there are no bytes. -/
@[simp]
lemma between_nil : Between c [] c' ↔ c = c' := by
  constructor
  · rintro ⟨rest, position⟩
    cases c
    cases c'
    simp_all
  · rintro rfl
    exact ⟨rfl, rfl⟩

/-- Two parts stand between two cursors when there is a cursor between the parts. -/
lemma between_append {xs ys : List UInt8} :
    Between c (xs ++ ys) c'' ↔ ∃ c', Between c xs c' ∧ Between c' ys c'' := by
  constructor
  · rintro ⟨rest, position⟩
    refine ⟨⟨ys ++ c''.rest, c.position + xs.length⟩, ⟨?_, rfl⟩, ⟨rfl, ?_⟩⟩
    · rw [rest, List.append_assoc]
    · rw [position, List.length_append, Nat.add_assoc]
  · rintro ⟨c', ⟨rest, position⟩, ⟨rest', position'⟩⟩
    constructor
    · rw [rest, rest', List.append_assoc]
    · rw [position', position, List.length_append, Nat.add_assoc]

/-- A sequence of scans succeeds when the first one does, and the others do with what it gives. -/
lemma bind_eq_ok {x : Scan α} {f : α → Scan β} {b : β} :
    (x >>= f) c = .ok (b, c'') ↔ ∃ a c', x c = .ok (a, c') ∧ f a c' = .ok (b, c'') := by
  have h : (x >>= f) c = (x c >>= fun p => f p.1 p.2) := rfl
  rw [h, Outcome.bind_eq_ok]
  exact Prod.exists

/-- A value that is returned leaves the cursor where it is. -/
@[simp]
lemma pure_eq_ok {a b : α} : (pure a : Scan α) c = .ok (b, c') ↔ a = b ∧ c = c' := by
  show Except.ok (a, c) = .ok (b, c') ↔ _
  rw [Except.ok.injEq, Prod.mk.injEq]

/-- A scan behind a guard succeeds when the guard does not hold. -/
@[simp]
lemma guard_eq_ok {p : Prop} [Decidable p] {e : BagFault} {f : β → Scan α} {x : Scan α}
    {r : α × Cursor} :
    (if p then (throw e : Scan β) >>= f else x) c = .ok r ↔ ¬ p ∧ x c = .ok r := by
  by_cases h : p
  · rw [if_pos h]
    exact ⟨by rintro ⟨⟩, fun h' => absurd h h'.1⟩
  · simp [h]

/-- Behind a guard a scan succeeds if the guard lets it pass. -/
@[simp]
lemma guard_throw_eq_ok {p : Prop} [Decidable p] {e : BagFault} {x : Scan α} {r : α × Cursor} :
    (if p then throw e else x) c = .ok r ↔ ¬ p ∧ x c = .ok r := by
  by_cases h : p
  · rw [if_pos h]
    exact ⟨by rintro ⟨⟩, fun h' => absurd h h'.1⟩
  · simp [h]

/-- Bytes are scanned if there are as many. -/
lemma bytes_eq_ok {count : Nat} {xs : List UInt8} :
    bytes count c = .ok (xs, c') ↔ xs.length = count ∧ Between c xs c' := by
  rw [bytes]
  constructor
  · intro e
    split at e
    case isTrue len =>
      cases e
      exact ⟨len, (List.take_append_drop count c.rest).symm, by rw [len]⟩
    case isFalse => cases e
  · rintro ⟨rfl, ⟨rest, position⟩⟩
    rw [rest, List.take_left, List.drop_left, if_pos rfl, ← position]

/-- A byte is scanned if there is one. -/
lemma byte_eq_ok {b : UInt8} : byte c = .ok (b, c') ↔ Between c [b] c' := by
  rw [byte, bind_eq_ok]
  simp only [bytes_eq_ok, pure_eq_ok, List.length_eq_one_iff]
  constructor
  · rintro ⟨_, _, ⟨⟨b', rfl⟩, between⟩, rfl, rfl⟩
    exact between
  · intro between
    exact ⟨[b], c', ⟨⟨b, rfl⟩, between⟩, rfl, rfl⟩

/-- A number is read from its bytes, which it fits. -/
lemma nat_eq_ok {size n : Nat} :
    nat size c = .ok (n, c') ↔ n < 256 ^ size ∧ Between c (Octets.ofNat size n) c' := by
  rw [nat, bind_eq_ok]
  simp only [bytes_eq_ok, pure_eq_ok]
  constructor
  · rintro ⟨xs, _, ⟨rfl, between⟩, rfl, rfl⟩
    have e := Octets.ofNat_toNat xs
    have lt : Octets.toNat xs % 256 ^ xs.length = Octets.toNat xs := by
      rw [← Octets.toNat_ofNat, e]
    rw [e]
    exact ⟨lt ▸ Nat.mod_lt _ (Nat.pow_pos (by decide)), between⟩
  · rintro ⟨fits, between⟩
    exact ⟨_, c', ⟨Octets.length_ofNat size n, between⟩, Octets.toNat_ofNat_of_lt fits, rfl⟩

/-- Numbers are scanned from their bytes. -/
lemma nats_eq_ok {size count : Nat} {ns : List Nat} :
    nats size count c = .ok (ns, c') ↔
      ns.length = count ∧ (∀ n ∈ ns, n < 256 ^ size) ∧
        Between c (ns.flatMap (Octets.ofNat size)) c' := by
  induction count generalizing ns c with
  | zero =>
    rw [nats, pure_eq_ok, List.length_eq_zero_iff]
    constructor
    · rintro ⟨rfl, rfl⟩
      exact ⟨rfl, List.forall_mem_nil _, between_nil.2 rfl⟩
    · rintro ⟨rfl, _, between⟩
      exact ⟨rfl, between_nil.1 between⟩
  | succ count ih =>
    simp only [nats, bind_eq_ok, nat_eq_ok, pure_eq_ok]
    constructor
    · rintro ⟨n, c₁, ⟨lt, first⟩, later, c₂, e, rfl, rfl⟩
      obtain ⟨rfl, lts, others⟩ := ih.1 e
      refine ⟨rfl, List.forall_mem_cons.2 ⟨lt, lts⟩, ?_⟩
      rw [List.flatMap_cons]
      exact between_append.2 ⟨_, first, others⟩
    · rintro ⟨len, lts, between⟩
      obtain ⟨n, later, rfl⟩ := List.exists_cons_of_length_eq_add_one len
      rw [List.flatMap_cons] at between
      obtain ⟨c₁, first, others⟩ := between_append.1 between
      obtain ⟨lt, lts⟩ := List.forall_mem_cons.1 lts
      exact ⟨n, c₁, ⟨lt, first⟩, later, c', ih.2 ⟨Nat.succ.inj len, lts, others⟩, rfl, rfl⟩

/-- The position is that of the cursor. -/
lemma position_eq_ok {n : Nat} : position c = .ok (n, c') ↔ c.position = n ∧ c = c' := by
  show Except.ok (c.position, c) = .ok (n, c') ↔ _
  rw [Except.ok.injEq, Prod.mk.injEq]

/-- Bytes are there if they are left. -/
lemma ensure_eq_ok {count : Nat} {u : Unit} :
    ensure count c = .ok (u, c') ↔ count ≤ c.rest.length ∧ c = c' := by
  rw [ensure]
  by_cases h : count ≤ c.rest.length
  · simp [h]
  · simp [h]

/-- A scan is at its end if no bytes are left. -/
lemma finish_eq_ok {u : Unit} : finish c = .ok (u, c') ↔ c.rest = [] ∧ c = c' := by
  rw [finish]
  by_cases h : c.rest = []
  · simp [h]
  · simp [h]

/-- A step that is no scan reads nothing. -/
lemma lift_eq_ok {x : Except BagFault α} {a : α} :
    (liftM x : Scan α) c = .ok (a, c') ↔ x = .ok a ∧ c = c' := by
  cases x with
  | error =>
    constructor
    · rintro ⟨⟩
    · rintro ⟨⟨⟩, _⟩
  | ok b =>
    show Except.ok (b, c) = .ok (a, c') ↔ _
    rw [Except.ok.injEq, Except.ok.injEq, Prod.mk.injEq]

end Scan

/-- A number is written into a field that it fits. -/
lemma field_eq_ok {size n : Nat} {xs : List UInt8} :
    field size n = .ok xs ↔ n < 256 ^ size ∧ xs = Octets.ofNat size n := by
  have e : 1 <<< (8 * size) = 256 ^ size := by rw [Nat.one_shiftLeft, Nat.pow_mul]
  rw [field, e]
  by_cases h : n < 256 ^ size
  · simp only [h, if_true, Except.ok.injEq, true_and]
    exact eq_comm
  · simp [h]

/-- Numbers are written one after the other if they fit. -/
lemma fields_eq_ok {size : Nat} {ns : List Nat} {xs : List UInt8} :
    fields size ns = .ok xs ↔
      (∀ n ∈ ns, n < 256 ^ size) ∧ xs = ns.flatMap (Octets.ofNat size) := by
  simp only [fields, Outcome.bind_eq_ok, Outcome.pure_eq_ok, Outcome.mapM_eq_ok, field_eq_ok]
  constructor
  · rintro ⟨parts, each, rfl⟩
    induction each with
    | nil => exact ⟨List.forall_mem_nil _, rfl⟩
    | cons first _ ih =>
      obtain ⟨fits, rfl⟩ := first
      refine ⟨List.forall_mem_cons.2 ⟨fits, ih.1⟩, ?_⟩
      rw [List.flatten_cons, ih.2, List.flatMap_cons]
  · rintro ⟨fits, rfl⟩
    refine ⟨ns.map (Octets.ofNat size), ?_, rfl⟩
    exact List.forall₂_map_right_iff.2 (List.forall₂_same.2 fun n mem => ⟨fits n mem, rfl⟩)

end Bag

end CellBag
