import CellBag.Builder
import CellBag.Proofs.Cell.Built
import CellBag.Proofs.Outcome
import Mathlib

/-!
# Written cells

What an action of a builder appends. `Builder.Between b xs cs b'` says that a builder has these bits
and references behind those of another one; an action succeeds when it has room for what it appends.
The cell that is written then has these bits and references (`Store.toCell_eq_ok`).
-/

namespace CellBag

/-- These bits and references stand between two builders: the second one has them behind those of
the first one. -/
structure Builder.Between (b : Builder) (xs : List Bool) (cs : List Cell) (b' : Builder) :
    Prop where
  bits_eq : b'.bits.toList = b.bits.toList ++ xs
  refs_eq : b'.refs = b.refs ++ cs
  exotic_eq : b'.exotic = b.exotic

namespace Builder
variable {b b' b'' : Builder}

/-- Two parts stand between two builders when there is a builder between the parts. -/
lemma between_append {xs ys : List Bool} {cs ds : List Cell} :
    Between b (xs ++ ys) (cs ++ ds) b'' ↔ ∃ b', Between b xs cs b' ∧ Between b' ys ds b'' := by
  constructor
  · rintro ⟨bits, refs, exotic⟩
    have le := b''.bits.length_le
    rw [bits, ← List.append_assoc, List.length_append] at le
    let between : Builder := ⟨⟨b.bits.toList ++ xs, by omega⟩, b.refs ++ cs, b.exotic⟩
    refine ⟨between, ⟨rfl, rfl, rfl⟩, ?_, ?_, exotic⟩
    · rw [bits, List.append_assoc]
    · rw [refs, List.append_assoc]
  · rintro ⟨b', ⟨bits, refs, exotic⟩, ⟨bits', refs', exotic'⟩⟩
    refine ⟨?_, ?_, exotic'.trans exotic⟩
    · rw [bits', bits, List.append_assoc]
    · rw [refs', refs, List.append_assoc]

/-- What is appended had room. -/
lemma Between.length_le {xs : List Bool} {cs : List Cell} (h : Between b xs cs b') :
    xs.length ≤ b.availableBits := by
  have le := b'.bits.length_le
  rw [h.bits_eq, List.length_append] at le
  rw [availableBits, Bits.available, Bits.capacity, Bits.length]
  omega

/-- References that are appended take their room. -/
lemma Between.availableRefs_eq {xs : List Bool} {cs : List Cell} (h : Between b xs cs b') :
    b'.availableRefs = b.availableRefs - cs.length := by
  rw [availableRefs, availableRefs, h.refs_eq, List.length_append, Nat.sub_add_eq]

/-- Bits that have room can be appended. -/
lemma exists_between {xs : List Bool} (room : xs.length ≤ b.availableBits) :
    ∃ b', Between b xs [] b' := by
  have le : (b.bits.toList ++ xs).length ≤ Bits.capacity := by
    have below := b.bits.length_le
    rw [availableBits, Bits.available, Bits.length, Bits.capacity] at room
    rw [List.length_append, Bits.capacity]
    omega
  exact ⟨⟨⟨_, le⟩, b.refs, b.exotic⟩, rfl, (List.append_nil _).symm, rfl⟩

end Builder

namespace Store
open Builder
variable {b b' : Builder} {u : Unit}

/-- Bits are appended behind those that are there. -/
lemma append_eq_ok {xs : List Bool} :
    write (·.append xs) b = .ok u b' ↔ Between b xs [] b' := by
  rw [write, Bits.append]
  split
  case h_1 bits e =>
    split at e
    case isTrue room =>
      cases e
      constructor
      · rintro ⟨⟩
        exact ⟨rfl, (List.append_nil _).symm, rfl⟩
      · rintro ⟨bits, refs, exotic⟩
        obtain ⟨⟨list, _⟩, refs', exotic'⟩ := b'
        rw [List.append_nil] at refs
        cases bits
        cases refs
        cases exotic
        rfl
    case isFalse => cases e
  case h_2 e =>
    split at e
    case isTrue => cases e
    case isFalse room => exact ⟨by rintro ⟨⟩, fun h => absurd h.length_le room⟩

/-- Room for bits is ensured if there is as much. -/
lemma ensureBits_eq_ok {count : Nat} :
    ensureBits count b = .ok u b' ↔ count ≤ b.availableBits ∧ b = b' := by
  rw [ensureBits]
  split
  case isTrue room => exact ⟨by rintro ⟨⟩; exact ⟨room, rfl⟩, by rintro ⟨_, rfl⟩; rfl⟩
  case isFalse full => exact ⟨by rintro ⟨⟩, fun h => absurd h.1 full⟩

/-- Room for references is ensured if there is as much. -/
lemma ensureRefs_eq_ok {count : Nat} :
    ensureRefs count b = .ok u b' ↔ count ≤ b.availableRefs ∧ b = b' := by
  rw [ensureRefs]
  split
  case isTrue room => exact ⟨by rintro ⟨⟩; exact ⟨room, rfl⟩, by rintro ⟨_, rfl⟩; rfl⟩
  case isFalse full => exact ⟨by rintro ⟨⟩, fun h => absurd h.1 full⟩

/-- References are appended behind those that are there. -/
lemma appendRefs_eq_ok {cs : List Cell} : appendRefs cs b = .ok u b' ↔ Between b [] cs b' := by
  constructor
  · rintro ⟨⟩
    exact ⟨(List.append_nil _).symm, rfl, rfl⟩
  · rintro ⟨bits, refs, exotic⟩
    obtain ⟨bits', refs', exotic'⟩ := b'
    rw [List.append_nil] at bits
    cases Bits.ext bits
    cases refs
    cases exotic
    rfl

/-- A reference is stored if there is room for one. -/
lemma ref_eq_ok {c : Cell} : ref c b = .ok u b' ↔ 1 ≤ b.availableRefs ∧ Between b [] [c] b' := by
  simp only [ref, Outcome.action_bind_eq_ok, ensureRefs_eq_ok, appendRefs_eq_ok]
  constructor
  · rintro ⟨_, _, ⟨room, rfl⟩, h⟩
    exact ⟨room, h⟩
  · rintro ⟨room, h⟩
    exact ⟨(), b, ⟨room, rfl⟩, h⟩

/-- Bits and references are stored together when there is room for both. -/
lemma pair_eq_ok {xs : List Bool} {cs : List Cell} {n : Nat} (len : xs.length = n) :
    (do
      ensureBits n
      ensureRefs cs.length
      write (·.append xs)
      appendRefs cs : Store Unit) b = .ok u b' ↔
      cs.length ≤ b.availableRefs ∧ Between b xs cs b' := by
  simp only [Outcome.action_bind_eq_ok, ensureBits_eq_ok, ensureRefs_eq_ok, append_eq_ok,
    appendRefs_eq_ok]
  constructor
  · rintro ⟨_, _, ⟨_, rfl⟩, _, _, ⟨room, rfl⟩, _, b₁, first, second⟩
    have both := between_append.2 ⟨b₁, first, second⟩
    rw [List.append_nil] at both
    exact ⟨room, both⟩
  · rintro ⟨room, h⟩
    have split : Between b (xs ++ []) ([] ++ cs) b' := by rwa [List.append_nil]
    obtain ⟨b₁, first, second⟩ := between_append.1 split
    exact ⟨(), b, ⟨len ▸ h.length_le, rfl⟩, (), b, ⟨room, rfl⟩, (), b₁, first, second⟩

/-- The bits and references of a cell are stored if there is room for them. -/
lemma cell_eq_ok {c : Cell} :
    cell c b = .ok u b' ↔ c.refs.length ≤ b.availableRefs ∧ Between b c.bits.toList c.refs b' :=
  pair_eq_ok rfl

/-- What is left of a slice is stored if there is room for it. -/
lemma slice_eq_ok {s : Slice} :
    slice s b = .ok u b' ↔
      s.remainingRefs.length ≤ b.availableRefs ∧ Between b s.remainingBits s.remainingRefs b' := by
  have refs : s.refsLeft = s.remainingRefs.length := (List.length_drop ..).symm
  rw [slice, refs]
  exact pair_eq_ok (List.length_drop ..)

/-- The cell that an action writes is the one that its builder makes. -/
lemma toCell_eq_ok_iff_finish {action : Store Unit} {c : Cell} :
    toCell action = .ok c ↔ ∃ u b, action Builder.empty = .ok u b ∧ b.finish = .ok c := by
  rw [toCell]
  cases action Builder.empty with
  | ok u b =>
    refine ⟨fun e => ⟨u, b, rfl, e⟩, ?_⟩
    rintro ⟨_, _, ⟨⟩, e⟩
    exact e
  | error e b => exact ⟨by rintro ⟨⟩, by rintro ⟨_, _, ⟨⟩, _⟩⟩

/-- The cell that an action writes which appends these bits and references. -/
lemma toCell_eq_ok {action : Store Unit} {xs : List Bool} {cs : List Cell} {c : Cell}
    (run : ∀ u b, action Builder.empty = .ok u b ↔
      cs.length ≤ Cell.maxRefs ∧ Between Builder.empty xs cs b) :
    toCell action = .ok c ↔
      c.bits.toList = xs ∧ c.refs = cs ∧ c.isExotic = false ∧ c.WellFormed := by
  rw [toCell_eq_ok_iff_finish]
  constructor
  · rintro ⟨u, b, ran, e⟩
    obtain ⟨_, bits, refs, exotic⟩ := (run u b).1 ran
    obtain ⟨same, same', ordinary, wf⟩ := Cell.finalize_eq_ok.1 e
    exact ⟨(congrArg Bits.toList same).trans bits, same'.trans refs, ordinary.trans exotic, wf⟩
  · rintro ⟨rfl, rfl, ordinary, wf⟩
    refine ⟨(), ⟨c.bits, c.refs, false⟩, (run _ _).2 ⟨wf.refs_le, rfl, rfl, rfl⟩, ?_⟩
    exact Cell.finalize_eq_ok.2 ⟨rfl, rfl, ordinary, wf⟩

end Store
end CellBag
