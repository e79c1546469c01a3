import CellBag.Proofs.Cell.Subtree
import CellBag.Proofs.Slice.Reads
import CellBag.Snake
import Mathlib

/-!
# Chains of cells

What is read from a chain of cells, link by link: the bytes of all links when each of them has whole
bytes, and nothing otherwise (`Snake.toBytes_eq`). Bytes that are read and found to be no text count
as read, so that the slice is only left as it was when some link has no whole bytes
(`Load.snake_failures`).
-/

namespace CellBag

namespace Snake
variable {link : List Bool} {chain : List (List Bool)} {bytes : List UInt8} {e : Error}

/-- The data of a chain of cells, link by link. -/
def links : Cell → List (List Bool)
  | .mk _ bits [] _ _ => [bits.toList]
  | .mk _ bits (next :: _) _ _ => bits.toList :: links next

/-- Each link of a chain has whole bytes. -/
def Whole (chain : List (List Bool)) : Prop :=
  ∀ link ∈ chain, link.length % 8 = 0

instance (chain : List (List Bool)) : Decidable (Whole chain) :=
  inferInstanceAs (Decidable (∀ link ∈ chain, _))

/-- The bytes of a chain, if its links have whole bytes. -/
def gather (chain : List (List Bool)) : Except Error (List UInt8) :=
  if Whole chain then .ok (chain.flatMap Octets.pack) else .error (.encoding .unaligned)

/-- The bytes of a chain are gathered if all its links have whole bytes. -/
lemma gather_eq_ok : gather chain = .ok bytes ↔ Whole chain ∧ chain.flatMap Octets.pack = bytes := by
  rw [gather, Outcome.check_eq_ok, Except.ok.injEq]

/-- A chain is refused if one of its links ends within a byte. -/
lemma gather_eq_error : gather chain = .error e ↔ ¬ Whole chain ∧ e = .encoding .unaligned := by
  rw [gather]
  split
  case isTrue whole => exact iff_of_false (fun h => nomatch h) fun h => h.1 whole
  case isFalse part =>
    rw [Except.error.injEq, eq_comm]
    exact (and_iff_right part).symm

/-- A link is read before the chain behind it. -/
lemma gather_cons (link : List Bool) (chain : List (List Bool)) :
    gather (link :: chain) = (do
      let here ← wholeBytes link
      let rest ← gather chain
      return here ++ rest) := by
  have both : Whole (link :: chain) ↔ link.length % 8 = 0 ∧ Whole chain := List.forall_mem_cons
  rw [wholeBytes]
  by_cases here : link.length % 8 = 0
  · rw [if_pos here, Outcome.ok_bind]
    by_cases behind : Whole chain
    · rw [gather, gather, if_pos behind, if_pos (both.2 ⟨here, behind⟩)]
      rfl
    · rw [gather, gather, if_neg behind, if_neg fun whole => behind (both.1 whole).2]
      rfl
  · rw [gather, if_neg here, if_neg fun whole => here (both.1 whole).1]
    rfl

/-- The last link of a chain is read by itself. -/
lemma gather_singleton (link : List Bool) : gather [link] = wholeBytes link := by
  rw [gather_cons]
  cases wholeBytes link with
  | ok here => exact congrArg Except.ok (List.append_nil here)
  | error e => rfl

/-- A chain of cells is read link by link. -/
theorem toBytes_eq (c : Cell) : toBytes c = gather (links c) := by
  induction c using Cell.induction with
  | step c ih =>
    obtain ⟨kind, bits, refs, mask, own⟩ := c
    cases refs with
    | nil => rw [toBytes, links, gather_singleton]
    | cons next refs => rw [toBytes, links, gather_cons, ih next List.mem_cons_self]

end Snake

namespace Slice

/-- The data of the chain that begins with what is left of a slice, link by link. -/
def links (s : Slice) : List (List Bool) :=
  match s.remainingRefs with
  | [] => [s.remainingBits]
  | next :: _ => s.remainingBits :: Snake.links next

/-- The slice behind its own link of a chain: all its bits are read, and its first reference. -/
def behindLink (s : Slice) : Slice :=
  s.advance s.bitsLeft (min 1 s.refsLeft)

end Slice

namespace Load
open Outcome Slice
variable {s t : Slice} {e : Error}

/-- What is left of a slice is read as a chain, and the slice moves on over its own link. -/
lemma snake_eq (s : Slice) :
    snake s = match Snake.gather s.links with
      | .ok bytes => .ok bytes s.behindLink
      | .error e => .error e s := by
  have run : snake s = atomically (do
      let here ← ofExcept (Snake.wholeBytes s.remainingBits)
      advance s.bitsLeft 0
      match s.remainingRefs with
      | [] => return here
      | next :: _ =>
        advance 0 1
        let rest ← ofExcept (Snake.toBytes next)
        return here ++ rest) s := rfl
  have refs : s.refsLeft = s.remainingRefs.length := (List.length_drop ..).symm
  rw [run, Slice.links, behindLink, refs]
  cases s.remainingRefs with
  | nil =>
    dsimp only
    rw [Snake.gather_singleton]
    cases Snake.wholeBytes s.remainingBits with
    | ok bytes => rfl
    | error e => rfl
  | cons next more =>
    dsimp only
    rw [Snake.gather_cons, ← Snake.toBytes_eq]
    have one : min 1 (next :: more).length = 1 := Nat.min_eq_left (Nat.succ_pos _)
    rw [one]
    cases Snake.wholeBytes s.remainingBits with
    | ok here =>
      cases Snake.toBytes next with
      | ok rest => rfl
      | error e => rfl
    | error e => rfl

/-- A snake is loaded if all its links have whole bytes, and the slice then stands behind the first
one. -/
lemma snake_eq_ok {bytes : List UInt8} :
    snake s = .ok bytes t ↔
      Snake.Whole s.links ∧ s.links.flatMap Octets.pack = bytes ∧ t = s.behindLink := by
  rw [snake_eq, ← and_assoc, ← Snake.gather_eq_ok]
  cases Snake.gather s.links with
  | ok read => rw [EStateM.Result.ok.injEq, Except.ok.injEq, eq_comm (a := t)]
  | error e => exact iff_of_false (fun h => nomatch h) fun h => nomatch h.1

/-- A snake is refused if one of its links ends within a byte, and the slice stays. -/
lemma snake_eq_error :
    snake s = .error e t ↔ ¬ Snake.Whole s.links ∧ e = .encoding .unaligned ∧ t = s := by
  rw [snake_eq, ← and_assoc, ← Snake.gather_eq_error]
  cases Snake.gather s.links with
  | ok read => exact iff_of_false (fun h => nomatch h) fun h => nomatch h.1
  | error e => rw [EStateM.Result.error.injEq, Except.error.injEq, eq_comm (a := t)]

/-- Bytes that are no text do not stand in an empty chain, so they have been read. -/
lemma behindLink_ne (none : Text.ofUtf8? (s.links.flatMap Octets.pack) = none) :
    s.behindLink ≠ s := by
  intro still
  have bits : s.bitsLeft = 0 := by
    have position := congrArg Slice.bitPosition still
    exact Nat.add_eq_left.1 position
  have refs : s.refsLeft = 0 := by
    have position := Nat.add_eq_left.1 (congrArg Slice.refPosition still)
    omega
  have empty : s.isEmpty = true := by
    rw [Slice.isEmpty, bits, refs]
    rfl
  obtain ⟨noBits, noRefs⟩ := remaining_of_isEmpty empty
  rw [Slice.links, noRefs, noBits] at none
  exact absurd none (by decide)

/-- The text of a snake is refused for its links or for its bytes, and is behind the link in the
second case. -/
lemma snakeText_eq_error :
    snakeText s = .error e t ↔
      (¬ Snake.Whole s.links ∧ e = .encoding .unaligned ∧ t = s) ∨
      (Snake.Whole s.links ∧ Text.ofUtf8? (s.links.flatMap Octets.pack) = none ∧
        e = .invalidUtf8 ∧ t = s.behindLink) := by
  rw [snakeText]
  cases run : snake s with
  | error e' t' =>
    obtain ⟨part, rfl, rfl⟩ := snake_eq_error.1 run
    rw [action_bind_of_error run]
    constructor
    · intro h
      cases h
      exact Or.inl ⟨part, rfl, rfl⟩
    · intro h
      cases h with
      | inl unread =>
        obtain ⟨_, rfl, rfl⟩ := unread
        rfl
      | inr read => exact absurd read.1 part
  | ok bytes t' =>
    obtain ⟨whole, rfl, rfl⟩ := snake_eq_ok.1 run
    rw [action_bind_of_ok run]
    cases text : Text.ofUtf8? (s.links.flatMap Octets.pack) with
    | some value =>
      apply iff_of_false
      · intro h
        cases h
      · intro h
        cases h with
        | inl unread => exact unread.1 whole
        | inr read => cases read.2.1
    | none =>
      constructor
      · intro h
        cases h
        exact Or.inr ⟨whole, rfl, rfl, rfl⟩
      · intro h
        cases h with
        | inl unread => exact absurd whole unread.1
        | inr read =>
          obtain ⟨_, _, rfl, rfl⟩ := read
          rfl

/-- A chain is not read exactly when some link of it has no whole bytes, and the slice is then left
as it was. The text of a chain is not read in this case, and when the bytes of all links are no text;
then they count as read all the same, so that the slice is left as it was in the first case alone. -/
theorem snake_failures (s : Slice) :
    (∀ e t, snake s = .error e t ↔ ¬ Snake.Whole s.links ∧ e = .encoding .unaligned ∧ t = s) ∧
    (∀ e t, snakeText s = .error e t ↔
      (¬ Snake.Whole s.links ∧ e = .encoding .unaligned ∧ t = s) ∨
      (Snake.Whole s.links ∧ Text.ofUtf8? (s.links.flatMap Octets.pack) = none ∧
        e = .invalidUtf8 ∧ t = s.behindLink)) ∧
    ∀ e t, snakeText s = .error e t → (t = s ↔ ¬ Snake.Whole s.links) := by
  refine ⟨fun e t => snake_eq_error, fun e t => snakeText_eq_error, fun e t failed => ?_⟩
  cases snakeText_eq_error.1 failed with
  | inl unread =>
    obtain ⟨part, _, rfl⟩ := unread
    exact iff_of_true rfl part
  | inr read =>
    obtain ⟨whole, none, _, rfl⟩ := read
    exact iff_of_false (behindLink_ne none) (not_not.2 whole)

/-- A byte that is no text counts as read. -/
theorem snake_failures_no_text :
    ∃ leaf t, Cell.leaf [0xFF] 8 = .ok leaf ∧
      snakeText (Slice.ofCell leaf) = .error .invalidUtf8 t ∧ t ≠ Slice.ofCell leaf ∧
      t.bitPosition = 8 ∧ t.bitsLeft = 0 := by
  have run : (do
      let leaf ← Cell.leaf [0xFF] 8
      return (decide (Snake.Whole (Slice.ofCell leaf).links),
        (Text.ofUtf8? ((Slice.ofCell leaf).links.flatMap Octets.pack)).isNone,
        (Slice.ofCell leaf).behindLink.bitPosition, (Slice.ofCell leaf).behindLink.bitsLeft)) =
        .ok (true, true, 8, 0) := by decide +kernel
  simp only [Outcome.bind_eq_ok, Outcome.pure_eq_ok, Prod.mk.injEq, decide_eq_true_eq,
    Option.isNone_iff_eq_none] at run
  obtain ⟨leaf, el, whole, none, position, left⟩ := run
  obtain ⟨_, fails, stays⟩ := snake_failures (Slice.ofCell leaf)
  have failed := (fails .invalidUtf8 _).2 (Or.inr ⟨whole, none, rfl, rfl⟩)
  have moved : (Slice.ofCell leaf).behindLink ≠ Slice.ofCell leaf := fun still =>
    (stays _ _ failed).1 still whole
  exact ⟨leaf, _, el, failed, moved, position, left⟩

end Load

end CellBag
