import CellBag.Arithmetic
import CellBag.Proofs.Outcome
import Mathlib

/-!
# Sizes in either arithmetic

A size that fits into a machine word is the same in both builds (`Arithmetic.size_of_lt`). Of one
that does not, a checked build makes a panic and the other one a smaller size.
-/

namespace CellBag.Arithmetic

variable {arith : Arithmetic} {m n : Nat}

/-- A machine word has 64 bits. -/
lemma limit_eq : limit = 2 ^ 64 :=
  rfl

/-- A size that fits is kept. -/
lemma size_of_lt (lt : n < limit) : arith.size n = .ok n :=
  if_pos lt

/-- A checked build panics at a size that does not fit. -/
lemma checked_size (le : limit ≤ n) : checked.size n = .error (.panic .overflow) :=
  if_neg (Nat.not_lt.2 le)

/-- A wrapping build keeps what a word holds of any size. -/
lemma wrapping_size : wrapping.size n = .ok (n % limit) := by
  rw [size]
  split
  case isTrue lt => rw [Nat.mod_eq_of_lt lt]
  case isFalse => rfl

/-- No size becomes larger. -/
lemma size_le (e : arith.size n = .ok m) : m ≤ n := by
  cases arith with
  | checked =>
    obtain ⟨_, rest⟩ := Outcome.check_eq_ok.1 e
    exact (Except.ok.inj rest).ge
  | wrapping =>
    rw [wrapping_size] at e
    rw [← Except.ok.inj e]
    exact Nat.mod_le n limit

end CellBag.Arithmetic
