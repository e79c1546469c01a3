/-!
# Binary numerals

Lists of bits, most significant bit first, and the numbers that they denote: naturals, integers in
two's complement and words of a fixed width.
-/

namespace CellBag.Binary

/-- The natural number that a list of bits denotes. -/
def toNat (bits : List Bool) : Nat :=
  bits.foldl (fun n b => 2 * n + b.toNat) 0

/-- The `width` low bits of a natural number. -/
def ofNat : (width n : Nat) → List Bool
  | 0, _ => []
  | width + 1, n => n.testBit width :: ofNat width n

/-- A numeral has its width. -/
@[simp]
theorem length_ofNat (width n : Nat) : (ofNat width n).length = width := by
  induction width with
  | zero => rfl
  | succ width ih => simp [ofNat, ih]

/-- The `width` low bits of an integer in two's complement. -/
def ofInt (width : Nat) (i : Int) : List Bool :=
  ofNat width (BitVec.ofInt width i).toNat

/-- A numeral in two's complement has its width. -/
@[simp]
theorem length_ofInt (width : Nat) (i : Int) : (ofInt width i).length = width :=
  length_ofNat _ _

/-- All bits of a word. -/
def ofWord {w : Nat} (word : BitVec w) : List Bool :=
  ofNat w word.toNat

/-- A word has as many bits as it is wide. -/
@[simp]
theorem length_ofWord {w : Nat} (word : BitVec w) : (ofWord word).length = w :=
  length_ofNat _ _

/-- The least number of bits that hold a natural number. -/
def width (n : Nat) : Nat :=
  if n = 0 then 0 else n.log2 + 1

/-- The natural number whose width an integer needs beside its sign bit: `n` for `n`, and `n - 1`
for `-n`. -/
def magnitude : Int → Nat
  | .ofNat n => n
  | .negSucc n => n

/-- The number of octets that hold this many bits. -/
def octetsFor (bits : Nat) : Nat :=
  (bits + 7) / 8

end CellBag.Binary
