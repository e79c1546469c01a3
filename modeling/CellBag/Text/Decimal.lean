/-!
# Decimal text

Integers in decimal digits, with an optional sign.
-/

namespace CellBag.Text.Decimal

/-- The value of a decimal digit. -/
def value? (c : Char) : Option Nat :=
  if '0' ≤ c ∧ c ≤ '9' then some (c.toNat - 48) else none

/-- The natural number that digits spell, if there is at least one digit and nothing else. -/
def nat? (text : List Char) : Option Nat :=
  if text.isEmpty then none
  else (text.mapM value?).map fun digits => digits.foldl (fun n d => 10 * n + d) 0

/-- The integer that digits spell behind an optional plus or minus sign. -/
def int? : List Char → Option Int
  | '-' :: digits => (nat? digits).map fun n => -(n : Int)
  | '+' :: digits => (nat? digits).map Int.ofNat
  | digits => (nat? digits).map Int.ofNat

/-- An integer in decimal digits, with a minus sign if it is negative. -/
def render (i : Int) : String :=
  match i with
  | .ofNat n => toString n
  | .negSucc n => "-" ++ toString (n + 1)

end CellBag.Text.Decimal
