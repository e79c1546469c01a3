import CellBag.Binary
import CellBag.Json.Scan

/-!
# Numbers in JSON

A number is a count when it is a natural number below `2 ^ 64` written without fraction, exponent
and sign. Other numbers are of the wrong shape, but those that are too large for a floating-point
number of 64 bits are no numbers at all.
-/

namespace CellBag.Json

/-- A number with a sign, a fraction or an exponent is no count. -/
inductive Number where
  | count (n : Nat)
  | other
deriving DecidableEq

/-- The bound of the counts. -/
def countBound : Nat := 1 <<< 64

/-- A natural number rounded to its 53 leading bits, a tie to even. -/
def roundTo53 (n : Nat) : Nat :=
  let extra := Binary.width n - 53
  if extra = 0 then n
  else
    let kept := n >>> extra
    let rest := n % (1 <<< extra)
    let half := 1 <<< (extra - 1)
    let rounded := if half < rest ∨ rest = half ∧ kept % 2 = 1 then kept + 1 else kept
    rounded <<< extra

/-- Whether `significand * 10 ^ exponent` is beyond the floating-point numbers of 64 bits, both
factors being rounded before they are multiplied. -/
def isOutOfRange (significand : Nat) (exponent : Int) : Bool :=
  if significand = 0 ∨ exponent < 0 then false
  else if 308 < exponent then true
  else 1 <<< 1024 - 1 <<< 970 ≤ roundTo53 significand * roundTo53 (Nat.pow 10 exponent.toNat)

/-- The number `significand * 10 ^ exponent`, which is no count. -/
def scaled (significand : Nat) (exponent : Int) : Reader Number :=
  if isOutOfRange significand exponent then throw .malformed else return .other

/-- The leading digits as far as they stay below the bound of the counts, and the number of digits
that are left out. -/
def integerPart (ds : List Nat) : Nat × Nat :=
  ds.foldl (fun (n, dropped) d =>
    if dropped = 0 ∧ 10 * n + d < countBound then (10 * n + d, 0) else (n, dropped + 1)) (0, 0)

/-- Takes in the digits of a fraction as long as the significand stays below the bound of the
counts; each one lowers the exponent. -/
def fractionPart : List Nat → Nat → Int → Nat × Int
  | [], n, exponent => (n, exponent)
  | d :: ds, n, exponent =>
    if 10 * n + d < countBound then fractionPart ds (10 * n + d) (exponent - 1) else (n, exponent)

/-- Reads an exponent behind its mark. -/
def exponentOf (significand : Nat) (exponent : Int) : Reader Number := do
  let sign ← accept fun c => c == 43 || c == 45
  let ds ← digits
  if ds.isEmpty then failHere
  let e : Nat := ds.foldl (fun n d => 10 * n + d) 0
  scaled significand (if sign = some 45 then exponent - e else exponent + e)

/-- Reads what may follow the digits of a number: a fraction and an exponent. -/
def numberTail (negative : Bool) (significand dropped : Nat) : Reader Number := do
  let isMark := fun c : UInt8 => c == 101 || c == 69
  match ← accept (· == 46) with
  | some _ =>
    let ds ← digits
    if ds.isEmpty then failHere
    let (n, exponent) := fractionPart ds significand dropped
    match ← accept isMark with
    | some _ => exponentOf n exponent
    | none => scaled n exponent
  | none =>
    match ← accept isMark with
    | some _ => exponentOf significand dropped
    | none =>
      if dropped ≠ 0 then scaled significand dropped
      else return if negative then .other else .count significand

/-- Reads a number behind its sign. -/
def number (negative : Bool) : Reader Number := do
  match ← accept (· == 48) with
  | some _ =>
    if !(← digits).isEmpty then throw .malformed
    numberTail negative 0 0
  | none =>
    let ds ← digits
    if ds.isEmpty then failHere
    let (significand, dropped) := integerPart ds
    numberTail negative significand dropped

/-- Fails because the value that follows has another shape than asked for. Its own faults come
first. -/
def failMismatch {α : Type} : Reader α := do
  match ← peek with
  | some 110 => skip *> word [117, 108, 108]
  | some 116 => skip *> word [114, 117, 101]
  | some 102 => skip *> word [97, 108, 115, 101]
  | some 45 => skip *> discard (number true)
  | some 34 => skip *> discard string
  | some 91 | some 123 => pure ()
  | some c => if isDigit c then discard (number false) else throw .malformed
  | none => throw .truncated
  throw .mismatch

/-- Reads a count. -/
def count : Reader Nat := do
  let check := fun n => match n with
    | .count n => return n
    | .other => throw .mismatch
  match ← peek with
  | some 45 => do
    skip
    check (← number true)
  | some c => if isDigit c then do check (← number false) else failMismatch
  | none => throw .truncated

/-- Reads `true` or `false`. -/
def boolean : Reader Bool := do
  match ← peek with
  | some 116 => do
    skip
    word [114, 117, 101]
    return true
  | some 102 => do
    skip
    word [97, 108, 115, 101]
    return false
  | some _ => failMismatch
  | none => throw .truncated

end CellBag.Json
