import CellBag.Text.Hex
import CellBag.Text.Blank

/-!
# Scanning JSON

Readers for the parts of JSON text, given as bytes. A fault says whether the text is no JSON, ends
too early, or is JSON of another shape than asked for.
-/

namespace CellBag.Json

/-- What is wrong with JSON text. -/
inductive Fault where
  | malformed
  | truncated
  | mismatch
deriving DecidableEq

/-- A reader of text, which fails or leaves the rest. -/
abbrev Reader := StateT (List UInt8) (Except Fault)

/-- Space, tabulator, line feed and carriage return. -/
def isBlank (c : UInt8) : Bool :=
  c == 32 || c == 9 || c == 10 || c == 13

/-- Whether a byte is a decimal digit. -/
def isDigit (c : UInt8) : Bool :=
  48 ≤ c && c ≤ 57

/-- Looks at the first byte behind blanks, which are skipped. -/
def peek : Reader (Option UInt8) := fun s =>
  let rest := s.dropWhile isBlank
  .ok (rest.head?, rest)

/-- Skips one byte. -/
def skip : Reader Unit :=
  modify List.tail

/-- Reads a byte of the kind that is asked for, if the next one is of it. -/
def accept (p : UInt8 → Bool) : Reader (Option UInt8) := fun s =>
  match s with
  | c :: rest => if p c then .ok (some c, rest) else .ok (none, s)
  | [] => .ok (none, [])

/-- Fails because the next byte, if there is one, is wrong. -/
def failHere {α : Type} : Reader α := fun s =>
  if s.isEmpty then .error .truncated else .error .malformed

/-- Reads the rest of a word. -/
def word : List UInt8 → Reader Unit
  | [] => return ()
  | c :: more => do
    match ← accept (· == c) with
    | some _ => word more
    | none => failHere

/-- Reads as many digits as there are. -/
def digits : Reader (List Nat) := fun s =>
  .ok ((s.takeWhile isDigit).map (fun c => c.toNat - 48), s.dropWhile isDigit)

/-! ## Strings -/

/-- The byte that an escape of one character stands for. -/
def simpleEscape? (c : UInt8) : Option UInt8 :=
  if c = 34 ∨ c = 47 ∨ c = 92 then some c
  else if c = 98 then some 8
  else if c = 102 then some 12
  else if c = 110 then some 10
  else if c = 114 then some 13
  else if c = 116 then some 9
  else none

/-- The number that four hexadecimal digits spell. -/
def fourDigits? (a b c d : UInt8) : Option Nat := do
  let a ← Text.Hex.value? a
  let b ← Text.Hex.value? b
  let c ← Text.Hex.value? c
  let d ← Text.Hex.value? d
  return ((a * 16 + b) * 16 + c) * 16 + d

/-- The bytes of a code point. -/
def codePoint (n : Nat) : List UInt8 :=
  Text.utf8 (String.singleton (Char.ofNat n))

/-- Puts bytes in front of what a string goes on with. -/
def prepend (bytes : List UInt8) (more : Except Fault (List UInt8 × List UInt8)) :
    Except Fault (List UInt8 × List UInt8) :=
  more.map fun (text, rest) => (bytes ++ text, rest)

/-- Reads the second half of a pair of escapes for a code point beyond 16 bits. -/
def lowSurrogate : List UInt8 → Except Fault Nat
  | [] => .error .truncated
  | 92 :: [] => .error .truncated
  | 92 :: 117 :: a :: b :: c :: d :: _ =>
    match fourDigits? a b c d with
    | some n => if 0xDC00 ≤ n ∧ n ≤ 0xDFFF then .ok n else .error .malformed
    | none => .error .malformed
  | 92 :: 117 :: _ => .error .truncated
  | _ => .error .malformed

/-- Reads the text of a string behind its opening quote, and what follows the closing one. -/
def stringFrom : List UInt8 → Except Fault (List UInt8 × List UInt8)
  | [] => .error .truncated
  | 34 :: rest => .ok ([], rest)
  | 92 :: [] => .error .truncated
  | 92 :: 117 :: a :: b :: c :: d :: rest =>
    match fourDigits? a b c d with
    | none => .error .malformed
    | some n =>
      if 0xDC00 ≤ n ∧ n ≤ 0xDFFF then .error .malformed
      else if 0xD800 ≤ n ∧ n ≤ 0xDBFF then
        match lowSurrogate rest with
        | .error fault => .error fault
        | .ok low =>
          match rest with
          | _ :: _ :: _ :: _ :: _ :: _ :: rest =>
            prepend (codePoint (0x10000 + (n - 0xD800) * 0x400 + (low - 0xDC00))) (stringFrom rest)
          | _ => .error .truncated
      else prepend (codePoint n) (stringFrom rest)
  | 92 :: 117 :: _ => .error .truncated
  | 92 :: c :: rest =>
    match simpleEscape? c with
    | some byte => prepend [byte] (stringFrom rest)
    | none => .error .malformed
  | c :: rest => if c < 32 then .error .malformed else prepend [c] (stringFrom rest)

/-- Skips a string behind its opening quote. Escaped code points need not make sense. -/
def skipStringFrom : List UInt8 → Except Fault (List UInt8)
  | [] => .error .truncated
  | 34 :: rest => .ok rest
  | 92 :: [] => .error .truncated
  | 92 :: 117 :: a :: b :: c :: d :: rest =>
    if (fourDigits? a b c d).isSome then skipStringFrom rest else .error .malformed
  | 92 :: 117 :: _ => .error .truncated
  | 92 :: c :: rest => if (simpleEscape? c).isSome then skipStringFrom rest else .error .malformed
  | c :: rest => if c < 32 then .error .malformed else skipStringFrom rest

/-- Reads a string behind its opening quote. -/
def string : Reader (List UInt8) := stringFrom

/-- Skips a string behind its opening quote. -/
def skipString : Reader Unit := fun s => (skipStringFrom s).map fun rest => ((), rest)

/-! ## Values that are skipped -/

/-- Reads at least one digit. -/
def skipDigits : Reader Unit := do
  if (← digits).isEmpty then throw .malformed

/-- Skips the exponent of a number, if there is one. -/
def skipExponent : Reader Unit := do
  match ← accept fun c => c == 101 || c == 69 with
  | none => return ()
  | some _ =>
    let _ ← accept fun c => c == 43 || c == 45
    skipDigits

/-- Skips a number behind its sign. -/
def skipNumber : Reader Unit := do
  match ← accept (· == 48) with
  | some _ => if !(← digits).isEmpty then throw .malformed
  | none => skipDigits
  match ← accept (· == 46) with
  | some _ => skipDigits
  | none => pure ()
  skipExponent

mutual

/-- Skips a value of any shape; each value takes one of the `room`. -/
def skipValue : (room : Nat) → Reader Unit
  | 0 => throw .truncated
  | room + 1 => do
    match ← peek with
    | none => throw .truncated
    | some 110 => skip *> word [117, 108, 108]
    | some 116 => skip *> word [114, 117, 101]
    | some 102 => skip *> word [97, 108, 115, 101]
    | some 45 => skip *> skipNumber
    | some 34 => skip *> skipString
    | some 91 => do
      skip
      match ← peek with
      | some 93 => skip
      | none => throw .truncated
      | some _ => skipItems room
    | some 123 => do
      skip
      match ← peek with
      | some 125 => skip
      | none => throw .truncated
      | some _ => skipMembers room
    | some c => if isDigit c then skipNumber else throw .malformed

/-- Skips the values of a list, up to its end. -/
def skipItems : (room : Nat) → Reader Unit
  | 0 => throw .truncated
  | room + 1 => do
    skipValue room
    match ← peek with
    | some 44 => skip *> skipItems room
    | some 93 => skip
    | some _ => throw .malformed
    | none => throw .truncated

/-- Skips the members of an object, up to its end. -/
def skipMembers : (room : Nat) → Reader Unit
  | 0 => throw .truncated
  | room + 1 => do
    match ← peek with
    | some 34 => skip *> skipString
    | some _ => throw .malformed
    | none => throw .truncated
    match ← peek with
    | some 58 => skip
    | some _ => throw .malformed
    | none => throw .truncated
    skipValue room
    match ← peek with
    | some 44 => skip *> skipMembers room
    | some 125 => skip
    | some _ => throw .malformed
    | none => throw .truncated

end

/-- Skips a value of any shape. Every value, list item and member takes up text, of which there is
no more than the room. -/
def skipAny : Reader Unit := do
  skipValue (3 * (← get).length + 3)

end CellBag.Json
