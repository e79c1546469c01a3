import CellBag.Slice.Load

/-!
# Labels

Each node of a dictionary begins with a label: the bits of the key up to the next fork. A label of
at most `limit` bits has up to three forms. The short one has its length in unary, the long one in
as many bits as `limit` has, and both then spell out the bits. A label of equal bits can also be
written as that bit and a length. Writing takes the shortest form; reading takes any.
-/

namespace CellBag

namespace Label

/-- The forms of a label. -/
inductive Form where
  | short
  | long
  | same (bit : Bool)
deriving DecidableEq

/-- The width of a length in the long form and in that of equal bits. -/
def lengthWidth (limit : Nat) : Nat := Binary.width limit

/-- The bits in front of a label of `length` bits. -/
def header (form : Form) (length limit : Nat) : List Bool :=
  match form with
  | .short => false :: List.replicate length true ++ [false]
  | .long => [true, false] ++ Binary.ofNat (lengthWidth limit) length
  | .same bit => [true, true, bit] ++ Binary.ofNat (lengthWidth limit) length

/-- The bits of a label that are spelled out. -/
def body (form : Form) (label : List Bool) : List Bool :=
  match form with
  | .short | .long => label
  | .same _ => []

/-- A label in one of its forms. -/
def encode (form : Form) (label : List Bool) (limit : Nat) : List Bool :=
  header form label.length limit ++ body form label

/-- The bit that all bits of a label are equal to, if there is one. -/
def uniform? : List Bool → Option Bool
  | [] => none
  | first :: rest => if rest.all (· == first) then some first else none

/-- The form that takes the fewest bits; the short one before the long one if they take as many, and
both before that of equal bits. -/
def choose (label : List Bool) (limit : Nat) : Form :=
  let short := 2 + 2 * label.length
  let long := 2 + lengthWidth limit + label.length
  let same := 3 + lengthWidth limit
  let plain := if short ≤ long then Form.short else Form.long
  match uniform? label with
  | some bit => if same < short ∧ same < long then .same bit else plain
  | none => plain

end Label

namespace Store

/-- Stores a label in its shortest form. -/
def label (value : List Bool) (limit : Nat) : Store Unit := do
  let form := Label.choose value limit
  write (·.append (Label.header form value.length limit))
  write (·.append (Label.body form value))

end Store

namespace Load

/-- Runs an action whose failure means that a label ends too early. -/
def orTruncated {α : Type} (action : Load α) : Load α := fun s =>
  match action s with
  | .ok a t => .ok a t
  | .error _ t => .error (.label .truncated) t

/-- Loads a length in unary: ones up to a zero, but no more than `room` of them. -/
def unary : (room : Nat) → Load Nat
  | 0 => do
    if ← orTruncated bit then throw (.label .tooLong) else return 0
  | room + 1 => do
    if ← orTruncated bit then return (← unary room) + 1 else return 0

/-- Loads a length of a label in its long form or that of equal bits. -/
def labelLength (limit : Nat) : Load Nat := do
  let length ← orTruncated (word (Label.lengthWidth limit))
  if limit < length.toNat then throw (.label .tooLong)
  return length.toNat

/-- Loads a label of at most `limit` bits in any form. -/
def label (limit : Nat) : Load Bits := do
  if ← orTruncated bit then
    if ← orTruncated bit then
      let value ← orTruncated bit
      let length ← labelLength limit
      ofExcept (Bits.empty.writeRepeated value length)
    else
      let length ← labelLength limit
      orTruncated (bitString length)
  else
    let length ← unary limit
    orTruncated (bitString length)

end Load

end CellBag
