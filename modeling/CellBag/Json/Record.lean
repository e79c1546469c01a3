import CellBag.Json.Number

/-!
# Records in JSON

A record with named fields is written as an object or as the list of its fields in order. Fields
that are missing keep what they had, unknown members are skipped, and no field may be given twice.
-/

namespace CellBag.Json

/-- A field of a record: its name, and how its value is read and put into the record. -/
structure Field (ρ : Type) where
  name : String
  read : Reader (ρ → ρ)

/-- Reads the fields of a record as the items of a list, up to its end. -/
def readItems {ρ : Type} : (fields : List (Field ρ)) → (first : Bool) → ρ → Reader ρ
  | [], _, record => do
    match ← peek with
    | some 93 =>
      skip
      return record
    | some _ => throw .malformed
    | none => throw .truncated
  | field :: fields, first, record => do
    match ← peek with
    | none => throw .truncated
    | some 93 =>
      skip
      return record
    | some c =>
      if !first then
        if c ≠ 44 then throw .malformed
        skip
        match ← peek with
        | none => throw .truncated
        | some 93 => throw .malformed
        | some _ => pure ()
      let update ← field.read
      readItems fields false (update record)

/-- Reads the value of a member behind its name. -/
def readMember {ρ : Type} (fields : List (Field ρ)) (name : List UInt8) (seen : List String)
    (record : ρ) : Reader (List String × ρ) := do
  let colon : Reader Unit := do
    match ← peek with
    | some 58 => skip
    | some _ => throw .malformed
    | none => throw .truncated
  match fields.find? fun field => Text.utf8 field.name = name with
  | none =>
    colon
    skipAny
    return (seen, record)
  | some field =>
    if seen.contains field.name then throw .mismatch
    colon
    let update ← field.read
    return (field.name :: seen, update record)

/-- Reads the fields of a record as the members of an object, up to its end; each member takes one
of the `room`. -/
def readMembers {ρ : Type} (fields : List (Field ρ)) :
    (room : Nat) → (first : Bool) → (seen : List String) → ρ → Reader ρ
  | 0, _, _, _ => throw .truncated
  | room + 1, first, seen, record => do
    match ← peek with
    | none => throw .truncated
    | some 125 =>
      skip
      return record
    | some c =>
      if !first then
        if c ≠ 44 then throw .malformed
        skip
      match ← peek with
      | some 34 => skip
      | some _ => throw .malformed
      | none => throw .truncated
      let name ← string
      let (seen, record) ← readMember fields name seen record
      readMembers fields room false seen record

/-- Reads a record. -/
def readRecord {ρ : Type} (fields : List (Field ρ)) (record : ρ) : Reader ρ := do
  match ← peek with
  | some 91 =>
    skip
    readItems fields true record
  | some 123 =>
    skip
    readMembers fields ((← get).length + 1) true [] record
  | some _ => failMismatch
  | none => throw .truncated

/-- Reads a whole text as a record. -/
def recordOfText {ρ : Type} (fields : List (Field ρ)) (record : ρ) (text : List UInt8) :
    Except Fault ρ := do
  let (record, rest) ← (readRecord fields record).run text
  if rest.dropWhile isBlank = [] then return record else throw .malformed

end CellBag.Json
