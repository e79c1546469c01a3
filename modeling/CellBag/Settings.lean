import CellBag.Bag.Basic
import CellBag.Json.Record

/-!
# Settings

What is written around the records of a bag, and what is read at most, as JSON text.
-/

namespace CellBag

/-- How bags are written and read. -/
structure Settings where
  encode : Bag.Options := {}
  decode : Bag.Limits := {}
deriving DecidableEq

namespace Settings

/-- The fields of the options in JSON. -/
def optionFields : List (Json.Field Bag.Options) := [
  ⟨"has_idx", do let b ← Json.boolean; return fun o => { o with index := b }⟩,
  ⟨"has_crc32", do let b ← Json.boolean; return fun o => { o with checksum := b }⟩,
  ⟨"has_cache_bits", do let b ← Json.boolean; return fun o => { o with cacheBits := b }⟩]

/-- The fields of the limits in JSON. -/
def limitFields : List (Json.Field Bag.Limits) := [
  ⟨"max_cells", do let n ← Json.count; return fun l => { l with maxCells := n }⟩,
  ⟨"max_roots", do let n ← Json.count; return fun l => { l with maxRoots := n }⟩,
  ⟨"max_total_size", do let n ← Json.count; return fun l => { l with maxTotalSize := n }⟩,
  ⟨"max_dict_entries", do let n ← Json.count; return fun l => { l with maxDictionaryEntries := n }⟩]

/-- The fields of settings in JSON. -/
def fields : List (Json.Field Settings) := [
  ⟨"encode", do
    let o ← Json.readRecord optionFields {}
    return fun s => { s with encode := o }⟩,
  ⟨"decode", do
    let l ← Json.readRecord limitFields {}
    return fun s => { s with decode := l }⟩]

/-- Reads settings from JSON text. What is not given has its usual value. -/
def ofText (text : String) : Except Json.Fault Settings :=
  Json.recordOfText fields {} (Text.utf8 text)

/-- A truth value in JSON. -/
def renderBool (b : Bool) : String :=
  if b then "true" else "false"

/-- A member of an object in JSON. -/
def renderMember (name value : String) : String :=
  "\"" ++ name ++ "\":" ++ value

/-- An object in JSON. -/
def renderObject (members : List String) : String :=
  "\x7b" ++ ",".intercalate members ++ "\x7d"

/-- Settings as JSON text without blanks. -/
def render (s : Settings) : String :=
  renderObject [
    renderMember "encode" (renderObject [
      renderMember "has_idx" (renderBool s.encode.index),
      renderMember "has_crc32" (renderBool s.encode.checksum),
      renderMember "has_cache_bits" (renderBool s.encode.cacheBits)]),
    renderMember "decode" (renderObject [
      renderMember "max_cells" (toString s.decode.maxCells),
      renderMember "max_roots" (toString s.decode.maxRoots),
      renderMember "max_total_size" (toString s.decode.maxTotalSize),
      renderMember "max_dict_entries" (toString s.decode.maxDictionaryEntries)])]

end Settings

end CellBag
