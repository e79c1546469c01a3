import CellBag.Text.Hex

/-!
# Causes of failure

One inductive type for each domain, and for each the sentence that reports it.
-/

namespace CellBag

/-- What a cell can run out of. -/
inductive Resource where
  | bits
  | refs
deriving DecidableEq

/-- The name of a resource in messages. -/
def Resource.text : Resource → String
  | .bits => "bits"
  | .refs => "refs"

/-- Why an exotic cell is refused. -/
inductive ExoticFault where
  | missingType
  | unknownType
  | prunedMask
  | prunedLayout
  | prunedDepth
  | libraryLayout
  | proofLayout
  | proofMismatch
  | updateLayout
  | updateMismatch
deriving DecidableEq

/-- The text of a fault. -/
def ExoticFault.message : ExoticFault → String
  | .missingType => "missing type byte"
  | .unknownType => "unknown type"
  | .prunedMask => "invalid pruned branch level mask"
  | .prunedLayout => "invalid pruned branch layout"
  | .prunedDepth => "invalid pruned branch merkle depth"
  | .libraryLayout => "invalid library cell layout"
  | .proofLayout => "invalid merkle proof layout"
  | .proofMismatch => "merkle proof hash mismatch"
  | .updateLayout => "invalid merkle update layout"
  | .updateMismatch => "merkle update hash mismatch"

/-- Why the label of a dictionary edge is refused. -/
inductive LabelFault where
  | truncated
  | tooLong
deriving DecidableEq

/-- The text of a fault. -/
def LabelFault.message : LabelFault → String
  | .truncated => "truncated label"
  | .tooLong => "label is longer than the key"

/-- Why a dictionary is refused. -/
inductive DictionaryFault where
  | keyWidth
  | emptySubtree
  | duplicateKeys
  | exoticCell
  | tooManyEntries
  | forkNode
  | keyIsNone
deriving DecidableEq

/-- The text of a fault. -/
def DictionaryFault.message : DictionaryFault → String
  | .keyWidth => "key width mismatch"
  | .emptySubtree => "empty subtree"
  | .duplicateKeys => "duplicate keys"
  | .exoticCell => "unexpected exotic cell"
  | .tooManyEntries => "too many entries"
  | .forkNode => "invalid fork node"
  | .keyIsNone => "key is addr_none"

/-- Why a value of a stack is refused. -/
inductive ValueFault where
  | continuation
  | notSlice
deriving DecidableEq

/-- The text of a fault. -/
def ValueFault.message : ValueFault → String
  | .continuation => "continuation"
  | .notSlice => "expected a slice"

/-- Why bytes or text are refused before they are looked into. -/
inductive EncodingFault where
  | missingTag
  | unaligned
  | base64
  | hex (fault : Text.Hex.Fault)
deriving DecidableEq

/-- The text of a fault. -/
def EncodingFault.message : EncodingFault → String
  | .missingTag => "missing completion tag"
  | .unaligned => "snake data is not byte aligned"
  | .base64 => "base64"
  | .hex fault => "hex: " ++ fault.message

/-- Why an address is refused. -/
inductive AddressFault where
  | empty
  | invalidWorkchain
  | invalidAccountId
  | invalidLength (length : Nat)
  | invalidTag (tag : UInt8)
  | invalidChecksum
  | badFormat
  | unsupported
deriving DecidableEq

/-- The text of a fault. -/
def AddressFault.message : AddressFault → String
  | .empty => "cannot parse address from an empty string"
  | .invalidWorkchain => "invalid workchain id"
  | .invalidAccountId => "invalid account id"
  | .invalidLength length => s!"invalid address length {length}"
  | .invalidTag tag => "invalid address tag 0x" ++ Text.Hex.lower [tag]
  | .invalidChecksum => "address checksum mismatch"
  | .badFormat => "invalid address format"
  | .unsupported => "unsupported address kind"

/-- Why a record of a bag is refused although its parts can be read. -/
inductive RecordFault where
  | manyRefs
  | prunedHashes
  | missingTag
  | data
  | indexOffset
  | cell
  | levelMask
deriving DecidableEq

/-- The text of a fault. -/
def RecordFault.message : RecordFault → String
  | .manyRefs => "too many references"
  | .prunedHashes => "pruned branch with stored hashes"
  | .missingTag => "missing completion tag"
  | .data => "invalid cell data"
  | .indexOffset => "index offset mismatch"
  | .cell => "invalid cell"
  | .levelMask => "level mask mismatch"

/-- Why a call is broken off. No caller gets hold of a panic: the call does not return. -/
inductive Panic where
  /-- a sum or a product of sizes that is too large for a machine word -/
  | overflow
  /-- an item of a buffer that is not there -/
  | index (index size : Nat)
  /-- a range of a buffer that is not there -/
  | range (start stop size : Nat)
  /-- a number that is too large for its field -/
  | field (value size : Nat)
deriving DecidableEq

/-- Why a serialized bag of cells is refused, or cannot be written. -/
inductive BagFault where
  | unknownMagic (magic : Nat)
  | unexpectedEnd
  | invalidRefSize (size : Nat)
  | invalidOffsetSize (size : Nat)
  | reservedFlags
  | cacheWithoutIndex
  | tooManyCells (count limit : Nat)
  | invalidRootCount (count limit : Nat)
  | absentCells
  | invalidTotalSize (size : Nat)
  | rootOutOfBounds (index : Nat)
  | invalidRef (cell child : Nat)
  | invalidCell (index : Nat) (reason : RecordFault)
  | invalidChecksum (stored computed : UInt32)
  | trailingBytes (count : Nat)
  | tooLarge
  | missingReference
  | panic (cause : Panic)
deriving DecidableEq

/-- A word of 32 bits as eight hexadecimal digits. -/
def hexWord (n : Nat) : String :=
  "0x" ++ Text.Hex.lower
    [UInt8.ofNat (n >>> 24), UInt8.ofNat (n >>> 16), UInt8.ofNat (n >>> 8), UInt8.ofNat n]

/-- The text of a fault. -/
def BagFault.message : BagFault → String
  | .unknownMagic magic => "unknown magic " ++ hexWord magic
  | .unexpectedEnd => "unexpected end of data"
  | .invalidRefSize size => s!"invalid ref size {size}"
  | .invalidOffsetSize size => s!"invalid offset size {size}"
  | .reservedFlags => "reserved flag bits are set"
  | .cacheWithoutIndex => "cache bits require an index"
  | .tooManyCells count limit => s!"too many cells: {count} (limit {limit})"
  | .invalidRootCount count limit => s!"invalid root count {count} (limit {limit})"
  | .absentCells => "absent cells are not supported"
  | .invalidTotalSize size => s!"invalid total cells size {size}"
  | .rootOutOfBounds index => s!"root index {index} is out of bounds"
  | .invalidRef cell child => s!"cell {cell} references invalid index {child}"
  | .invalidCell index reason => s!"invalid cell {index}: " ++ reason.message
  | .invalidChecksum stored computed =>
    "checksum mismatch: stored " ++ hexWord stored.toNat ++ ", computed " ++ hexWord computed.toNat
  | .trailingBytes count => s!"{count} unexpected trailing bytes"
  | .tooLarge => "too many cells to serialize"
  | .missingReference => "reference to a cell missing from the cell table"
  | .panic _ => "panic"

/-- Why an operation on cells fails: an error that is returned to the caller, or a panic. -/
inductive Error where
  /-- a write beyond what a cell holds -/
  | capacity (what : Resource) (requested available : Nat)
  /-- a read beyond what is left -/
  | underrun (what : Resource) (requested available : Nat)
  | panic (cause : Panic)
  | bag (fault : BagFault)
  | label (fault : LabelFault)
  | dictionary (fault : DictionaryFault)
  | exotic (fault : ExoticFault)
  | depthOverflow
  | intOverflow (bits : Nat)
  | invalidTag
  | invalidUtf8
  | trailingData (bits refs : Nat)
  | unexpectedValue (fault : ValueFault)
  | encoding (fault : EncodingFault)
  | address (fault : AddressFault)
deriving DecidableEq, Inhabited

/-- The text of an error. -/
def Error.message : Error → String
  | .capacity what requested available =>
    s!"cell overflow: cannot store {requested} {what.text}, only {available} left"
  | .underrun what requested available =>
    s!"cell underflow: cannot read {requested} {what.text}, only {available} left"
  | .panic _ => "panic"
  | .bag fault => "malformed BoC: " ++ fault.message
  | .label fault => "invalid dictionary label: " ++ fault.message
  | .dictionary fault => "invalid dictionary: " ++ fault.message
  | .exotic fault => "invalid exotic cell: " ++ fault.message
  | .depthOverflow => "cell depth overflow"
  | .intOverflow bits => s!"value does not fit into {bits} bits"
  | .invalidTag => "invalid tag"
  | .invalidUtf8 => "invalid utf-8 data"
  | .trailingData bits refs => s!"trailing data: {bits} bits and {refs} refs were not consumed"
  | .unexpectedValue fault => "unexpected stack value: " ++ fault.message
  | .encoding fault => "invalid encoding: " ++ fault.message
  | .address fault => fault.message

end CellBag
