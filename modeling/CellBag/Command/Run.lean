import CellBag.Address.Text
import CellBag.Cell.Text
import CellBag.Command.Basic
import CellBag.MethodId
import CellBag.Settings

/-!
# Running commands

What a command prints, or why it fails. The files that it can read are given as a function from
paths to their text.
-/

namespace CellBag.Command

/-- Why a command fails. -/
inductive Fault where
  | unreadableConfig (path : String)
  | invalidConfig (path : String)
  | notHex
  | notBase64
  | neither
  | bag (fault : BagFault)
  | address (fault : AddressFault)
deriving DecidableEq

/-- The text of a fault. -/
def Fault.message : Fault → String
  | .unreadableConfig path => "failed to read config " ++ path
  | .invalidConfig path => "invalid config " ++ path
  | .notHex => "BoC is not valid hex"
  | .notBase64 => "BoC is not valid base64"
  | .neither => "BoC is neither hex nor base64"
  | .bag fault => (Error.bag fault).message
  | .address fault => fault.message

/-- Whether text is pairs of hexadecimal digits. -/
def looksHex (text : List UInt8) : Bool :=
  text.length % 2 == 0 && text.all fun c => (Text.Hex.value? c).isSome

/-- The bytes of a bag that text spells, in which blanks do not matter. -/
def bagBytes (format : Format) (text : List Char) : Except Fault (List UInt8) :=
  let compact := Bag.compact text
  let code := Text.utf8 (String.ofList compact)
  let hex := fun fault => match Text.Hex.decode code with
    | .ok bytes => Except.ok bytes
    | .error _ => Except.error fault
  let base64 := fun fault => match Text.Base64.decodeAny compact with
    | some bytes => Except.ok bytes
    | none => Except.error fault
  match format with
  | .hex => hex .notHex
  | .base64 => base64 .notBase64
  | .auto => if looksHex code then hex .notHex else base64 .neither

/-- The settings in the file that is asked for, or the usual ones. -/
def settings (read : String → Option String) (config : Option String) : Except Fault Settings :=
  match config with
  | none => .ok {}
  | some path =>
    match read path with
    | none => .error (.unreadableConfig path)
    | some text =>
      match Settings.ofText text with
      | .ok s => .ok s
      | .error _ => .error (.invalidConfig path)

/-- The roots of the bag that text spells. -/
def roots (s : Settings) (format : Format) (text : String) : Except Fault (List Cell) := do
  let bytes ← bagBytes format text.toList
  (Bag.decode bytes s.decode).mapError .bag

/-- Options of which some are given on the command line. Cache bits need an index. -/
def encodeOptions (o : Bag.Options) (checksum : Option Bool) (index : Bool) : Bag.Options :=
  ⟨o.index || index || o.cacheBits, checksum.getD o.checksum, o.cacheBits⟩

/-- What is printed for a root of a bag: its hash, depth and level, and the tree below it. -/
def describeRoot (c : Cell) (index : Nat) : String :=
  s!"root {index}: {c.hash.text}\n  depth: {c.depth.toNat}, level: {c.level}\n" ++ c.tree

/-- What is printed for an address: its raw form and the user-friendly one in both alphabets. -/
def describeAddress (a : Address) (bounceable testOnly : Bool) : String :=
  "raw:          " ++ a.raw ++ "\nuser-friendly: " ++ a.friendlyWith true bounceable testOnly ++
    "\nstandard b64:  " ++ a.friendlyWith false bounceable testOnly ++ "\n"

/-- What an invocation prints. -/
def run (read : String → Option String) (i : Invocation) : Except Fault String :=
  match i.action with
  | .decode bag => do
    let cells ← roots (← settings read i.config) i.format bag
    return String.join (cells.zipIdx.map fun (c, index) => describeRoot c index)
  | .hash bag => do
    let cells ← roots (← settings read i.config) i.format bag
    return String.join (cells.map fun c => c.hash.text ++ "\n")
  | .encode bag checksum index base64 => do
    let s ← settings read i.config
    let cells ← roots s i.format bag
    let bytes ← (Bag.encode cells (encodeOptions s.encode checksum index)).mapError .bag
    let text := if base64 then String.ofList (Text.Base64.encode ⟨.standard, true⟩ bytes)
      else Text.Hex.lower bytes
    return text ++ "\n"
  | .address text bounceable testOnly =>
    match Address.ofText text.toList with
    | .ok a => .ok (describeAddress a bounceable testOnly)
    | .error fault => .error (.address fault)
  | .methodId name => .ok (toString (MethodId.ofName name) ++ "\n")

end CellBag.Command
