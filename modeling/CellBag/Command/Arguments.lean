import CellBag.Command.Basic

/-!
# Arguments

How arguments become an invocation. An argument that begins with a dash is an option unless it
follows `--`. Two options with a value may stand before or after the name of the command, where the
one after it counts; no option may be given twice at the same place.
-/

namespace CellBag.Command

/-- Options with a value. -/
inductive Setting where
  | config
  | format
deriving DecidableEq

/-- Options without a value. -/
inductive Flag where
  | checksum
  | noChecksum
  | index
  | base64
  | nonBounceable
  | testOnly
deriving DecidableEq

/-- The name of an option without a value. -/
def Flag.name : Flag → String
  | .checksum => "crc32"
  | .noChecksum => "no-crc32"
  | .index => "idx"
  | .base64 => "base64"
  | .nonBounceable => "non-bounceable"
  | .testOnly => "testnet"

/-- What an argument is taken for. -/
inductive Token where
  | operand
  | endOfOptions
  | setting (s : Setting) (value : Option String)
  | flag (f : Flag)
  | unknown
deriving DecidableEq

/-- What an argument with two dashes is taken for. -/
def Token.ofLong (flags : List Flag) (body : List Char) : Token :=
  let name := String.ofList (body.takeWhile (· ≠ '='))
  let value := match body.dropWhile (· ≠ '=') with
    | [] => none
    | _ :: value => some (String.ofList value)
  if name = "config" then .setting .config value
  else if name = "format" then .setting .format value
  else if value.isSome then .unknown
  else
    match flags.find? fun f => f.name = name with
    | some f => .flag f
    | none => .unknown

/-- The value that is attached to an option with one dash. -/
def attached : List Char → Option String
  | [] => none
  | '=' :: value => some (String.ofList value)
  | value => some (String.ofList value)

/-- What an argument is taken for where some options without a value are known. -/
def Token.ofArgument (flags : List Flag) (arg : List Char) : Token :=
  match arg with
  | ['-', '-'] => .endOfOptions
  | '-' :: '-' :: body => .ofLong flags body
  | '-' :: 'c' :: value => .setting .config (attached value)
  | '-' :: 'f' :: value => .setting .format (attached value)
  | '-' :: _ :: _ => .unknown
  | _ => .operand

/-- Whether an argument can be the value of the option before it. -/
def isValue (arg : String) : Bool :=
  match arg.toList with
  | '-' :: _ :: _ => false
  | _ => true

/-- The options and operands at one place of the command line. -/
structure Given where
  config : Option String := none
  format : Option Format := none
  flags : List Flag := []
  operands : List String := []

namespace Given

/-- Takes in an option with its value. A path must not be empty, and a format must be known. -/
def addSetting (g : Given) (s : Setting) (value : String) : Option Given :=
  match s with
  | .config =>
    if g.config.isSome ∨ value.isEmpty then none else some { g with config := some value }
  | .format =>
    if g.format.isSome then none
    else (Format.ofName? value).map fun format => { g with format := some format }

/-- The option that takes back another one. -/
def opposite? : Flag → Option Flag
  | .checksum => some .noChecksum
  | .noChecksum => some .checksum
  | _ => none

/-- Takes in an option without a value, which takes back its opposite. -/
def addFlag (g : Given) (f : Flag) : Option Given :=
  if g.flags.contains f then none
  else some { g with flags := f :: g.flags.filter fun h => some h ≠ opposite? f }

end Given

/-- Reads the options before the name of a command, that name, and the arguments behind it. -/
def readGlobal : List String → Given → Option (Given × String × List String)
  | [], _ => none
  | arg :: rest, g =>
    match Token.ofArgument [] arg.toList with
    | .operand => some (g, arg, rest)
    | .setting s (some value) =>
      match g.addSetting s value with
      | some g => readGlobal rest g
      | none => none
    | .setting s none =>
      match rest with
      | [] => none
      | value :: rest =>
        if isValue value then
          match g.addSetting s value with
          | some g => readGlobal rest g
          | none => none
        else none
    | .endOfOptions | .flag _ | .unknown => none

/-- Reads the arguments behind the name of a command. -/
def readLocal (flags : List Flag) : List String → Given → Option Given
  | [], g => some g
  | arg :: rest, g =>
    match Token.ofArgument flags arg.toList with
    | .operand => readLocal flags rest { g with operands := g.operands ++ [arg] }
    | .endOfOptions => some { g with operands := g.operands ++ rest }
    | .flag f =>
      match g.addFlag f with
      | some g => readLocal flags rest g
      | none => none
    | .setting s (some value) =>
      match g.addSetting s value with
      | some g => readLocal flags rest g
      | none => none
    | .setting s none =>
      match rest with
      | [] => none
      | value :: rest =>
        if isValue value then
          match g.addSetting s value with
          | some g => readLocal flags rest g
          | none => none
        else none
    | .unknown => none

/-- The options without a value of a command, if there is such a command. -/
def flagsOf? : String → Option (List Flag)
  | "decode" | "hash" | "method-id" => some []
  | "encode" => some [.checksum, .noChecksum, .index, .base64]
  | "address" => some [.nonBounceable, .testOnly]
  | _ => none

/-- The action of a command with its operand and options. -/
def actionOf (command operand : String) (flags : List Flag) : Option Action :=
  match command with
  | "decode" => some (.decode operand)
  | "hash" => some (.hash operand)
  | "encode" =>
    let checksum := if flags.contains .checksum then some true
      else if flags.contains .noChecksum then some false else none
    some (.encode operand checksum (flags.contains .index) (flags.contains .base64))
  | "address" => some (.address operand (!flags.contains .nonBounceable) (flags.contains .testOnly))
  | "method-id" => some (.methodId operand)
  | _ => none

/-- The invocation that arguments ask for, unless they are wrong. Each command has one operand. -/
def Invocation.ofArguments (args : List String) : Option Invocation := do
  let (before, command, rest) ← readGlobal args {}
  let flags ← flagsOf? command
  let behind ← readLocal flags rest {}
  match behind.operands with
  | [operand] =>
    let action ← actionOf command operand behind.flags
    return ⟨behind.config <|> before.config, (behind.format <|> before.format).getD .auto, action⟩
  | _ => none

end CellBag.Command
