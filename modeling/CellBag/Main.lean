import CellBag.Command.Arguments
import CellBag.Command.Run

/-!
# The program

Reads the arguments and the file of settings, and prints what the command gives.
-/

namespace CellBag.Command

/-- What is printed when the arguments are wrong. -/
def usage : String :=
  "usage: cellbag [-c FILE] [-f auto|hex|base64] COMMAND\n" ++
    "commands: decode BAG, hash BAG, encode BAG [--crc32|--no-crc32] [--idx] [--base64],\n" ++
    "  address ADDRESS [--non-bounceable] [--testnet], method-id NAME"

/-- The text of a file, if it can be read. -/
def readFile? (path : String) : IO (Option String) := do
  try
    return some (← IO.FS.readFile path)
  catch _ =>
    return none

end CellBag.Command

open CellBag.Command

/-- Runs one command. The status is 2 when the arguments are wrong and 1 when the command fails. -/
def main (args : List String) : IO UInt32 := do
  match Invocation.ofArguments args with
  | none =>
    IO.eprintln usage
    return 2
  | some invocation =>
    let config ← match invocation.config with
      | none => pure none
      | some path => readFile? path
    match run (fun _ => config) invocation with
    | .ok text =>
      IO.print text
      return 0
    | .error fault =>
      IO.eprintln ("Error: " ++ fault.message)
      return 1
