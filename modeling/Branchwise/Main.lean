import Branchwise.Cli.Run
import Branchwise.Json.Reader

/-!
# The program

Reads the files that the command line names, runs the command on them, and writes what it gives.
-/

namespace Branchwise.Cli

def Invocation.files (i : Invocation) : List String :=
  i.typedefs.toList ++ i.config.toList ++ [i.input]

/-- Reads a JSON file; one that cannot be read or parsed counts as missing. -/
def readJson (path : String) : IO (Option (String × Json)) := do
  try
    match Json.parse (← IO.FS.readFile path) with
    | .ok j => return some (path, j)
    | .error _ => return none
  catch _ => return none

end Branchwise.Cli

open Branchwise Branchwise.Cli in
def main (words : List String) : IO UInt32 := do
  let paths := match parse words with
    | .ok i => i.files
    | .error _ => []
  let files ← paths.filterMapM readJson
  match run words (.ofFiles files) with
  | .error e =>
    IO.eprintln ("failed: " ++ e.message)
    return 1
  | .ok o =>
    IO.print o.output
    match o.errors with
    | some text => IO.eprint text
    | none => if o.exit ≠ 0 then IO.eprintln usageLine
    return UInt32.ofNat o.exit
