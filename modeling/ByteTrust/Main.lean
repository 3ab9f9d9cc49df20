import ByteTrust.Command

/-!
# The program

Reads the files that the arguments name and prints the report. A failure is told on the standard
error and ends with exit code 1; arguments that make no sense end with exit code 2.
-/

open ByteTrust

/-- Run a command on its files. -/
def runCommand (c : Command) : IO UInt32 := do
  try
    let settings ← c.settings.mapM fun path => IO.FS.readFile path
    let program ← IO.FS.readFile c.program
    match c.run program settings with
    | .ok text =>
      IO.print text
      return 0
    | .error f =>
      IO.eprintln ("Error: " ++ f.message)
      return 1
  catch e =>
    IO.eprintln ("Error: " ++ toString e)
    return 1

/-- The entry point. -/
def main (args : List String) : IO UInt32 := do
  match Command.ofArgs? args with
  | some c => runCommand c
  | none =>
    IO.eprintln "usage: analyze PROGRAM [--config FILE] [--single-threaded] [--json]"
    return 2
