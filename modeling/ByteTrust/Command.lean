import ByteTrust.Json.Write
import ByteTrust.Program.Decode
import ByteTrust.Program.Link
import ByteTrust.Report.Json
import ByteTrust.Settings

/-!
# The command line

`Command.run` is the whole command but for the reading of files: from the texts it was given to
what it prints. `Command.ofArgs?` reads the arguments:
`analyze PROGRAM [--config FILE] [--single-threaded] [--json]`.
-/

namespace ByteTrust

/-- Why a program text is refused. -/
inductive LoadError
  /-- It is not the JSON text of a program. -/
  | undecodable
  | invalid (f : Fault)

/-- The program in a text, linked. -/
def Program.load (text : String) : Except LoadError Program :=
  match Program.ofText? text with
  | none => .error .undecodable
  | some p =>
    match p.link with
    | .ok p => .ok p
    | .error f => .error (.invalid f)

/-- A command: the paths of the files and the flags. -/
structure Command where
  program : String
  settings : Option String := none
  singleThreaded : Bool := false
  json : Bool := false

namespace Command

/-- Why a command fails. -/
inductive Failure
  | settings
  | program (e : LoadError)
  | analysis (f : Fault)

/-- What to say about a failure. -/
def Failure.message : Failure → String
  | .settings => "invalid configuration"
  | .program .undecodable => "failed to decode program description"
  | .program (.invalid f) => f.message
  | .analysis f => f.message

/-- What the command prints, given the text of the program and of the settings. -/
def run (c : Command) (program : String) (settings : Option String) : Except Failure String := do
  let settings ←
    match settings with
    | none => pure {}
    | some text =>
      match Settings.ofToml? text with
      | some s => pure s
      | none => throw .settings
  let settings := { settings with singleThreaded := settings.singleThreaded || c.singleThreaded }
  let p ← (Program.load program).mapError .program
  let (report, _) ← (analyze p settings {}).mapError .analysis
  return if c.json then report.json.pretty ++ "\n" else report.summary p.root

/-- Ask for log lines, of which there are none. -/
def isVerbosity (arg : String) : Bool := arg = "-v" || arg = "-vv" || arg = "--verbose"

/-- Read the options and the path after the word `analyze`. -/
def ofOptions? (c : Command) : List String → Option Command
  | [] => if c.program.isEmpty then none else some c
  | "--single-threaded" :: rest => ofOptions? { c with singleThreaded := true } rest
  | "--json" :: rest => ofOptions? { c with json := true } rest
  | "--config" :: file :: rest => ofOptions? { c with settings := some file } rest
  | "-c" :: file :: rest => ofOptions? { c with settings := some file } rest
  | path :: rest =>
    if path.startsWith "-" || !c.program.isEmpty then none
    else ofOptions? { c with program := path } rest

/-- Read the arguments of a command. -/
def ofArgs? (args : List String) : Option Command :=
  match args.filter fun arg => !isVerbosity arg with
  | "analyze" :: rest => ofOptions? { program := "" } rest
  | _ => none

end Command

end ByteTrust
