import Trampoline.CommandLine
import Trampoline.Project

/-!
# The program

Reads the configuration and the files named on the command line, one after another, and prints
what comes of them. The first failure ends the program.
-/

namespace Trampoline.Main

/-- More calls than any program makes in a lifetime. -/
def fuel : Nat := 1000000000000000000

/-- The content of a file. -/
def load (path : String) : IO (Except ProjectError String) := do
  try
    let content ← IO.FS.readFile path
    pure (.ok content)
  catch
    | .noFileOrDirectory .. => pure (.error (.io path PathFault.missing.reason))
    | error => pure (.error (.io path (toString error)))

/-- The configuration named, else that of the default file if there is one, else the default. -/
def config (path : Option String) : IO (Except ProjectError Config) := do
  let name := path.getD Config.fileName
  let text ← load name
  match text, path with
  | .ok text, _ => pure (Project.parseConfig name text)
  | .error (.io _ reason), none =>
    if reason = PathFault.missing.reason then pure (.ok .default)
    else pure (.error (.io name reason))
  | .error error, _ => pure (.error error)

/-- Run a file and print its output. -/
def run (project : Project) (file : String) : IO (Option ProjectError) := do
  let source ← load file
  match source with
  | .error error => pure (some error)
  | .ok source =>
    match project.run fuel file source with
    | none => pure none
    | some outcome => do
      IO.print outcome.machine.output
      match outcome.result with
      | .ok _ => pure none
      | .error error => pure (some error)

/-- Check a file and say so. -/
def check (project : Project) (file : String) : IO (Option ProjectError) := do
  let source ← load file
  match source >>= project.check file with
  | .ok _ => do
    IO.println ("ok " ++ file)
    pure none
  | .error error => pure (some error)

/-- Print a file as it is after the transformation. -/
def dump (project : Project) (width : Option Nat) (file : String) : IO (Option ProjectError) := do
  let source ← load file
  match source >>= project.dump width file with
  | .ok shown => do
    IO.print shown
    pure none
  | .error error => pure (some error)

/-- Do something with each file, up to the first failure. -/
def each (files : List String) (act : String -> IO (Option ProjectError)) :
    IO (Option ProjectError) :=
  match files with
  | [] => pure none
  | file :: rest => do
    let failure ← act file
    match failure with
    | none => each rest act
    | some error => pure (some error)

/-- Do what a command asks. -/
def execute (command : Command) : IO (Option ProjectError) := do
  let config ← config command.config
  match Project.ofParsed config with
  | .error error => pure (some error)
  | .ok project =>
    match command.action with
    | .run files => each files (run project)
    | .check files => each files (check project)
    | .dump file width => dump project width file

end Trampoline.Main

/-- The program: it ends with 1 after a failure and with 2 if it is called wrongly. -/
def main (args : List String) : IO UInt32 := do
  match Trampoline.Command.ofArgs? args with
  | none => do
    IO.eprintln Trampoline.Command.usage
    pure 2
  | some command => do
    let failure ← Trampoline.Main.execute command
    match failure with
    | none => pure 0
    | some error => do
      IO.eprintln ("error: " ++ error.message)
      pure 1
