import Trampoline.Config.Parse
import Trampoline.Directory
import Trampoline.Machine.Program
import Trampoline.Surface.Build
import Trampoline.Syntax.Dump
import Trampoline.Transform.Program

/-!
# Projects

A project is a configuration with source files. It checks, shows and runs the files in it; every
step from the file to the result may fail in its own way.
-/

namespace Trampoline

/-- Why a step of a project fails. -/
inductive ProjectError where
  /-- A file that cannot be read. -/
  | io (path reason : String)
  /-- A file that is no configuration. -/
  | config (path : String)
  | parse (error : ParseError)
  | transform (error : TransformError)
  | eval (error : EvalError)
  deriving Inhabited

/-- The text of an error. -/
def ProjectError.message : ProjectError -> String
  | io path reason => "IO error on `" ++ path ++ "`: " ++ reason
  | config path => "invalid configuration `" ++ path ++ "`"
  | parse error => error.message
  | transform error => error.message
  | eval error => error.message

/-- A configuration that can be used, with its decorator table. -/
structure Project where
  config : Config
  table : DecoratorTable
  deriving Inhabited

namespace Project

/-- The project of a configuration, whose decorator table has to be the installed one. -/
def ofConfig (config : Config) : Except DecoratorError Project := do
  let table ← config.table
  table.install
  pure ⟨config, table⟩

/-- The configuration in the text of a file. -/
def parseConfig (path text : String) : Except ProjectError Config :=
  match Config.parse? text with
  | some config => .ok config
  | none => .error (.config path)

/-- The project of a configuration that was read. -/
def ofParsed (config : Except ProjectError Config) : Except ProjectError Project := do
  let config ← config
  (ofConfig config).mapError fun error => .transform (.decorator error)

/-- Parse and transform a source text. -/
def check (project : Project) (path source : String) : Except ProjectError Transformed := do
  let program ← (Program.parse source (some path)).mapError .parse
  (program.transform project.table project.config.escapeNames).mapError .transform

/-- A source text as it is after the transformation. -/
def dump (project : Project) (width : Option Nat) (path source : String) :
    Except ProjectError String := do
  let result ← project.check path source
  pure (result.program.dump width)

/-- How a run ended: its value or error, and what it printed. -/
structure Outcome where
  result : Except ProjectError Value
  machine : Machine

/-- Run a source text. The answer is nothing if the fuel runs out. -/
def run (fuel : Nat) (project : Project) (path source : String) : Option Outcome :=
  let start := Machine.start false
  match project.check path source with
  | .error error => some ⟨.error error, start⟩
  | .ok result =>
    match result.program.run fuel start with
    | none => none
    | some (result, machine) => some ⟨result.mapError .eval, machine⟩

end Project

namespace Directory

/-- The content of a file that has to be there. -/
def read (directory : Directory) (path : String) : Except ProjectError String :=
  (directory.find path).mapError fun fault => .io path fault.reason

/-- The configuration of a directory: that of the file given, else that of the default file if
there is one, else the default. -/
def config (directory : Directory) (path : Option String) : Except ProjectError Config :=
  match path with
  | some path => do
    let text ← directory.read path
    Project.parseConfig path text
  | none =>
    match directory.find Config.fileName with
    | .error .missing => .ok .default
    | _ => do
      let text ← directory.read Config.fileName
      Project.parseConfig Config.fileName text

/-- The project in a directory. -/
def project (directory : Directory) (path : Option String) : Except ProjectError Project :=
  Project.ofParsed (directory.config path)

end Directory

end Trampoline
