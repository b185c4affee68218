/-!
# The command line

What the program is asked to do: run files, check files, or show one file as it is after the
transformation.
-/

namespace Trampoline

/-- What to do with the files named on the command line. -/
inductive Action where
  | run (files : List String)
  | check (files : List String)
  | dump (file : String) (width : Option Nat)
  deriving DecidableEq, Repr, Inhabited

/-- A command: an action under a configuration file, if one is named. -/
structure Command where
  action : Action
  config : Option String
  deriving DecidableEq, Repr, Inhabited

namespace Command

/-- The words and the options of a command line. -/
structure Words where
  files : List String
  config : Option String
  width : Option Nat

/-- How the program is called. -/
def usage : String :=
  "usage: run FILE... | check FILE... | dump FILE [--width N], with [--conf FILE]"

/-- Sort the words of a command line into files and options. -/
def words? : List String -> Words -> Option Words
  | [], words => some ⟨words.files.reverse, words.config, words.width⟩
  | "--conf" :: path :: rest, words => words? rest { words with config := some path }
  | "--width" :: width :: rest, words => do
    let width ← width.toNat?
    words? rest { words with width := some width }
  | "-w" :: width :: rest, words => do
    let width ← width.toNat?
    words? rest { words with width := some width }
  | file :: rest, words =>
    if file.startsWith "-" then none else words? rest { words with files := file :: words.files }

/-- The command that the arguments of the program spell. -/
def ofArgs? : List String -> Option Command
  | [] => none
  | name :: rest => do
    let words ← words? rest ⟨[], none, none⟩
    match name, words.files, words.width with
    | "run", file :: files, none => some ⟨.run (file :: files), words.config⟩
    | "check", file :: files, none => some ⟨.check (file :: files), words.config⟩
    | "dump", [file], width => some ⟨.dump file width, words.config⟩
    | _, _, _ => none

end Command

end Trampoline
