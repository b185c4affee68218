import Trampoline.Decorator

/-!
# Configurations

What a configuration can set: the escape names, whether abandoned jumps are reported, and the
positions of decorators. A configuration has a decorator table if its positions are consistent.
-/

namespace Trampoline

/-- A configuration. -/
structure Config where
  /-- The names whose calls count as escapes. -/
  escapeNames : List String
  warnUnconsumedJumps : Bool
  /-- Positions that differ from the default, by the name of the decorator. -/
  decorators : List (String × Nat)
  deriving DecidableEq, Repr, Inhabited

namespace Config

/-- The configuration of an empty file. -/
def default : Config := ⟨["ec", "brk"], true, []⟩

/-- The name of the file that is looked for when none is given. -/
def fileName : String := "bounce.toml"

/-- The lesser of two names; names are ordered by their code points. -/
def lesserName (left right : String) : String :=
  if right < left then right else left

/-- The first in alphabetical order of the names that are no decorators. -/
def firstUnknown (names : List String) : Option String :=
  match names.filter fun name => (Decorator.ofName? name).isNone with
  | [] => none
  | name :: rest => some (rest.foldl lesserName name)

/-- The position of a decorator under some overrides. -/
def positionOf (overrides : List (String × Nat)) (decorator : Decorator) : Nat :=
  (overrides.lookup decorator.name).getD decorator.defaultPosition

/-- Register decorators at their positions, in order. -/
def registerAll (overrides : List (String × Nat)) :
    List Decorator -> DecoratorTable -> Except DecoratorError DecoratorTable
  | [], table => .ok table
  | decorator :: rest, table => do
    let table ← table.register decorator (positionOf overrides decorator)
    registerAll overrides rest table

/-- The table of all decorators, at their default positions unless overridden. -/
def tableWith (overrides : List (String × Nat)) : Except DecoratorError DecoratorTable :=
  match firstUnknown (overrides.map Prod.fst) with
  | some name => .error (.unknown name)
  | none => do
    let table ← registerAll overrides Decorator.all .empty
    table.validate
    pure table

/-- The decorator table of a configuration. -/
def table (config : Config) : Except DecoratorError DecoratorTable :=
  tableWith config.decorators

end Config

end Trampoline
