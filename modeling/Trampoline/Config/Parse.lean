import Trampoline.Config.Basic
import Trampoline.Config.Toml

/-!
# Configurations from text

A configuration file sets each of its three fields at most once, except that the positions of
decorators may come one by one, each under a key of its own. Anything else in it is an error.
-/

namespace Trampoline

/-- What a configuration file has said so far. -/
structure ConfigDraft where
  escapeNames : Option (List String)
  warnUnconsumedJumps : Option Bool
  decorators : Option (List (String × Nat))
  /-- Whether positions may still be added by dotted keys. -/
  isOpen : Bool
  /-- Whether the header of the decorators was read, so that pairs go into that table. -/
  isInside : Bool

namespace ConfigDraft

/-- Before the first line. -/
def empty : ConfigDraft := ⟨none, none, none, true, false⟩

/-- The names in an array of strings. -/
def names? : List Toml -> Option (List String)
  | [] => some []
  | .str name :: rest => (names? rest).map (name :: ·)
  | _ => none

/-- The position that an integer is; positions have 32 bits. -/
def position? : Toml -> Option Nat
  | .int value => if 0 ≤ value && value.toNat < UInt32.size then some value.toNat else none
  | _ => none

/-- Positions with one more, whose name must be new. -/
def addPosition (name : String) (value : Toml) (positions : List (String × Nat)) :
    Option (List (String × Nat)) :=
  if (positions.lookup name).isSome then none
  else (position? value).map fun position => positions ++ [(name, position)]

/-- The positions in an inline table. -/
def positions? : List (List String × Toml) -> List (String × Nat) -> Option (List (String × Nat))
  | [], positions => some positions
  | ([name], value) :: rest, positions => do
    let positions ← addPosition name value positions
    positions? rest positions
  | _, _ => none

/-- Take in a pair outside all tables. -/
def addField (draft : ConfigDraft) (path : List String) (value : Toml) : Option ConfigDraft :=
  match path, value with
  | ["escape_names"], .array items =>
    if draft.escapeNames.isSome then none
    else (names? items).map fun names => { draft with escapeNames := some names }
  | ["warn_unconsumed_jumps"], .bool value =>
    if draft.warnUnconsumedJumps.isSome then none
    else some { draft with warnUnconsumedJumps := some value }
  | ["decorators"], .table fields =>
    if draft.decorators.isSome then none
    else (positions? fields []).map fun positions =>
      { draft with decorators := some positions, isOpen := false }
  | ["decorators", name], value =>
    if !draft.isOpen then none
    else (addPosition name value (draft.decorators.getD [])).map fun positions =>
      { draft with decorators := some positions }
  | _, _ => none

/-- Take in a line. -/
def addLine (draft : ConfigDraft) : TomlLine -> Option ConfigDraft
  | .header path =>
    if path = ["decorators"] && draft.decorators.isNone then
      some { draft with decorators := some [], isOpen := false, isInside := true }
    else none
  | .pair path value =>
    if draft.isInside then
      match path with
      | [name] => (addPosition name value (draft.decorators.getD [])).map fun positions =>
        { draft with decorators := some positions }
      | _ => none
    else draft.addField path value

/-- The configuration that was said, with defaults for the rest. -/
def finish (draft : ConfigDraft) : Config :=
  ⟨draft.escapeNames.getD Config.default.escapeNames,
    draft.warnUnconsumedJumps.getD Config.default.warnUnconsumedJumps,
    draft.decorators.getD Config.default.decorators⟩

end ConfigDraft

/-- The configuration that a text is, if it is one. -/
def Config.parse? (text : String) : Option Config := do
  let lines ← Toml.document? text
  let draft ← lines.foldlM ConfigDraft.addLine .empty
  some draft.finish

end Trampoline
