/-!
# Decorators

The wrappers around functions, and the tables that decide how wrappers nest. A table gives every
decorator that it knows a position; lower positions are further out. Any set of decorators then
has one nesting order.
-/

namespace Trampoline

/-- The kinds of wrapper that can be put around a function. -/
inductive Decorator where
  /-- Answers repeated calls from a cache. -/
  | memoize
  /-- Runs the jumps that the function returns. -/
  | trampolined
  /-- Passes the function a handle to itself. -/
  | looped
  /-- Passes the function an escape continuation. -/
  | callEc
  /-- Passes the identity continuation when no other is given. -/
  | continuations
  /-- Takes promises as arguments. -/
  | lazy
  deriving DecidableEq, Repr, Inhabited

namespace Decorator

/-- All decorators, in the order of their default positions. -/
def all : List Decorator :=
  [memoize, trampolined, looped, callEc, continuations, lazy]

/-- The name used in source text and in configurations. -/
def name : Decorator -> String
  | memoize => "memoize"
  | trampolined => "trampolined"
  | looped => "looped"
  | callEc => "call-ec"
  | continuations => "continuations"
  | lazy => "lazy"

/-- The decorator that a name means. -/
def ofName? (name : String) : Option Decorator :=
  all.find? fun decorator => decorator.name == name

/-- The position that a decorator has when nothing else is said. -/
def defaultPosition : Decorator -> Nat
  | memoize => 10
  | trampolined => 20
  | looped => 30
  | callEc => 40
  | continuations => 50
  | lazy => 60

end Decorator

/-- The names of decorators, with a blank between them. -/
def decoratorNames (decorators : List Decorator) : String :=
  " ".intercalate (decorators.map Decorator.name)

/-- A decorator at a position. -/
structure Registration where
  decorator : Decorator
  position : Nat
  deriving DecidableEq, Repr, Inhabited

/-- What can be wrong with a table or with a request to it. -/
inductive DecoratorError where
  | unknown (name : String)
  | unregistered (decorator : Decorator)
  | registeredTwice (decorator : Decorator)
  | conflictingPosition (decorator other : Decorator) (position : Nat)
  /-- A trampoline that is not further out than the escape point would end the extent of an
  escape before the jumps inside it run. -/
  | escapeOutsideTrampoline (trampolined callEc : Nat)
  /-- A table other than the installed one. -/
  | tableInstalled
  deriving DecidableEq, Repr

/-- The text of an error. -/
def DecoratorError.message : DecoratorError -> String
  | unknown name => "unknown decorator `" ++ name ++ "`"
  | unregistered decorator => "decorator `" ++ decorator.name ++ "` is not registered"
  | registeredTwice decorator => "decorator `" ++ decorator.name ++ "` is registered twice"
  | conflictingPosition decorator other position =>
    "decorators `" ++ decorator.name ++ "` and `" ++ other.name ++ "` both claim position " ++
      toString position
  | escapeOutsideTrampoline trampolined callEc =>
    "`trampolined` (position " ++ toString trampolined ++ ") must wrap `call-ec` (position " ++
      toString callEc ++ ") from the outside"
  | tableInstalled => "the decorator registry is already installed"

/-- A table of decorators, in the order in which they were registered. -/
structure DecoratorTable where
  records : List Registration
  deriving DecidableEq, Repr, Inhabited

namespace DecoratorTable

/-- The table that knows no decorator. -/
def empty : DecoratorTable := ⟨[]⟩

/-- Every decorator at its default position. -/
def default : DecoratorTable :=
  ⟨Decorator.all.map fun decorator => ⟨decorator, decorator.defaultPosition⟩⟩

/-- The registration of a decorator. -/
def record? (table : DecoratorTable) (decorator : Decorator) : Option Registration :=
  table.records.find? fun record => record.decorator = decorator

/-- Add a decorator at a position that is still free. -/
def register (table : DecoratorTable) (decorator : Decorator) (position : Nat) :
    Except DecoratorError DecoratorTable :=
  if (table.record? decorator).isSome then .error (.registeredTwice decorator)
  else
    match table.records.find? fun record => record.position = position with
    | some other => .error (.conflictingPosition decorator other.decorator position)
    | none => .ok ⟨table.records ++ [⟨decorator, position⟩]⟩

/-- The decorator that a name written in a source means under this table. -/
def lookup (table : DecoratorTable) (name : String) : Except DecoratorError Decorator :=
  match Decorator.ofName? name with
  | some decorator =>
    if (table.record? decorator).isSome then .ok decorator else .error (.unknown name)
  | none => .error (.unknown name)

/-- Put a registration in its place: behind those of lower or equal positions. -/
def insertByPosition (record : Registration) : List Registration -> List Registration
  | [] => [record]
  | first :: rest =>
    if record.position < first.position then record :: first :: rest
    else first :: insertByPosition record rest

/-- The registrations of the decorators asked for, each once and sorted by position, added to
registrations that are sorted already. -/
def collect (table : DecoratorTable) :
    List Decorator -> List Registration -> Except DecoratorError (List Registration)
  | [], sorted => .ok sorted
  | decorator :: rest, sorted =>
    match table.record? decorator with
    | none => .error (.unregistered decorator)
    | some record =>
      if sorted.any fun other => other.decorator = decorator then table.collect rest sorted
      else table.collect rest (insertByPosition record sorted)

/-- The nesting order of some decorators, outermost first. Repetitions collapse. -/
def order (table : DecoratorTable) (decorators : List Decorator) :
    Except DecoratorError (List Decorator) :=
  (table.collect decorators []).map fun records => records.map Registration.decorator

/-- A table that knows both trampolines and escape points has trampolines further out. -/
def validate (table : DecoratorTable) : Except DecoratorError Unit :=
  match table.record? .trampolined, table.record? .callEc with
  | some trampolined, some callEc =>
    if callEc.position ≤ trampolined.position then
      .error (.escapeOutsideTrampoline trampolined.position callEc.position)
    else .ok ()
  | _, _ => .ok ()

/-- Whether two tables hold the same registrations, in whatever order. -/
def agrees (left right : DecoratorTable) : Bool :=
  left.records.all (right.records.contains ·) && right.records.all (left.records.contains ·)

/-- Ask for a table to be the one that all transformations use. The default table is in place
from the start, so only a table that agrees with it is taken. -/
def install (table : DecoratorTable) : Except DecoratorError Unit := do
  table.validate
  if table.agrees default then .ok () else .error .tableInstalled

end DecoratorTable

end Trampoline
