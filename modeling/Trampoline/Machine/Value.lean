import Trampoline.Syntax.Expr

/-!
# Values

What expressions evaluate to. Data that can change or that is known by its identity (lists,
promises, jump records, cells, caches) lives in the machine, and values refer to it. A callable
is a base that the evaluator made, with the wrappers that its decorators ask for around it.
-/

namespace Trampoline

/-- The place of a variable's content. -/
abbrev CellRef := Nat

/-- The cells that the names of a scope stand for, innermost names first. -/
abbrev Env := List (String × CellRef)

/-- The functions that every program starts with, the identity continuation apart. -/
inductive Native where
  | add
  | sub
  | mul
  | div
  | rem
  | eq
  | lt
  | gt
  | le
  | ge
  | not
  | list
  | tuple
  | values
  | push
  | len
  | nth
  | print
  | str
  | typeOf
  | raise
  | assertEq
  | force
  | forceDeep
  /-- Calls a function and, if it fails, a handler with the message. -/
  | attempt
  deriving DecidableEq, Repr, Inhabited

namespace Native

/-- All natives. -/
def all : List Native :=
  [add, sub, mul, div, rem, eq, lt, gt, le, ge, not, list, tuple, values, push, len, nth, print,
    str, typeOf, raise, assertEq, force, forceDeep, attempt]

/-- The global name of a native. -/
def name : Native -> String
  | add => "+"
  | sub => "-"
  | mul => "*"
  | div => "/"
  | rem => "%"
  | eq => "="
  | lt => "<"
  | gt => ">"
  | le => "<="
  | ge => ">="
  | not => "not"
  | list => "list"
  | tuple => "tuple"
  | values => "values"
  | push => "push!"
  | len => "len"
  | nth => "nth"
  | print => "print"
  | str => "str"
  | typeOf => "type-of"
  | raise => "raise"
  | assertEq => "assert-eq"
  | force => "force"
  | forceDeep => "force-deep"
  | attempt => "try"

/-- How many arguments a native takes, if that is fixed. -/
def arity : Native -> Option Nat
  | add | sub | mul | list | tuple | values | print | str | raise => none
  | div | rem | eq | lt | gt | le | ge | push | nth | assertEq | attempt => some 2
  | not | len | typeOf | force | forceDeep => some 1

end Native

/-- What a trampoline does with promises among the arguments of a jump. -/
inductive Variant where
  /-- It passes them on. -/
  | strict
  /-- It forces them for callables that do not take promises. -/
  | promiseAware
  deriving DecidableEq, Repr, Inhabited

/-- Things that can be applied. -/
inductive Callable where
  | closure (ref : Nat) (function : Function) (env : Env)
  | native (op : Native)
  /-- Runs jumps until a value comes out that is none. -/
  | trampolined (inner : Callable) (variant : Variant)
  | memoized (inner : Callable) (cache : Nat)
  /-- Passes a handle to itself as the first argument. -/
  | looped (inner : Callable)
  /-- What a looped function calls to go on: it jumps instead of calling. -/
  | loopHandle (ref : Nat) (inner : Callable)
  /-- Passes a new escape as the first argument. -/
  | escapePoint (inner : Callable)
  | escape (tag : Nat)
  /-- Supplies the identity continuation when no other is given. -/
  | contEnabled (inner : Callable)
  /-- Takes promises as arguments. -/
  | lazyFn (inner : Callable)
  /-- The rest of a body after a capture. It can be resumed while its extent is valid. -/
  | continuation (ref : Nat) (function : Function) (env : Env) (extent : Nat) (isLazy : Bool)
  /-- The continuation that does nothing more. -/
  | identity (ref : Nat)
  deriving Inhabited

/-- What tells one callable from another; wrappers do not. -/
inductive CallableId where
  | closure (ref : Nat)
  | native (op : Native)
  | loopHandle (ref : Nat)
  | escape (tag : Nat)
  | continuation (ref : Nat)
  | identity (ref : Nat)
  deriving DecidableEq, Repr, Inhabited

namespace Callable

/-- Whether promises are taken as arguments. The keys of a cache are made from forced
arguments. -/
def isLazy : Callable -> Bool
  | closure .. | native _ | loopHandle .. | escape _ | identity _ | memoized .. => false
  | continuation _ _ _ _ isLazy => isLazy
  | lazyFn _ => true
  | trampolined inner _ | looped inner | escapePoint inner | contEnabled inner => inner.isLazy

/-- Whether a continuation is taken as the keyword argument `cc`. -/
def acceptsCc : Callable -> Bool
  | closure .. | native _ | loopHandle .. | escape _ | identity _ | memoized ..
  | continuation .. => false
  | contEnabled _ => true
  | trampolined inner _ | looped inner | escapePoint inner | lazyFn inner => inner.acceptsCc

/-- Whether jumping here abandons the current continuation. -/
def isContinuation : Callable -> Bool
  | continuation .. | identity _ => true
  | trampolined inner _ => inner.isContinuation
  | _ => false

/-- The identity of a callable. -/
def ident : Callable -> CallableId
  | closure ref _ _ => .closure ref
  | native op => .native op
  | loopHandle ref _ => .loopHandle ref
  | escape tag => .escape tag
  | continuation ref _ _ _ _ => .continuation ref
  | identity ref => .identity ref
  | trampolined inner _ | memoized inner _ | looped inner | escapePoint inner
  | contEnabled inner | lazyFn inner => inner.ident

/-- How a callable is shown. -/
def label : Callable -> String
  | closure _ function _ => "<fn #" ++ toString function.signature.id ++ ">"
  | native op => "<native " ++ op.name ++ ">"
  | loopHandle .. => "<loop>"
  | escape _ => "<ec>"
  | continuation .. => "<continuation>"
  | identity _ => "<identity>"
  | trampolined inner _ | memoized inner _ | looped inner | escapePoint inner
  | contEnabled inner | lazyFn inner => inner.label

end Callable

/-- The trampoline that suits a callable. -/
def Variant.of (callable : Callable) : Variant :=
  if callable.isLazy then .promiseAware else .strict

/-- Values. Tuples hold their items; lists, jumps and promises are known by reference. -/
inductive Value where
  | nil
  | bool (value : Bool)
  | int (value : Int64)
  | str (value : String)
  | tuple (items : List Value)
  | list (ref : Nat)
  | func (callable : Callable)
  | jump (ref : Nat)
  | promise (ref : Nat)
  deriving Inhabited

/-- Keyword arguments in the order of the call. -/
abbrev Kwargs := List (String × Value)

/-- The types that a program can tell apart. -/
inductive ValueType where
  | nil
  | bool
  | int
  | str
  | tuple
  | list
  | function
  | continuation
  | jump
  | promise
  deriving DecidableEq, Repr, Inhabited

/-- The name of a type. -/
def ValueType.name : ValueType -> String
  | nil => "nil"
  | bool => "bool"
  | int => "int"
  | str => "str"
  | tuple => "tuple"
  | list => "list"
  | function => "function"
  | continuation => "continuation"
  | jump => "jump"
  | promise => "promise"

namespace Value

/-- The type of a value. -/
def type : Value -> ValueType
  | nil => .nil
  | bool _ => .bool
  | int _ => .int
  | str _ => .str
  | tuple _ => .tuple
  | list _ => .list
  | func callable => if callable.isContinuation then .continuation else .function
  | jump _ => .jump
  | promise _ => .promise

/-- Only nil and false count as false. -/
def truthy : Value -> Bool
  | nil | bool false => false
  | _ => true

/-- No value is nil, one is itself, several are a tuple. -/
def pack : List Value -> Value
  | [] => nil
  | [value] => value
  | values => tuple values

/-- The value of a constant. -/
def ofLiteral : Literal -> Value
  | .nil => nil
  | .bool value => bool value
  | .int value => int value
  | .str value => str value

end Value

/-- The part of a value that a cache compares. -/
inductive MemoKey where
  | nil
  | bool (value : Bool)
  | int (value : Int64)
  | str (value : String)
  | tuple (items : List MemoKey)
  deriving Inhabited

mutual

/-- Whether two keys are the same. -/
def MemoKey.same : MemoKey -> MemoKey -> Bool
  | .nil, .nil => true
  | .bool left, .bool right => left == right
  | .int left, .int right => left == right
  | .str left, .str right => left == right
  | .tuple left, .tuple right => sameKeys left right
  | _, _ => false

/-- Whether two lists of keys are the same. -/
def sameKeys : List MemoKey -> List MemoKey -> Bool
  | [], [] => true
  | left :: lefts, right :: rights => left.same right && sameKeys lefts rights
  | _, _ => false

end

mutual

/-- The key of a value, which data without lists, functions, jumps and promises has. -/
def Value.memoKey? : Value -> Option MemoKey
  | .nil => some .nil
  | .bool value => some (.bool value)
  | .int value => some (.int value)
  | .str value => some (.str value)
  | .tuple items => (memoKeys? items).map .tuple
  | .list _ | .func _ | .jump _ | .promise _ => none

/-- The keys of several values, if all have one. -/
def memoKeys? : List Value -> Option (List MemoKey)
  | [] => some []
  | value :: rest =>
    match value.memoKey?, memoKeys? rest with
    | some key, some keys => some (key :: keys)
    | _, _ => none

end

/-- Why an evaluation fails. -/
inductive EvalError where
  | unbound (name : String)
  | typeMismatch (op : Native) (expected : List ValueType) (found : ValueType)
  | arity (func : String) (expected found : Nat)
  | unexpectedKeyword (func keyword : String)
  | missingArgument (func param : String)
  | notCallable (found : ValueType)
  /-- A promise is needed for its own value. -/
  | recursiveForce
  | continuationInvalidated
  | continuationArity (expected found : Nat)
  | escapeOutsideExtent
  /-- Unwinding towards the escape point with this tag. -/
  | escape (tag : Nat) (value : Value)
  | jumpConsumed
  | unhashable (found : ValueType)
  | divisionByZero
  | indexOutOfRange (index : Int64) (length : Nat)
  /-- Two values, as shown, that should be equal. -/
  | assertionFailed (left right : String)
  | raised (message : String)
  /-- A capture that the transformation never saw. -/
  | captureOutsideBlock
  | output (reason : String)
  deriving Inhabited

/-- Some types as alternatives, such as `list, tuple or str`. -/
def alternatives : List ValueType -> String
  | [] => ""
  | [type] => type.name
  | [first, second] => first.name ++ " or " ++ second.name
  | type :: rest => type.name ++ ", " ++ alternatives rest

namespace EvalError

/-- The text of an error. -/
def message : EvalError -> String
  | unbound name => "unbound variable `" ++ name ++ "`"
  | typeMismatch op expected found =>
    op.name ++ ": expected " ++ alternatives expected ++ ", found " ++ found.name
  | arity func expected found =>
    func ++ ": expected " ++ toString expected ++ " arguments, got " ++ toString found
  | unexpectedKeyword func keyword => func ++ ": unexpected keyword argument `:" ++ keyword ++ "`"
  | missingArgument func param => func ++ ": missing argument `" ++ param ++ "`"
  | notCallable found => "a " ++ found.name ++ " is not callable"
  | recursiveForce => "promise forced while it was already being forced"
  | continuationInvalidated =>
    "continuation invoked after an error left the activation that captured it"
  | continuationArity expected found =>
    "continuation expects " ++ toString expected ++ " values, got " ++ toString found
  | escapeOutsideExtent => "escape continuation invoked outside of its extent"
  | escape _ _ => "escape to a `call-ec` point that is no longer running"
  | jumpConsumed => "jump record consumed twice"
  | unhashable found => "a " ++ found.name ++ " cannot be used as a memoization key"
  | divisionByZero => "division by zero"
  | indexOutOfRange index length =>
    "index " ++ toString index.toInt ++ " out of range for length " ++ toString length
  | assertionFailed left right => "assertion failed: " ++ left ++ " != " ++ right
  | raised message => message
  | captureOutsideBlock => "`capture` outside of a `continuations` block"
  | output reason => "output error: " ++ reason

/-- Escapes unwind on purpose; they leave continuations valid. -/
def isEscape : EvalError -> Bool
  | escape _ _ => true
  | _ => false

end EvalError

end Trampoline
