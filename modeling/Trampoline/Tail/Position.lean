import Trampoline.Syntax.Expr

/-!
# Tail positions

The places of a body whose value becomes the value of the body: its returns, the empty blocks
whose end is the end of the body, and the arguments of calls to escape names, which leave the body
from anywhere. A body is looked at on its own; the functions in it are bodies of their own.
-/

namespace Trampoline

/-- A place where a body ends. -/
inductive TailPosition where
  /-- An expression whose value is the value of the body. -/
  | returns (e : Expr)
  /-- An expression whose value is handed to an escape continuation. -/
  | escapes (e : Expr)
  /-- An empty block at the end of the body; its value is nil. -/
  | fallThrough (block : Expr)
  deriving Inhabited

namespace TailPosition

/-- The expression at the position. -/
def expr : TailPosition -> Expr
  | returns e => e
  | escapes e => e
  | fallThrough block => block

/-- The name of the kind of position. -/
def kindName : TailPosition -> String
  | returns _ => "return"
  | escapes _ => "escape"
  | fallThrough _ => "fall-through"

def isReturn : TailPosition -> Bool
  | returns _ => true
  | _ => false

def isEscape : TailPosition -> Bool
  | escapes _ => true
  | _ => false

def isFallThrough : TailPosition -> Bool
  | fallThrough _ => true
  | _ => false

end TailPosition

/-- Whether an expression is a reference to one of the names. -/
def Expr.isNameIn (names : List String) : Expr -> Bool
  | .var _ name => names.contains name
  | _ => false

mutual

/-- The places where an expression returns, in source order. A conditional without alternative
can also end with a nil of its own, which is at no place. -/
def Expr.returns : Expr -> List TailPosition
  | .seq mark [] => [.fallThrough (.seq mark [])]
  | .seq _ items => returnsOfLast items
  | .cond _ arms alt =>
    returnsOfArms arms ++
      match alt with
      | none => []
      | some e => e.returns
  | .short mark op [] => [.returns (.short mark op [])]
  | .short _ _ operands => returnsOfLast operands
  | e => [.returns e]

/-- The returns of the last of some expressions. -/
def returnsOfLast : List Expr -> List TailPosition
  | [] => []
  | [e] => e.returns
  | _ :: rest => returnsOfLast rest

/-- The returns of the bodies of some arms. -/
def returnsOfArms : List (Expr × Expr) -> List TailPosition
  | [] => []
  | (_, body) :: rest => body.returns ++ returnsOfArms rest

end

mutual

/-- The positional arguments of the escape calls in an expression, each call before the calls
inside it. -/
def Expr.escapeArgs (escapes : List String) : Expr -> List TailPosition
  | .lit .. | .var .. | .fn .. => []
  | .call _ func args kwargs =>
    (if func.isNameIn escapes then args.map .escapes else []) ++
      func.escapeArgs escapes ++ escapeArgsOfAll escapes args ++ escapeArgsOfKwargs escapes kwargs
  | .cond _ arms alt =>
    escapeArgsOfArms escapes arms ++
      match alt with
      | none => []
      | some e => e.escapeArgs escapes
  | .short _ _ operands => escapeArgsOfAll escapes operands
  | .seq _ items => escapeArgsOfAll escapes items
  | .bind _ _ bindee => bindee.escapeArgs escapes
  | .assign _ _ bindee => bindee.escapeArgs escapes
  | .loop _ test body => test.escapeArgs escapes ++ body.escapeArgs escapes
  | .jump _ func args kwargs cc =>
    func.escapeArgs escapes ++ escapeArgsOfAll escapes args ++ escapeArgsOfKwargs escapes kwargs ++
      match cc with
      | none => []
      | some e => e.escapeArgs escapes
  | .capture _ _ e => e.escapeArgs escapes

/-- The arguments of the escape calls in several expressions. -/
def escapeArgsOfAll (escapes : List String) : List Expr -> List TailPosition
  | [] => []
  | e :: rest => e.escapeArgs escapes ++ escapeArgsOfAll escapes rest

/-- The arguments of the escape calls in keyword arguments. -/
def escapeArgsOfKwargs (escapes : List String) : List (String × Expr) -> List TailPosition
  | [] => []
  | (_, e) :: rest => e.escapeArgs escapes ++ escapeArgsOfKwargs escapes rest

/-- The arguments of the escape calls in the arms of a conditional. -/
def escapeArgsOfArms (escapes : List String) : List (Expr × Expr) -> List TailPosition
  | [] => []
  | (test, body) :: rest =>
    test.escapeArgs escapes ++ body.escapeArgs escapes ++ escapeArgsOfArms escapes rest

end

/-- All tail positions of a body: its returns and fall-throughs in source order, then the
arguments of its escape calls. -/
def tailPositions (escapes : List String) (body : Expr) : List TailPosition :=
  body.returns ++ body.escapeArgs escapes

/-- Whether an expression of a body returns from it or is handed to an escape. -/
def isTail (positions : List TailPosition) (e : Expr) : Bool :=
  positions.any fun position => !position.isFallThrough && position.expr.id == e.id

end Trampoline
