import Trampoline.Syntax.Expr
import Trampoline.Text.Quoted

/-!
# The one-line form of a program

Every expression has one written form, on one line. Blocks are spread into the forms that hold
them, so the body of a function, an arm or a loop is a list of items.
-/

namespace Trampoline

/-- The written form of a constant. -/
def Literal.render : Literal -> String
  | nil => "nil"
  | bool true => "#t"
  | bool false => "#f"
  | int value => toString value.toInt
  | str value => Quoted.write value

/-- The list of parameters and the decorators that a function starts with. -/
def Signature.renderHead (signature : Signature) : String :=
  let decorators :=
    match signature.decorators with
    | [] => ""
    | decorators => " :decorators (" ++ " ".intercalate (decorators.map Prod.fst) ++ ")"
  signature.kind.word ++ " (" ++ " ".intercalate signature.params ++ ")" ++ decorators

mutual

/-- The written form of an expression. -/
def Expr.render : Expr -> String
  | .lit _ value => value.render
  | .var _ name => name
  | .fn _ signature body =>
    "(" ++ signature.renderHead ++
      (match body with
      | .seq _ items => renderItems items
      | e => " " ++ e.render) ++
      ")"
  | .call _ func args kwargs => "(" ++ func.render ++ renderItems args ++ renderKwargs kwargs ++ ")"
  | .cond _ arms alt =>
    "(cond" ++ renderArms arms ++
      (match alt with
      | none => ""
      | some (.seq _ items) => " (else" ++ renderItems items ++ ")"
      | some e => " (else " ++ e.render ++ ")") ++
      ")"
  | .short _ op operands => "(" ++ op.word ++ renderItems operands ++ ")"
  | .seq _ items => "(begin" ++ renderItems items ++ ")"
  | .bind _ name bindee => "(let " ++ name ++ " " ++ bindee.render ++ ")"
  | .assign _ name bindee => "(set! " ++ name ++ " " ++ bindee.render ++ ")"
  | .loop _ test body =>
    "(while " ++ test.render ++
      (match body with
      | .seq _ items => renderItems items
      | e => " " ++ e.render) ++
      ")"
  | .jump _ func args kwargs cc =>
    "(jump " ++ func.render ++ renderItems args ++ renderKwargs kwargs ++
      (match cc with
      | none => ""
      | some e => " :cc " ++ e.render) ++
      ")"
  | .capture _ binders e =>
    "(capture (" ++ " ".intercalate binders ++ ") " ++ e.render ++ ")"

/-- Expressions, each after a blank. -/
def renderItems : List Expr -> String
  | [] => ""
  | e :: rest => " " ++ e.render ++ renderItems rest

/-- Keyword arguments, each after a blank. -/
def renderKwargs : List (String × Expr) -> String
  | [] => ""
  | (name, e) :: rest => " :" ++ name ++ " " ++ e.render ++ renderKwargs rest

/-- The arms of a conditional, each in parentheses after a blank. -/
def renderArms : List (Expr × Expr) -> String
  | [] => ""
  | (test, body) :: rest =>
    " (" ++ test.render ++
      (match body with
      | .seq _ items => renderItems items
      | e => " " ++ e.render) ++
      ")" ++ renderArms rest

end

/-- The written form of a toplevel form. -/
def Toplevel.render : Toplevel -> String
  | define name bindee => "(define " ++ name ++ " " ++ bindee.render ++ ")"
  | exec e => e.render

end Trampoline
