import Trampoline.Layout.Doc
import Trampoline.Syntax.Printer

/-!
# The laid-out form of a program

Functions, conditionals, blocks and loops are groups that may be broken; every other expression
stays on one line. Decorators are not shown.
-/

namespace Trampoline

/-- What a function starts with when it is laid out. -/
def Signature.layoutHead (signature : Signature) : Doc :=
  .text (signature.kind.word ++ " (" ++ " ".intercalate signature.params ++ ")")

mutual

/-- The layout of an expression. -/
def Expr.layout : Expr -> Doc
  | .fn _ signature body =>
    Doc.parens signature.layoutHead
      (match body with
      | .seq _ items => layoutItems items
      | e => [e.layout])
  | .cond _ arms alt =>
    Doc.parens (.text "cond") (layoutArms arms ++
      match alt with
      | none => []
      | some (.seq _ items) => [Doc.parens (.text "else") (layoutItems items)]
      | some e => [Doc.parens (.text "else") [e.layout]])
  | .seq _ items => Doc.parens (.text "begin") (layoutItems items)
  | .loop _ test body =>
    Doc.parens (.text "while " ++ test.layout)
      (match body with
      | .seq _ items => layoutItems items
      | e => [e.layout])
  | e => .text e.render

/-- The layouts of several expressions. -/
def layoutItems : List Expr -> List Doc
  | [] => []
  | e :: rest => e.layout :: layoutItems rest

/-- The layouts of the arms of a conditional. -/
def layoutArms : List (Expr × Expr) -> List Doc
  | [] => []
  | (test, body) :: rest =>
    Doc.parens test.layout
      (match body with
      | .seq _ items => layoutItems items
      | e => [e.layout]) :: layoutArms rest

end

/-- The layout of a toplevel form. -/
def Toplevel.layout : Toplevel -> Doc
  | define name bindee => Doc.parens (.text ("define " ++ name)) [bindee.layout]
  | exec e => e.layout

/-- A program laid out for a width: its toplevel forms, each from the start of a line on. -/
def Program.renderLayout (width : Nat) (program : Program) : String :=
  "\n".intercalate (program.top.map fun top => top.layout.render width)

end Trampoline
