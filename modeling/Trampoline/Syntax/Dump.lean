import Trampoline.Syntax.Layout

/-!
# Programs as source text

What is shown of a program: its code, on one line for each toplevel form or laid out for a width,
and the wrappers of its functions in comments at the end.
-/

namespace Trampoline

/-- The comment that lists the wrappers of a function. -/
def Function.renderWrappers (function : Function) : String :=
  let name := function.signature.name.getD ("fn #" ++ toString function.signature.id)
  "; " ++ name ++ ": " ++ decoratorNames function.signature.wrappers ++ "\n"

/-- A program as source text, followed by the wrappers of its functions. Without a width every
toplevel form takes one line. -/
def Program.dump (width : Option Nat) (program : Program) : String :=
  let code :=
    match width with
    | some width => program.renderLayout width ++ "\n"
    | none => String.join (program.top.map fun top => top.render ++ "\n")
  let wrapped := program.functions.filter fun function => !function.signature.wrappers.isEmpty
  code ++ String.join (wrapped.map Function.renderWrappers)

end Trampoline
