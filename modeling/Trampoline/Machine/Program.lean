import Trampoline.Machine.Eval

/-!
# Running programs

A program runs form by form. A definition binds a global; a bare expression is forced, and the
value of the last one is the value of the program.
-/

namespace Trampoline

/-- Evaluate the expression of a toplevel form in a scope of its own. -/
def evalToplevel (fuel : Nat) (e : Expr) : Run Value :=
  Run.guarded (Body.run (eval fuel e) Frame.toplevel)

/-- Bind a global and tell so. -/
def defineToplevel (name : String) (value : Value) : Run Unit := do
  Run.tell (.defined name)
  Exec.modify fun m : Machine => m.define name value

/-- Run toplevel forms; `last` is the value of the last bare expression so far. -/
def runToplevels (fuel : Nat) : List Toplevel -> (last : Value) -> Run Value
  | [], last => pure last
  | .define name bindee :: rest, last => do
    let value ← evalToplevel fuel bindee
    defineToplevel name value
    runToplevels fuel rest last
  | .exec e :: rest, _ => do
    let value ← evalToplevel fuel e
    let value ← force fuel value
    runToplevels fuel rest value

/-- Run a program on a machine, which may have run it before. -/
def Program.run (fuel : Nat) (program : Program) : Run Value :=
  runToplevels fuel program.top .nil

/-- The warnings about the jumps that a finished machine leaves behind, sorted. -/
def Machine.warnings (m : Machine) : List String :=
  (m.abandoned.map Jump.warning).mergeSort fun left right => !(right < left : Bool)

end Trampoline
