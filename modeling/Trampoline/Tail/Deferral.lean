import Trampoline.Tail.Position

/-!
# Deferred tail calls

Inside `tco` blocks a call whose value is returned becomes a jump, which the trampoline around the
function makes after the function has returned. Calls to escape names unwind on their own and have
to run inside the extent of their escape point, so they stay calls.
-/

namespace Trampoline

mutual

/-- A body with its returned calls turned into jumps. -/
def Expr.deferTails (escapes : List String) : Expr -> Expr
  | .seq mark items => .seq mark (deferLast escapes items)
  | .cond mark arms alt =>
    .cond mark (deferArms escapes arms)
      (match alt with
      | none => none
      | some e => some (e.deferTails escapes))
  | .short mark op operands => .short mark op (deferLast escapes operands)
  | .call mark func args kwargs =>
    if func.isNameIn escapes then .call mark func args kwargs
    else .jump mark func args kwargs none
  | e => e

/-- Expressions with the returned calls of the last turned into jumps. -/
def deferLast (escapes : List String) : List Expr -> List Expr
  | [] => []
  | [e] => [e.deferTails escapes]
  | e :: rest => e :: deferLast escapes rest

/-- Arms with the returned calls of their bodies turned into jumps. -/
def deferArms (escapes : List String) : List (Expr × Expr) -> List (Expr × Expr)
  | [] => []
  | (test, body) :: rest => (test, body.deferTails escapes) :: deferArms escapes rest

end

end Trampoline
