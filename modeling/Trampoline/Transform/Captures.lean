import Trampoline.Tail.Position
import Trampoline.Transform.Progress

/-!
# Continuation-passing bodies

Inside `continuations` blocks a function takes a continuation in its parameter `cc`. Its body is
cut at each capture: what follows becomes a continuation function, and the captured call becomes a
jump that hands this function on. Every return of the last piece goes to `cc` instead.
-/

namespace Trampoline

/-- The name of the parameter that holds the continuation of a function. -/
def continuationParam : String := "cc"

mutual

/-- Whether a capture occurs in an expression, outside the functions in it. -/
def Expr.hasCapture : Expr -> Bool
  | .lit .. | .var .. | .fn .. => false
  | .call _ func args kwargs => func.hasCapture || anyCapture args || anyCaptureInKwargs kwargs
  | .cond _ arms alt =>
    anyCaptureInArms arms ||
      match alt with
      | none => false
      | some e => e.hasCapture
  | .short _ _ operands => anyCapture operands
  | .seq _ items => anyCapture items
  | .bind _ _ bindee => bindee.hasCapture
  | .assign _ _ bindee => bindee.hasCapture
  | .loop _ test body => test.hasCapture || body.hasCapture
  | .jump _ func args kwargs cc =>
    func.hasCapture || anyCapture args || anyCaptureInKwargs kwargs ||
      match cc with
      | none => false
      | some e => e.hasCapture
  | .capture .. => true

/-- Whether a capture occurs in one of several expressions. -/
def anyCapture : List Expr -> Bool
  | [] => false
  | e :: rest => e.hasCapture || anyCapture rest

/-- Whether a capture occurs in keyword arguments. -/
def anyCaptureInKwargs : List (String × Expr) -> Bool
  | [] => false
  | (_, e) :: rest => e.hasCapture || anyCaptureInKwargs rest

/-- Whether a capture occurs in the arms of a conditional. -/
def anyCaptureInArms : List (Expr × Expr) -> Bool
  | [] => false
  | (test, body) :: rest => test.hasCapture || body.hasCapture || anyCaptureInArms rest

end

namespace Transform

/-- Fail if a capture occurs in an expression. -/
def forbidCapture (owner : Owner) (fault : CaptureFault) (e : Expr) : Transform Unit :=
  if e.hasCapture then fail (.capturePlacement owner fault) else pure ()

/-- A reference to the continuation of the function around it. -/
def continuationVar (span : Span) : Transform Expr := do
  let mark ← newMark span
  pure (.var mark continuationParam)

/-- The jump that hands a value to the continuation. -/
def handOver (mark : Mark) (value : Expr) : Transform Expr := do
  let cc ← continuationVar mark.span
  pure (.jump mark cc [value] [] none)

/-- The jump at the end of an empty block, which hands over nil. -/
def handOverNil (span : Span) : Transform Expr := do
  let valueMark ← newMark span
  let cc ← continuationVar span
  let mark ← newMark span
  pure (.jump mark cc [.lit valueMark .nil] [] none)

/-- An expression under a new mark, so that another can take its place. -/
def relocate (e : Expr) : Transform Expr := do
  let mark ← newMark e.span
  pure (e.withMark mark)

mutual

/-- A body whose returns go to the continuation: calls and jumps take it along, other values are
handed to it. -/
def passTails (escapes : List String) : Expr -> Transform Expr
  | .seq mark [] => do
    let jump ← handOverNil mark.span
    pure (.seq mark [jump])
  | .seq mark items => do
    let items ← passLast escapes items
    pure (.seq mark items)
  | .cond mark arms alt => do
    let arms ← passArms escapes arms
    match alt with
    | none => pure (.cond mark arms none)
    | some e => do
      let e ← passTails escapes e
      pure (.cond mark arms (some e))
  | .short mark op [] => do
    let value ← relocate (.short mark op [])
    handOver mark value
  | .short mark op operands => do
    let operands ← passLast escapes operands
    pure (.short mark op operands)
  | .call mark func args kwargs =>
    if func.isNameIn escapes then pure (.call mark func args kwargs)
    else do
      let cc ← continuationVar mark.span
      pure (.jump mark func args kwargs (some cc))
  | .jump mark func args kwargs none => do
    let cc ← continuationVar mark.span
    pure (.jump mark func args kwargs (some cc))
  | .jump mark func args kwargs (some cc) => pure (.jump mark func args kwargs (some cc))
  | e => do
    let value ← relocate e
    handOver e.mark value

/-- Expressions of which the returns of the last go to the continuation. -/
def passLast (escapes : List String) : List Expr -> Transform (List Expr)
  | [] => pure []
  | [e] => do
    let e ← passTails escapes e
    pure [e]
  | e :: rest => do
    let rest ← passLast escapes rest
    pure (e :: rest)

/-- Arms whose bodies return to the continuation. -/
def passArms (escapes : List String) : List (Expr × Expr) -> Transform (List (Expr × Expr))
  | [] => pure []
  | (test, body) :: rest => do
    let body ← passTails escapes body
    let rest ← passArms escapes rest
    pure ((test, body) :: rest)

end

/-- The continuation function over the items after a capture. -/
def continuationSignature (regions : Regions) (id : Nat) (binders : List String) : Signature :=
  ⟨id, none, binders, [], regions, .continuation, []⟩

/-- The items of a block with the span `span`, cut at the first capture among them. -/
def cutItems (escapes : List String) (owner : Owner) (regions : Regions) (span : Span) :
    List Expr -> Transform (List Expr)
  | [] => do
    let jump ← handOverNil span
    pure [jump]
  | .capture mark binders captured :: rest => do
    forbidCapture owner .nested captured
    match captured with
    | .call _ func args kwargs => do
      let bodyMark ← newMark mark.span
      let items ← cutItems escapes owner regions mark.span rest
      record (.capture owner binders)
      let id ← newFunction
      let cont ← newMark mark.span
      let jump ← newMark mark.span
      let body : Expr := .seq bodyMark items
      let cc : Expr := .fn cont (continuationSignature regions id binders) body
      pure [.jump jump func args kwargs (some cc)]
    | _ => fail (.capturePlacement owner .ofNoCall)
  | [item] => do
    forbidCapture owner .notAStatement item
    let item ← passTails escapes item
    pure [item]
  | item :: rest => do
    forbidCapture owner .notAStatement item
    let rest ← cutItems escapes owner regions span rest
    pure (item :: rest)

/-- The body of a function that takes a continuation. -/
def cutBody (escapes : List String) (owner : Owner) (regions : Regions) (body : Expr) :
    Transform Expr :=
  match body with
  | .seq mark items => do
    let items ← cutItems escapes owner regions mark.span items
    pure (.seq mark items)
  | body => do
    let item ← relocate body
    let items ← cutItems escapes owner regions body.span [item]
    pure (.seq body.mark items)

end Transform

end Trampoline
