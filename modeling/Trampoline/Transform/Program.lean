import Trampoline.Tail.Deferral
import Trampoline.Transform.Captures

/-!
# The transformed program

Every function body is changed as the blocks around it ask: it takes a continuation inside
`continuations`, and its tail calls become jumps inside `tco`. Then the wrappers of every function
are resolved and ordered by a decorator table.
-/

namespace Trampoline

/-- The parameters of a function that takes a continuation. -/
def withContinuationParam (params : List String) : List String :=
  if params.contains continuationParam then params else params ++ [continuationParam]

namespace Transform

/-- Change the body of a function as its blocks ask. -/
def functionBody (escapes : List String) (function : Function) : Transform Function :=
  let signature := function.signature
  let owner := signature.owner
  if signature.regions.cont then do
    record (.continuationPassing owner)
    let body ← cutBody escapes owner signature.regions function.body
    pure ⟨{ signature with params := withContinuationParam signature.params }, body⟩
  else do
    forbidCapture owner .outsideContinuations function.body
    if signature.regions.tco then do
      record (.tailCalls owner)
      pure ⟨signature, function.body.deferTails escapes⟩
    else pure function

/-- The wrappers that the blocks around a function imply. Continuation functions get theirs when
they are captured. -/
def impliedWrappers (signature : Signature) : List Decorator :=
  match signature.kind with
  | .continuation => []
  | .plain =>
    (if signature.regions.tco then [.trampolined] else []) ++
      (if signature.regions.cont then [.continuations] else []) ++
      (if signature.regions.lazy then [.lazy] else [])

/-- The wrappers of a function, outermost first: those written and those implied. -/
def resolveWrappers (table : DecoratorTable) (signature : Signature) :
    Except DecoratorError (List Decorator) := do
  let written ← signature.decorators.mapM fun (name, _) => table.lookup name
  table.order (written ++ impliedWrappers signature)

/-- Give a function its wrappers. -/
def functionWrappers (table : DecoratorTable) (function : Function) : Transform Function :=
  match resolveWrappers table function.signature with
  | .error error => fail (.decorator error)
  | .ok wrappers => do
    if !wrappers.isEmpty then record (.decorated function.signature.name wrappers)
    pure ⟨{ function.signature with wrappers := wrappers }, function.body⟩

/-- Fail if a toplevel form captures. -/
def checkTop : List Toplevel -> Transform Unit
  | [] => pure ()
  | top :: rest => do
    forbidCapture .toplevel .atToplevel top.expr
    checkTop rest

/-- Transform toplevel forms. -/
def toplevels (table : DecoratorTable) (escapes : List String) (top : List Toplevel) :
    Transform (List Toplevel) := do
  checkTop top
  let top ← mapFunctionsOfTop (functionBody escapes) top
  mapFunctionsOfTop (functionWrappers table) top

end Transform

/-- A transformed program with the log of its transformation, in order. -/
structure Transformed where
  program : Program
  log : List TransformEvent
  deriving Inhabited

/-- Transform a program under a decorator table, with the calls to the escape names left alone. -/
def Program.transform (table : DecoratorTable) (escapes : List String) (program : Program) :
    Except TransformError Transformed :=
  ((Transform.toplevels table escapes program.top).run ⟨program.counters, []⟩).map
    fun (top, progress) => ⟨⟨top, progress.counters⟩, progress.log.reverse⟩

end Trampoline
