import Trampoline.Syntax.Expr

/-!
# Transforming a program

What the steps of the transformation share: the numbers that are still free, the log of what was
done, and the errors.
-/

namespace Trampoline

/-- The function that a message is about. -/
inductive Owner where
  | toplevel
  | named (name : String)
  | anonymous (id : Nat)
  deriving DecidableEq, Repr, Inhabited

/-- How messages name a function. -/
def Owner.render : Owner -> String
  | toplevel => "toplevel"
  | named name => "`" ++ name ++ "`"
  | anonymous id => "anonymous function #" ++ toString id

/-- The owner that a function is. -/
def Signature.owner (signature : Signature) : Owner :=
  match signature.name with
  | some name => .named name
  | none => .anonymous signature.id

/-- Why a capture cannot stand where it stands. -/
inductive CaptureFault where
  | atToplevel
  | outsideContinuations
  | notAStatement
  | nested
  | ofNoCall
  deriving DecidableEq, Repr, Inhabited

/-- What a message says about a capture. -/
def CaptureFault.reason : CaptureFault -> String
  | atToplevel => "only function bodies can capture"
  | outsideContinuations => "not inside a `continuations` block"
  | notAStatement => "only allowed as a statement of the function body"
  | nested => "captures cannot nest"
  | ofNoCall => "only calls can be captured"

/-- Why a program cannot be transformed. -/
inductive TransformError where
  | decorator (error : DecoratorError)
  | capturePlacement (owner : Owner) (fault : CaptureFault)
  deriving DecidableEq, Repr

/-- The text of an error. -/
def TransformError.message : TransformError -> String
  | decorator error => error.message
  | capturePlacement owner fault =>
    "misplaced `capture` in " ++ owner.render ++ ": " ++ fault.reason

/-- What the transformation did to a function. -/
inductive TransformEvent where
  | continuationPassing (owner : Owner)
  | tailCalls (owner : Owner)
  | capture (owner : Owner) (binders : List String)
  | decorated (name : Option String) (wrappers : List Decorator)
  deriving DecidableEq, Repr

/-- The text of a log entry. -/
def TransformEvent.message : TransformEvent -> String
  | continuationPassing owner => "continuation-passing rewrite of " ++ owner.render
  | tailCalls owner => "tail-call rewrite of " ++ owner.render
  | capture owner binders =>
    "capture in " ++ owner.render ++ " binds (" ++ " ".intercalate binders ++ ")"
  | decorated name wrappers =>
    name.getD "fn" ++ ": decorated with (" ++ decoratorNames wrappers ++ ")"

/-- The state of a transformation: free numbers, and the log, last entry first. -/
structure Progress where
  counters : Counters
  log : List TransformEvent

/-- A step of the transformation. -/
abbrev Transform := StateT Progress (Except TransformError)

namespace Transform

/-- Fail. -/
def fail {α : Type} (error : TransformError) : Transform α := fun _ => .error error

/-- A mark for a new expression, which stands for something at `span`. -/
def newMark (span : Span) : Transform Mark := fun progress =>
  let counters := progress.counters
  .ok (⟨counters.exprs, span⟩,
    { progress with counters := { counters with exprs := counters.exprs + 1 } })

/-- The number of a new function. -/
def newFunction : Transform Nat := fun progress =>
  let counters := progress.counters
  .ok (counters.functions,
    { progress with counters := { counters with functions := counters.functions + 1 } })

/-- Add an entry to the log. -/
def record (event : TransformEvent) : Transform Unit := fun progress =>
  .ok ((), { progress with log := event :: progress.log })

end Transform

mutual

/-- Apply a step to every function in an expression: to each after those inside it, from left to
right, which is the order of their numbers. -/
def Expr.mapFunctions (step : Function -> Transform Function) : Expr -> Transform Expr
  | .lit mark value => pure (.lit mark value)
  | .var mark name => pure (.var mark name)
  | .fn mark signature body => do
    let body ← body.mapFunctions step
    let function ← step ⟨signature, body⟩
    pure (.fn mark function.signature function.body)
  | .call mark func args kwargs => do
    let func ← func.mapFunctions step
    let args ← mapFunctionsOfAll step args
    let kwargs ← mapFunctionsOfKwargs step kwargs
    pure (.call mark func args kwargs)
  | .cond mark arms alt => do
    let arms ← mapFunctionsOfArms step arms
    match alt with
    | none => pure (.cond mark arms none)
    | some e => do
      let e ← e.mapFunctions step
      pure (.cond mark arms (some e))
  | .short mark op operands => do
    let operands ← mapFunctionsOfAll step operands
    pure (.short mark op operands)
  | .seq mark items => do
    let items ← mapFunctionsOfAll step items
    pure (.seq mark items)
  | .bind mark name bindee => do
    let bindee ← bindee.mapFunctions step
    pure (.bind mark name bindee)
  | .assign mark name bindee => do
    let bindee ← bindee.mapFunctions step
    pure (.assign mark name bindee)
  | .loop mark test body => do
    let test ← test.mapFunctions step
    let body ← body.mapFunctions step
    pure (.loop mark test body)
  | .jump mark func args kwargs cc => do
    let func ← func.mapFunctions step
    let args ← mapFunctionsOfAll step args
    let kwargs ← mapFunctionsOfKwargs step kwargs
    match cc with
    | none => pure (.jump mark func args kwargs none)
    | some e => do
      let e ← e.mapFunctions step
      pure (.jump mark func args kwargs (some e))
  | .capture mark binders e => do
    let e ← e.mapFunctions step
    pure (.capture mark binders e)

/-- Apply a step to every function in several expressions. -/
def mapFunctionsOfAll (step : Function -> Transform Function) :
    List Expr -> Transform (List Expr)
  | [] => pure []
  | e :: rest => do
    let e ← e.mapFunctions step
    let rest ← mapFunctionsOfAll step rest
    pure (e :: rest)

/-- Apply a step to every function in keyword arguments. -/
def mapFunctionsOfKwargs (step : Function -> Transform Function) :
    List (String × Expr) -> Transform (List (String × Expr))
  | [] => pure []
  | (name, e) :: rest => do
    let e ← e.mapFunctions step
    let rest ← mapFunctionsOfKwargs step rest
    pure ((name, e) :: rest)

/-- Apply a step to every function in the arms of a conditional. -/
def mapFunctionsOfArms (step : Function -> Transform Function) :
    List (Expr × Expr) -> Transform (List (Expr × Expr))
  | [] => pure []
  | (test, body) :: rest => do
    let test ← test.mapFunctions step
    let body ← body.mapFunctions step
    let rest ← mapFunctionsOfArms step rest
    pure ((test, body) :: rest)

end

/-- Apply a step to every function in toplevel forms. -/
def mapFunctionsOfTop (step : Function -> Transform Function) :
    List Toplevel -> Transform (List Toplevel)
  | [] => pure []
  | .define name bindee :: rest => do
    let bindee ← bindee.mapFunctions step
    let rest ← mapFunctionsOfTop step rest
    pure (.define name bindee :: rest)
  | .exec e :: rest => do
    let e ← e.mapFunctions step
    let rest ← mapFunctionsOfTop step rest
    pure (.exec e :: rest)

end Trampoline
