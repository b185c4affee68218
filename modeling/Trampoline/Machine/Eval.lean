import Trampoline.Machine.Natives
import Trampoline.Transform.Captures

/-!
# Evaluation

The evaluator of expressions and everything that it calls: applying callables, forcing promises,
running jumps. All of it is one recursion on fuel, which every call uses up by one; an answer that
was reached does not depend on how much fuel was given. A tail call leaves a jump record behind as
its value, and the loop of a trampoline takes one record after another.
-/

namespace Trampoline

/-- When an argument or a bound expression is evaluated in a lazy body. -/
inductive Policy where
  /-- When its value is needed. -/
  | delay
  /-- At once. -/
  | strict
  deriving DecidableEq, Repr

/-- The callable that a value must be. -/
def Value.callable {σ : Type} : Value -> Exec σ Callable
  | .func callable => pure callable
  | value => Exec.fail (.notCallable value.type)

/-- Fail if there are keyword arguments. -/
def noKwargs (func : String) : Kwargs -> Run Unit
  | [] => pure ()
  | (keyword, _) :: _ => Exec.fail (.unexpectedKeyword func keyword)

/-- How errors name a function. -/
def Signature.label (signature : Signature) : String :=
  signature.name.getD ("fn #" ++ toString signature.id)

/-- Put wrappers around a callable, the last of them first. -/
def wrap (base : Callable) : List Decorator -> Run Callable
  | [] => pure base
  | wrapper :: inside => do
    let inner ← wrap base inside
    match wrapper with
    | .memoize => do
      let cache ← Run.newCache
      pure (.memoized inner cache)
    | .trampolined => pure (.trampolined inner (Variant.of inner))
    | .looped => pure (.looped inner)
    | .callEc => pure (.escapePoint inner)
    | .continuations => pure (.contEnabled inner)
    | .lazy => pure (.lazyFn inner)

/-- The value of a function expression. A function from the source closes over its scope and gets
its wrappers; a continuation function becomes a continuation of the running body. -/
def makeClosure (function : Function) : Body Value := do
  let frame ← Body.frame
  match function.signature.kind with
  | .plain => do
    let ref ← Run.within Run.newClosure
    let callable ← Run.within (wrap (.closure ref function frame.env) function.signature.wrappers)
    pure (.func callable)
  | .continuation => do
    let extent ← Body.captureExtent
    let ref ← Run.within Run.newContinuation
    Run.within (Run.tell (.captured function.signature.id))
    let isLazy := function.signature.regions.lazy
    let base : Callable := .continuation ref function frame.env extent isLazy
    pure (.func (.trampolined base (if isLazy then .promiseAware else .strict)))

/-- What parameters are bound to by the positional arguments. -/
def bindPositional : (params : List String) -> List Value -> List (String × Option Value)
  | [], _ => []
  | param :: params, [] => (param, none) :: bindPositional params []
  | param :: params, value :: rest => (param, some value) :: bindPositional params rest

/-- Bind the first parameter of a name, if there is one. -/
def bindKeyword (keyword : String) (value : Value) :
    List (String × Option Value) -> Option (List (String × Option Value))
  | [] => none
  | (param, old) :: rest =>
    if param = keyword then some ((param, some value) :: rest)
    else (bindKeyword keyword value rest).map ((param, old) :: ·)

/-- Bind parameters to the keyword arguments, in place of positional ones. -/
def bindKeywords (func : String) :
    Kwargs -> List (String × Option Value) -> Run (List (String × Option Value))
  | [], bound => pure bound
  | (keyword, value) :: rest, bound =>
    match bindKeyword keyword value bound with
    | some bound => bindKeywords func rest bound
    | none => Exec.fail (.unexpectedKeyword func keyword)

/-- Put every parameter into a new cell. -/
def bindCells (func : String) : List (String × Option Value) -> Env -> Run Env
  | [], env => pure env
  | (param, some value) :: rest, env => do
    let ref ← Run.newCell value
    bindCells func rest ((param, ref) :: env)
  | (param, none) :: _, _ => Exec.fail (.missingArgument func param)

/-- The scope of the body of a function applied to arguments. -/
def parameterScope (signature : Signature) (env : Env) (args : List Value) (kwargs : Kwargs) :
    Run Env := do
  let func := signature.label
  if signature.params.length < args.length then
    Exec.fail (.arity func signature.params.length args.length)
  else do
    let bound ← bindKeywords func kwargs (bindPositional signature.params args)
    bindCells func bound env

/-- The values that a continuation gives its variables when it is resumed with `args`: as many
values, or one tuple of as many. Without variables the values are dropped. -/
def resumeValues (count : Nat) (args : List Value) : Except EvalError (List Value) :=
  if count = 0 then .ok []
  else if args.length = count then .ok args
  else
    match args with
    | [.tuple items] =>
      if items.length = count then .ok items
      else .error (.continuationArity count items.length)
    | _ => .error (.continuationArity count args.length)

/-- Put values into new cells. -/
def bindValues : List String -> List Value -> Env -> Run Env
  | param :: params, value :: values, env => do
    let ref ← Run.newCell value
    bindValues params values ((param, ref) :: env)
  | _, _, env => pure env

/-- Whether a keyword argument is the continuation. -/
def isCc (kwarg : String × Value) : Bool :=
  kwarg.1 == continuationParam

/-- Keyword arguments with a continuation in place of the one they have. -/
def replaceCc (kwargs : Kwargs) (cc : Value) : Kwargs :=
  kwargs.filter (fun kwarg => !isCc kwarg) ++ [(continuationParam, cc)]

/-- The part of a key that a keyword argument makes: a pair of its name and its key. -/
def kwargKey (name : String) (key : MemoKey) : MemoKey :=
  .tuple [.str name, key]

/-- The callable that a trampoline applies for a target: the trampoline around it would be one too
many. -/
def Callable.underTrampoline : Callable -> Callable
  | .trampolined inner _ => inner
  | callable => callable

mutual

/-- Evaluate an expression. -/
def eval (fuel : Nat) (e : Expr) : Body Value :=
  match fuel with
  | 0 => Exec.outOfFuel
  | fuel + 1 =>
    match e with
    | .lit _ value => pure (.ofLiteral value)
    | .var _ name => do
      let value ← Body.lookup name
      let isLazy ← Body.isLazy
      if isLazy then Run.within (force fuel value) else pure value
    | .fn _ signature body => makeClosure ⟨signature, body⟩
    | .call _ func args kwargs => do
      let func ← evalForced fuel func
      let callee ← func.callable
      let isLazy ← Body.isLazy
      let policy := if isLazy && callee.isLazy then Policy.delay else .strict
      let args ← operands fuel policy args
      let kwargs ← keywords fuel policy kwargs
      Run.within (apply fuel callee args kwargs)
    | .cond _ arms alt => evalArms fuel arms alt
    | .short _ op operands => evalShort fuel op operands (.bool (op = .and))
    | .seq _ items => Body.inBlock (evalItems fuel items .nil)
    | .bind _ name (.fn mark signature body) => do
      -- the function sees its own name
      let ref ← Run.within (Run.newCell .nil)
      Body.bindName name ref
      let value ← eval fuel (.fn mark signature body)
      Run.within (Run.setCell ref value)
      pure .nil
    | .bind _ name bindee => do
      let value ← operand fuel .delay bindee
      let ref ← Run.within (Run.newCell value)
      Body.bindName name ref
      pure .nil
    | .assign _ name bindee => do
      let value ← operand fuel .strict bindee
      Body.assign name value
      pure .nil
    | .loop _ test body => evalLoop fuel test body
    | .jump _ func args kwargs cc => do
      let func ← evalForced fuel func
      let target ← func.callable
      -- the trampoline decides what to force
      let args ← operands fuel .delay args
      let kwargs ← keywords fuel .delay kwargs
      let cc ← evalContinuation fuel cc
      Run.within (Run.newJump ⟨target, args, kwargs, cc⟩)
    | .capture .. => Exec.fail .captureOutsideBlock

/-- Evaluate an expression and force its value. -/
def evalForced (fuel : Nat) (e : Expr) : Body Value :=
  match fuel with
  | 0 => Exec.outOfFuel
  | fuel + 1 => do
    let value ← eval fuel e
    Run.within (force fuel value)

/-- Evaluate the continuation of a jump, if it has one. -/
def evalContinuation (fuel : Nat) (cc : Option Expr) : Body (Option Value) :=
  match fuel with
  | 0 => Exec.outOfFuel
  | fuel + 1 =>
    match cc with
    | none => pure none
    | some e => do
      let value ← evalForced fuel e
      pure (some value)

/-- Evaluate an argument or a bound expression. Only lazy bodies tell policies apart. -/
def operand (fuel : Nat) (policy : Policy) (e : Expr) : Body Value :=
  match fuel with
  | 0 => Exec.outOfFuel
  | fuel + 1 => do
    let isLazy ← Body.isLazy
    if !isLazy then eval fuel e
    else
      match policy with
      | .strict => evalForced fuel e
      | .delay => delayed fuel e

/-- Delay an expression. Names are passed on as they are, and what is an atom is evaluated. -/
def delayed (fuel : Nat) (e : Expr) : Body Value :=
  match fuel with
  | 0 => Exec.outOfFuel
  | fuel + 1 =>
    match e with
    | .var _ name => Body.lookup name
    | .lit mark value => eval fuel (.lit mark value)
    | .fn mark signature body => eval fuel (.fn mark signature body)
    | e => do
      let frame ← Body.frame
      Run.within (Run.newPromise (.expr e frame.env))

/-- Evaluate arguments from left to right. -/
def operands (fuel : Nat) (policy : Policy) (exprs : List Expr) : Body (List Value) :=
  match fuel with
  | 0 => Exec.outOfFuel
  | fuel + 1 =>
    match exprs with
    | [] => pure []
    | e :: rest => do
      let value ← operand fuel policy e
      let others ← operands fuel policy rest
      pure (value :: others)

/-- Evaluate keyword arguments from left to right. -/
def keywords (fuel : Nat) (policy : Policy) (kwargs : List (String × Expr)) : Body Kwargs :=
  match fuel with
  | 0 => Exec.outOfFuel
  | fuel + 1 =>
    match kwargs with
    | [] => pure []
    | (name, e) :: rest => do
      let value ← operand fuel policy e
      let others ← keywords fuel policy rest
      pure ((name, value) :: others)

/-- Evaluate the first arm whose test holds, else the alternative. -/
def evalArms (fuel : Nat) (arms : List (Expr × Expr)) (alt : Option Expr) : Body Value :=
  match fuel with
  | 0 => Exec.outOfFuel
  | fuel + 1 =>
    match arms with
    | [] =>
      match alt with
      | none => pure .nil
      | some e => eval fuel e
    | (test, body) :: rest => do
      let value ← evalForced fuel test
      if value.truthy then eval fuel body else evalArms fuel rest alt

/-- Evaluate operands until one decides; `last` is the value of the one before. -/
def evalShort (fuel : Nat) (op : Connective) (exprs : List Expr) (last : Value) : Body Value :=
  match fuel with
  | 0 => Exec.outOfFuel
  | fuel + 1 =>
    match exprs with
    | [] => pure last
    | e :: rest => do
      let value ← evalForced fuel e
      if value.truthy = (op = .or) then pure value else evalShort fuel op rest value

/-- Evaluate the items of a block; `last` is the value of the one before. -/
def evalItems (fuel : Nat) (exprs : List Expr) (last : Value) : Body Value :=
  match fuel with
  | 0 => Exec.outOfFuel
  | fuel + 1 =>
    match exprs with
    | [] => pure last
    | e :: rest => do
      let value ← eval fuel e
      evalItems fuel rest value

/-- Evaluate a body as long as a test holds. -/
def evalLoop (fuel : Nat) (test body : Expr) : Body Value := fun activation =>
  match fuel with
  | 0 => none
  | fuel + 1 =>
    match evalForced fuel test activation with
    | none => none
    | some (.error error, activation) => some (.error error, activation)
    | some (.ok value, activation) =>
      if value.truthy then
        match eval fuel body activation with
        | none => none
        | some (.error error, activation) => some (.error error, activation)
        | some (.ok _, activation) => evalLoop fuel test body activation
      else some (.ok .nil, activation)

/-- The value behind a promise, computed when it is first needed; other values are themselves. A
promise whose computation fails can be forced again. -/
def force (fuel : Nat) (value : Value) : Run Value :=
  match fuel with
  | 0 => Exec.outOfFuel
  | fuel + 1 =>
    match value with
    | .promise ref => fun m =>
      match m.promise ref with
      | .forced value => some (.ok value, m)
      | .forcing => some (.error .recursiveForce, m)
      | .pending thunk =>
        let computing : Run Value := do
          Run.setPromise ref .forcing
          Run.tell .forcing
          let value ← runThunk fuel thunk
          force fuel value
        match computing m with
        | none => none
        | some (.ok value, m) => (do Run.setPromise ref (.forced value); pure value : Run Value) m
        | some (.error error, m) =>
          (do Run.setPromise ref (.pending thunk); Exec.fail error : Run Value) m
    | value => pure value

/-- Compute what a promise delays. -/
def runThunk (fuel : Nat) (thunk : Thunk) : Run Value :=
  match fuel with
  | 0 => Exec.outOfFuel
  | fuel + 1 =>
    match thunk with
    | .expr e env => Body.run (eval fuel e) ⟨env, true, none⟩
    | .global name => do
      let value ← Exec.read fun m : Machine => m.global? name
      match value with
      | none => Exec.fail (.unbound name)
      | some (.func callable) => call fuel callable [] []
      | some value => force fuel value

/-- Force a value and all that it holds, through lists, whose items are replaced at the end, and
tuples, which are made anew. -/
def forceDeep (fuel : Nat) (value : Value) : Run Value :=
  match fuel with
  | 0 => Exec.outOfFuel
  | fuel + 1 => do
    let value ← force fuel value
    match value with
    | .list ref => do
      let items ← Exec.read fun m : Machine => m.items ref
      let items ← forceAll fuel items.toList
      Run.setItems ref items
      pure (.list ref)
    | .tuple items => do
      let items ← forceAll fuel items
      pure (.tuple items)
    | value => pure value

/-- Force values and all that they hold, from left to right. -/
def forceAll (fuel : Nat) (values : List Value) : Run (List Value) :=
  match fuel with
  | 0 => Exec.outOfFuel
  | fuel + 1 =>
    match values with
    | [] => pure []
    | value :: rest => do
      let value ← forceDeep fuel value
      let rest ← forceAll fuel rest
      pure (value :: rest)

/-- Apply a callable once. The result may be a jump. -/
def apply (fuel : Nat) (callable : Callable) (args : List Value) (kwargs : Kwargs) : Run Value :=
  match fuel with
  | 0 => Exec.outOfFuel
  | fuel + 1 =>
    match callable with
    | .closure _ function env => do
      let scope ← parameterScope function.signature env args kwargs
      Body.run (eval fuel function.body) ⟨scope, function.signature.isLazy, none⟩
    | .native op => do
      noKwargs op.name kwargs
      match op.arity with
      | none => applyNative fuel op args
      | some expected =>
        if args.length = expected then applyNative fuel op args
        else Exec.fail (.arity op.name expected args.length)
    | .trampolined inner variant => do
      let first ← apply fuel inner args kwargs
      trampoline fuel variant first
    | .memoized inner cache => do
      let (args, argKeys) ← forceKeys fuel args
      let (kwargs, kwargKeys) ← forceKwargKeys fuel kwargs
      let key := argKeys ++ kwargKeys
      let hit ← Run.cached? cache key
      match hit with
      | some value => pure value
      | none => do
        let value ← call fuel inner args kwargs
        Run.remember cache key value
        pure value
    | .looped inner => do
      let ref ← Run.newHandle
      let first ← apply fuel inner (.func (.loopHandle ref inner) :: args) kwargs
      trampoline fuel (Variant.of inner) first
    | .loopHandle ref inner =>
      Run.newJump ⟨inner, .func (.loopHandle ref inner) :: args, kwargs, none⟩
    | .escapePoint inner => do
      let tag ← Run.enterPoint
      fun m =>
        match apply fuel inner (.func (.escape tag) :: args) kwargs m with
        | none => none
        | some (.ok value, m) => some (.ok value, Run.leavePoint tag m)
        | some (.error (.escape target value), m) =>
          if target = tag then
            (do Run.tell (.escaped tag); pure value : Run Value) (Run.leavePoint tag m)
          else some (.error (.escape target value), Run.leavePoint tag m)
        | some (.error error, m) => some (.error error, Run.leavePoint tag m)
    | .escape tag => do
      let running ← Run.pointRunning tag
      if !running then Exec.fail .escapeOutsideExtent
      else do
        noKwargs "escape continuation" kwargs
        Exec.fail (.escape tag (.pack args))
    | .contEnabled inner =>
      if kwargs.any isCc then apply fuel inner args kwargs
      else do
        let identity ← Run.newIdentity
        apply fuel inner args (kwargs ++ [(continuationParam, .func identity)])
    | .lazyFn inner => apply fuel inner args kwargs
    | .continuation _ function env extent isLazy => do
      let valid ← Run.extentValid extent
      if !valid then Exec.fail .continuationInvalidated
      else do
        noKwargs "continuation" kwargs
        let params := function.signature.params
        match resumeValues params.length args with
        | .error error => Exec.fail error
        | .ok values => do
          let scope ← bindValues params values env
          Body.run (eval fuel function.body) ⟨scope, isLazy, none⟩
    | .identity _ => do
      noKwargs "identity" kwargs
      pure (.pack args)

/-- Apply a callable and run the jump that may come of it. -/
def call (fuel : Nat) (callable : Callable) (args : List Value) (kwargs : Kwargs) : Run Value :=
  match fuel with
  | 0 => Exec.outOfFuel
  | fuel + 1 => do
    let value ← apply fuel callable args kwargs
    match value with
    | .jump ref => trampoline fuel (Variant.of callable) (.jump ref)
    | value => pure value

/-- Run jumps until a value comes out that is none. -/
def trampoline (fuel : Nat) (variant : Variant) (first : Value) : Run Value :=
  match fuel with
  | 0 => Exec.outOfFuel
  | fuel + 1 => Run.guarded (runJumps fuel variant first)

/-- The loop of a trampoline. -/
def runJumps (fuel : Nat) (variant : Variant) (current : Value) : Run Value := fun m =>
  match fuel with
  | 0 => none
  | fuel + 1 =>
    match current with
    | .jump ref =>
      match takeStep fuel variant ref m with
      | none => none
      | some (.error error, m) => some (.error error, m)
      | some (.ok next, m) => runJumps fuel variant next m
    | value => some (.ok value, m)

/-- Take one jump. Its continuation goes along as `cc` if the target takes it, is abandoned if the
target is a continuation itself, and else gets the result of the target by a jump of its own. -/
def takeStep (fuel : Nat) (variant : Variant) (ref : Nat) : Run Value :=
  match fuel with
  | 0 => Exec.outOfFuel
  | fuel + 1 => do
    let jump ← Run.takeJump ref
    let callee := jump.target.underTrampoline
    let (args, kwargs) ← forceForStrict fuel variant callee jump.args jump.kwargs
    Run.tell (.jumped callee)
    match jump.cc with
    | none => apply fuel callee args kwargs
    | some cc =>
      if callee.acceptsCc then apply fuel callee args (replaceCc kwargs cc)
      else if callee.isContinuation then apply fuel callee args kwargs
      else do
        let result ← call fuel jump.target args kwargs
        let next ← cc.callable
        Run.newJump ⟨next, [result], [], none⟩

/-- The arguments of a jump: a promise-aware trampoline forces them for strict callables. -/
def forceForStrict (fuel : Nat) (variant : Variant) (callee : Callable) (args : List Value)
    (kwargs : Kwargs) : Run (List Value × Kwargs) :=
  match fuel with
  | 0 => Exec.outOfFuel
  | fuel + 1 =>
    if variant = .promiseAware && !callee.isLazy then do
      let args ← forceArgs fuel args
      let kwargs ← forceKwargs fuel kwargs
      pure (args, kwargs)
    else pure (args, kwargs)

/-- Force arguments from left to right. -/
def forceArgs (fuel : Nat) (args : List Value) : Run (List Value) :=
  match fuel with
  | 0 => Exec.outOfFuel
  | fuel + 1 =>
    match args with
    | [] => pure []
    | value :: rest => do
      let value ← force fuel value
      let rest ← forceArgs fuel rest
      pure (value :: rest)

/-- Force keyword arguments from left to right. -/
def forceKwargs (fuel : Nat) (kwargs : Kwargs) : Run Kwargs :=
  match fuel with
  | 0 => Exec.outOfFuel
  | fuel + 1 =>
    match kwargs with
    | [] => pure []
    | (name, value) :: rest => do
      let value ← force fuel value
      let rest ← forceKwargs fuel rest
      pure ((name, value) :: rest)

/-- Force arguments, each together with its key before the next is looked at. -/
def forceKeys (fuel : Nat) (args : List Value) : Run (List Value × List MemoKey) :=
  match fuel with
  | 0 => Exec.outOfFuel
  | fuel + 1 =>
    match args with
    | [] => pure ([], [])
    | value :: rest => do
      let value ← force fuel value
      match value.memoKey? with
      | none => Exec.fail (.unhashable value.type)
      | some key => do
        let (values, keys) ← forceKeys fuel rest
        pure (value :: values, key :: keys)

/-- Force keyword arguments, each together with its key. -/
def forceKwargKeys (fuel : Nat) (kwargs : Kwargs) : Run (Kwargs × List MemoKey) :=
  match fuel with
  | 0 => Exec.outOfFuel
  | fuel + 1 =>
    match kwargs with
    | [] => pure ([], [])
    | (name, value) :: rest => do
      let value ← force fuel value
      match value.memoKey? with
      | none => Exec.fail (.unhashable value.type)
      | some key => do
        let (values, keys) ← forceKwargKeys fuel rest
        pure ((name, value) :: values, kwargKey name key :: keys)

/-- Force values with all that they hold, and show each. -/
def shownDeep (fuel : Nat) (values : List Value) : Run (List String) :=
  match fuel with
  | 0 => Exec.outOfFuel
  | fuel + 1 =>
    match values with
    | [] => pure []
    | value :: rest => do
      let value ← forceDeep fuel value
      let shown ← Exec.read fun m : Machine => m.display value
      let others ← shownDeep fuel rest
      pure (shown :: others)

/-- Apply a native to as many arguments as it takes. -/
def applyNative (fuel : Nat) (op : Native) (args : List Value) : Run Value :=
  match fuel with
  | 0 => Exec.outOfFuel
  | fuel + 1 =>
    match op with
    | .print => do
      let parts ← shownDeep fuel args
      Run.write (" ".intercalate parts ++ "\n")
      pure .nil
    | .str => do
      let parts ← shownDeep fuel args
      pure (.str (String.join parts))
    | .raise => do
      let parts ← shownDeep fuel args
      Exec.fail (.raised (String.join parts))
    | .assertEq => do
      let (left, right) := Native.two args
      let left ← forceDeep fuel left
      let right ← forceDeep fuel right
      let equal ← Exec.read fun m : Machine => m.equal left right
      if equal then pure .nil
      else do
        let shown ← Exec.read fun m : Machine => (m.repr left, m.repr right)
        Exec.fail (.assertionFailed shown.1 shown.2)
    | .force => force fuel (Native.one args)
    | .forceDeep => forceDeep fuel (Native.one args)
    | .attempt => do
      let (thunk, handler) := Native.two args
      let thunk ← thunk.callable
      let handler ← handler.callable
      fun m =>
        match Run.guarded (call fuel thunk [] []) m with
        | none => none
        | some (.ok value, m) => some (.ok value, m)
        | some (.error error, m) =>
          if error.isEscape || m.passed error then some (.error error, m)
          else
            (do Run.tell (.caught error.message)
                call fuel handler [.str error.message] [] : Run Value) m
    | op =>
      match op.compute? args with
      | some run => run
      | none => pure .nil

end

end Trampoline
