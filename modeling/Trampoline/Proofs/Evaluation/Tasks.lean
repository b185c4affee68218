import Trampoline.Proofs.Evaluation.Growth

/-!
# Evaluation as tasks

What the evaluator can be asked for, as data, and the plan by which each task is done: steps of its
own on the machine, and other tasks, which get a unit of fuel less. What a plan asks for on the way
says which evaluations are under way at the same time.
-/

namespace Trampoline

open Exec

/-- What the evaluator can be asked for. Tasks of a running body come with its frame. -/
inductive Task where
  | eval (e : Expr) (frame : Frame)
  | evalForced (e : Expr) (frame : Frame)
  | evalContinuation (cc : Option Expr) (frame : Frame)
  | operand (policy : Policy) (e : Expr) (frame : Frame)
  | delayed (e : Expr) (frame : Frame)
  | operands (policy : Policy) (es : List Expr) (frame : Frame)
  | keywords (policy : Policy) (es : List (String × Expr)) (frame : Frame)
  | evalArms (arms : List (Expr × Expr)) (alt : Option Expr) (frame : Frame)
  | evalShort (op : Connective) (es : List Expr) (last : Value) (frame : Frame)
  | evalItems (es : List Expr) (last : Value) (frame : Frame)
  | evalLoop (test body : Expr) (frame : Frame)
  | force (value : Value)
  | runThunk (thunk : Thunk)
  | forceDeep (value : Value)
  | forceAll (values : List Value)
  | apply (callable : Callable) (args : List Value) (kwargs : Kwargs)
  | call (callable : Callable) (args : List Value) (kwargs : Kwargs)
  | trampoline (variant : Variant) (first : Value)
  | runJumps (variant : Variant) (current : Value)
  | takeStep (variant : Variant) (ref : Nat)
  | forceForStrict (variant : Variant) (callee : Callable) (args : List Value) (kwargs : Kwargs)
  | forceArgs (args : List Value)
  | forceKwargs (kwargs : Kwargs)
  | forceKeys (args : List Value)
  | forceKwargKeys (kwargs : Kwargs)
  | shownDeep (values : List Value)
  | applyNative (op : Native) (args : List Value)

namespace Task

/-- What a task comes to. Tasks of a body come to its frame as well. -/
@[reducible]
def Answer : Task -> Type
  | eval .. | evalForced .. | operand .. | delayed .. | evalArms .. | evalShort .. | evalItems ..
  | evalLoop .. => Value × Frame
  | evalContinuation .. => Option Value × Frame
  | operands .. => List Value × Frame
  | keywords .. => Kwargs × Frame
  | force _ | runThunk _ | forceDeep _ | apply .. | call .. | trampoline .. | runJumps ..
  | takeStep .. | applyNative .. => Value
  | forceAll _ | forceArgs _ => List Value
  | forceForStrict .. => List Value × Kwargs
  | forceKwargs _ => Kwargs
  | forceKeys _ => List Value × List MemoKey
  | forceKwargKeys _ => Kwargs × List MemoKey
  | shownDeep _ => List String

/-- Do a task with an amount of fuel. -/
def run (n : Nat) : (task : Task) -> Run task.Answer
  | eval e frame => expose (Trampoline.eval n e) frame
  | evalForced e frame => expose (Trampoline.evalForced n e) frame
  | evalContinuation cc frame => expose (Trampoline.evalContinuation n cc) frame
  | operand policy e frame => expose (Trampoline.operand n policy e) frame
  | delayed e frame => expose (Trampoline.delayed n e) frame
  | operands policy es frame => expose (Trampoline.operands n policy es) frame
  | keywords policy es frame => expose (Trampoline.keywords n policy es) frame
  | evalArms arms alt frame => expose (Trampoline.evalArms n arms alt) frame
  | evalShort op es last frame => expose (Trampoline.evalShort n op es last) frame
  | evalItems es last frame => expose (Trampoline.evalItems n es last) frame
  | evalLoop test body frame => expose (Trampoline.evalLoop n test body) frame
  | force value => Trampoline.force n value
  | runThunk thunk => Trampoline.runThunk n thunk
  | forceDeep value => Trampoline.forceDeep n value
  | forceAll values => Trampoline.forceAll n values
  | apply callable args kwargs => Trampoline.apply n callable args kwargs
  | call callable args kwargs => Trampoline.call n callable args kwargs
  | trampoline variant first => Trampoline.trampoline n variant first
  | runJumps variant current => Trampoline.runJumps n variant current
  | takeStep variant ref => Trampoline.takeStep n variant ref
  | forceForStrict variant callee args kwargs =>
    Trampoline.forceForStrict n variant callee args kwargs
  | forceArgs args => Trampoline.forceArgs n args
  | forceKwargs kwargs => Trampoline.forceKwargs n kwargs
  | forceKeys args => Trampoline.forceKeys n args
  | forceKwargKeys kwargs => Trampoline.forceKwargKeys n kwargs
  | shownDeep values => Trampoline.shownDeep n values
  | applyNative op args => Trampoline.applyNative n op args

end Task

/-! ## Plans -/

/-- A computation that leaves open how the tasks in it are done. -/
inductive Plan : Type -> Type 1 where
  | done {α : Type} (value : α) : Plan α
  /-- Do something to the machine, and go on if it succeeds. -/
  | step {α β : Type} (run : Run β) (next : β -> Plan α) : Plan α
  /-- Have a task done, and go on if it succeeds. -/
  | ask {α : Type} (task : Task) (next : task.Answer -> Plan α) : Plan α
  /-- Go on after a guarded part if it succeeds. -/
  | guarded {α β : Type} (inner : Plan β) (next : β -> Plan α) : Plan α
  /-- Go on after a part whether it succeeds or fails. -/
  | settle {α β : Type} (inner : Plan β) (next : Except EvalError β -> Plan α) : Plan α

namespace Plan

variable {α β : Type}

/-- Go on with what a plan comes to. -/
protected def bind {α β : Type} (first : Plan α) (next : α -> Plan β) : Plan β :=
  match first with
  | done value => next value
  | step run rest => step run fun value => (rest value).bind next
  | ask task rest => ask task fun answer => (rest answer).bind next
  | guarded inner rest => guarded inner fun value => (rest value).bind next
  | settle inner rest => settle inner fun result => (rest result).bind next

instance : Monad Plan where
  pure := done
  bind := Plan.bind

/-- A step on the machine. -/
def lift (run : Run α) : Plan α := step run done

/-- A step of a running body. -/
def body (body : Body α) (frame : Frame) : Plan (α × Frame) := lift (expose body frame)

/-- A task. -/
@[reducible]
def sub (task : Task) : Plan task.Answer := ask task done

/-- Follow a plan, with the tasks done as given. -/
def run {α : Type} (perform : (task : Task) -> Run task.Answer) : Plan α -> Run α
  | done value => pure value
  | step run next => run >>= fun value => (next value).run perform
  | ask task next => perform task >>= fun answer => (next answer).run perform
  | guarded inner next => (inner.run perform).guarded >>= fun value => (next value).run perform
  | settle inner next => Exec.settle (inner.run perform) fun result => (next result).run perform

@[simp] theorem run_bind (perform : (task : Task) -> Run task.Answer) (first : Plan α)
    (next : α -> Plan β) :
    (first >>= next).run perform = first.run perform >>= fun value => (next value).run perform := by
  show (first.bind next).run perform = _
  induction first with
  | done value => rfl
  | step act rest ih =>
    simp only [Plan.bind, run, bind_assoc, ih]
  | ask task rest ih =>
    simp only [Plan.bind, run, bind_assoc, ih]
  | guarded inner rest _ ih =>
    simp only [Plan.bind, run, bind_assoc, ih]
  | settle inner rest _ ih =>
    simp only [Plan.bind, run, ih]
    funext m
    show _ = Exec.bind _ _ m
    simp only [Exec.settle, Exec.bind]
    rcases inner.run perform m with _ | ⟨result, middle⟩
    · rfl
    · rfl

end Plan

namespace Task

open Plan

/-- How a task is done. -/
def plan : (task : Task) -> Plan task.Answer
  | eval e frame =>
    match e with
    | .lit _ value => pure (.ofLiteral value, frame)
    | .var _ name => do
      let value ← lift (Body.run (Body.lookup name) frame)
      if frame.isLazy then do
        let value ← sub (force value)
        pure (value, frame)
      else pure (value, frame)
    | .fn _ signature code => body (makeClosure ⟨signature, code⟩) frame
    | .call _ func args kwargs => do
      let (func, frame) ← sub (evalForced func frame)
      let callee ← lift func.callable
      let policy := if frame.isLazy && callee.isLazy then Policy.delay else .strict
      let (args, frame) ← sub (operands policy args frame)
      let (kwargs, frame) ← sub (keywords policy kwargs frame)
      let value ← sub (apply callee args kwargs)
      pure (value, frame)
    | .cond _ arms alt => sub (evalArms arms alt frame)
    | .short _ op es => sub (evalShort op es (.bool (op = .and)) frame)
    | .seq _ items => do
      let (value, last) ← sub (evalItems items .nil frame)
      pure (value, { last with env := frame.env })
    | .bind _ name (.fn mark signature code) => do
      let ref ← lift (Run.newCell .nil)
      let frame := { frame with env := (name, ref) :: frame.env }
      let (value, frame) ← sub (eval (.fn mark signature code) frame)
      lift (Run.setCell ref value)
      pure (.nil, frame)
    | .bind _ name bindee => do
      let (value, frame) ← sub (operand .delay bindee frame)
      let ref ← lift (Run.newCell value)
      pure (.nil, { frame with env := (name, ref) :: frame.env })
    | .assign _ name bindee => do
      let (value, frame) ← sub (operand .strict bindee frame)
      lift (Body.run (Body.assign name value) frame)
      pure (.nil, frame)
    | .loop _ test body => sub (evalLoop test body frame)
    | .jump _ func args kwargs cc => do
      let (func, frame) ← sub (evalForced func frame)
      let target ← lift func.callable
      let (args, frame) ← sub (operands .delay args frame)
      let (kwargs, frame) ← sub (keywords .delay kwargs frame)
      let (cc, frame) ← sub (evalContinuation cc frame)
      let value ← lift (Run.newJump ⟨target, args, kwargs, cc⟩)
      pure (value, frame)
    | .capture .. => lift (Exec.fail .captureOutsideBlock)
  | evalForced e frame => do
    let (value, frame) ← sub (eval e frame)
    let value ← sub (force value)
    pure (value, frame)
  | evalContinuation none frame => pure (none, frame)
  | evalContinuation (some e) frame => do
    let (value, frame) ← sub (evalForced e frame)
    pure (some value, frame)
  | operand policy e frame =>
    if !frame.isLazy then sub (eval e frame)
    else
      match policy with
      | .strict => sub (evalForced e frame)
      | .delay => sub (delayed e frame)
  | delayed e frame =>
    match e with
    | .var _ name => do
      let value ← lift (Body.run (Body.lookup name) frame)
      pure (value, frame)
    | .lit mark value => sub (eval (.lit mark value) frame)
    | .fn mark signature body => sub (eval (.fn mark signature body) frame)
    | e => do
      let value ← lift (Run.newPromise (.expr e frame.env))
      pure (value, frame)
  | operands _ [] frame => pure ([], frame)
  | operands policy (e :: rest) frame => do
    let (value, frame) ← sub (operand policy e frame)
    let (others, frame) ← sub (operands policy rest frame)
    pure (value :: others, frame)
  | keywords _ [] frame => pure ([], frame)
  | keywords policy ((name, e) :: rest) frame => do
    let (value, frame) ← sub (operand policy e frame)
    let (others, frame) ← sub (keywords policy rest frame)
    pure ((name, value) :: others, frame)
  | evalArms [] none frame => pure (.nil, frame)
  | evalArms [] (some e) frame => sub (eval e frame)
  | evalArms ((test, body) :: rest) alt frame => do
    let (value, frame) ← sub (evalForced test frame)
    if value.truthy then sub (eval body frame) else sub (evalArms rest alt frame)
  | evalShort _ [] last frame => pure (last, frame)
  | evalShort op (e :: rest) _ frame => do
    let (value, frame) ← sub (evalForced e frame)
    if value.truthy = (op = .or) then pure (value, frame)
    else sub (evalShort op rest value frame)
  | evalItems [] last frame => pure (last, frame)
  | evalItems (e :: rest) _ frame => do
    let (value, frame) ← sub (eval e frame)
    sub (evalItems rest value frame)
  | evalLoop test body frame => do
    let (value, frame) ← sub (evalForced test frame)
    if value.truthy then do
      let (_, frame) ← sub (eval body frame)
      sub (evalLoop test body frame)
    else pure (.nil, frame)
  | force value =>
    match value with
    | .promise ref => do
      let state ← lift (Exec.read fun m : Machine => m.promise ref)
      match state with
      | .forced value => pure value
      | .forcing => lift (Exec.fail .recursiveForce)
      | .pending thunk =>
        settle
          (do
            lift (Run.setPromise ref .forcing)
            lift (Run.tell .forcing)
            let value ← sub (runThunk thunk)
            sub (force value))
          fun
            | .ok value => do
              lift (Run.setPromise ref (.forced value))
              pure value
            | .error error => do
              lift (Run.setPromise ref (.pending thunk))
              lift (Exec.fail error)
    | value => pure value
  | runThunk (.expr e env) => do
    let (value, _) ← sub (eval e ⟨env, true, none⟩)
    pure value
  | runThunk (.global name) => do
    let value ← lift (Exec.read fun m : Machine => m.global? name)
    match value with
    | none => lift (Exec.fail (.unbound name))
    | some (.func callable) => sub (call callable [] [])
    | some value => sub (force value)
  | forceDeep value => do
    let value ← sub (force value)
    match value with
    | .list ref => do
      let items ← lift (Exec.read fun m : Machine => m.items ref)
      let items ← sub (forceAll items.toList)
      lift (Run.setItems ref items)
      pure (.list ref)
    | .tuple items => do
      let items ← sub (forceAll items)
      pure (.tuple items)
    | value => pure value
  | forceAll [] => pure []
  | forceAll (value :: rest) => do
    let value ← sub (forceDeep value)
    let rest ← sub (forceAll rest)
    pure (value :: rest)
  | apply callable args kwargs =>
    match callable with
    | .closure _ function env => do
      let scope ← lift (parameterScope function.signature env args kwargs)
      let (value, _) ← sub (eval function.body ⟨scope, function.signature.isLazy, none⟩)
      pure value
    | .native op => do
      lift (noKwargs op.name kwargs)
      match op.arity with
      | none => sub (applyNative op args)
      | some expected =>
        if args.length = expected then sub (applyNative op args)
        else lift (Exec.fail (.arity op.name expected args.length))
    | .trampolined inner variant => do
      let first ← sub (apply inner args kwargs)
      sub (trampoline variant first)
    | .memoized inner cache => do
      let (args, argKeys) ← sub (forceKeys args)
      let (kwargs, kwargKeys) ← sub (forceKwargKeys kwargs)
      let hit ← lift (Run.cached? cache (argKeys ++ kwargKeys))
      match hit with
      | some value => pure value
      | none => do
        let value ← sub (call inner args kwargs)
        lift (Run.remember cache (argKeys ++ kwargKeys) value)
        pure value
    | .looped inner => do
      let ref ← lift Run.newHandle
      let first ← sub (apply inner (.func (.loopHandle ref inner) :: args) kwargs)
      sub (trampoline (Variant.of inner) first)
    | .loopHandle ref inner =>
      lift (Run.newJump ⟨inner, .func (.loopHandle ref inner) :: args, kwargs, none⟩)
    | .escapePoint inner => do
      let tag ← lift Run.enterPoint
      settle (sub (apply inner (.func (.escape tag) :: args) kwargs)) fun
        | .ok value => do
          lift (Exec.modify (Run.leavePoint tag))
          pure value
        | .error (.escape target value) => do
          lift (Exec.modify (Run.leavePoint tag))
          if target = tag then do
            lift (Run.tell (.escaped tag))
            pure value
          else lift (Exec.fail (.escape target value))
        | .error error => do
          lift (Exec.modify (Run.leavePoint tag))
          lift (Exec.fail error)
    | .escape tag => do
      let running ← lift (Run.pointRunning tag)
      if !running then lift (Exec.fail .escapeOutsideExtent)
      else do
        lift (noKwargs "escape continuation" kwargs)
        lift (Exec.fail (.escape tag (.pack args)))
    | .contEnabled inner =>
      if kwargs.any isCc then sub (apply inner args kwargs)
      else do
        let identity ← lift Run.newIdentity
        sub (apply inner args (kwargs ++ [(continuationParam, .func identity)]))
    | .lazyFn inner => sub (apply inner args kwargs)
    | .continuation _ function env extent isLazy => do
      let valid ← lift (Run.extentValid extent)
      if !valid then lift (Exec.fail .continuationInvalidated)
      else do
        lift (noKwargs "continuation" kwargs)
        match resumeValues function.signature.params.length args with
        | .error error => lift (Exec.fail error)
        | .ok values => do
          let scope ← lift (bindValues function.signature.params values env)
          let (value, _) ← sub (eval function.body ⟨scope, isLazy, none⟩)
          pure value
    | .identity _ => do
      lift (noKwargs "identity" kwargs)
      pure (.pack args)
  | call callable args kwargs => do
    let value ← sub (apply callable args kwargs)
    match value with
    | .jump ref => sub (trampoline (Variant.of callable) (.jump ref))
    | value => pure value
  | trampoline variant first => guarded (sub (runJumps variant first)) done
  | runJumps variant current =>
    match current with
    | .jump ref => do
      let next ← sub (takeStep variant ref)
      sub (runJumps variant next)
    | value => pure value
  | takeStep variant ref => do
    let jump ← lift (Run.takeJump ref)
    let callee := jump.target.underTrampoline
    let (args, kwargs) ← sub (forceForStrict variant callee jump.args jump.kwargs)
    lift (Run.tell (.jumped callee))
    match jump.cc with
    | none => sub (apply callee args kwargs)
    | some cc =>
      if callee.acceptsCc then sub (apply callee args (replaceCc kwargs cc))
      else if callee.isContinuation then sub (apply callee args kwargs)
      else do
        let result ← sub (call jump.target args kwargs)
        let next ← lift cc.callable
        lift (Run.newJump ⟨next, [result], [], none⟩)
  | forceForStrict variant callee args kwargs =>
    if variant = .promiseAware && !callee.isLazy then do
      let args ← sub (forceArgs args)
      let kwargs ← sub (forceKwargs kwargs)
      pure (args, kwargs)
    else pure (args, kwargs)
  | forceArgs [] => pure []
  | forceArgs (value :: rest) => do
    let value ← sub (force value)
    let rest ← sub (forceArgs rest)
    pure (value :: rest)
  | forceKwargs [] => pure []
  | forceKwargs ((name, value) :: rest) => do
    let value ← sub (force value)
    let rest ← sub (forceKwargs rest)
    pure ((name, value) :: rest)
  | forceKeys [] => pure ([], [])
  | forceKeys (value :: rest) => do
    let value ← sub (force value)
    match value.memoKey? with
    | none => lift (Exec.fail (.unhashable value.type))
    | some key => do
      let (values, keys) ← sub (forceKeys rest)
      pure (value :: values, key :: keys)
  | forceKwargKeys [] => pure ([], [])
  | forceKwargKeys ((name, value) :: rest) => do
    let value ← sub (force value)
    match value.memoKey? with
    | none => lift (Exec.fail (.unhashable value.type))
    | some key => do
      let (values, keys) ← sub (forceKwargKeys rest)
      pure ((name, value) :: values, kwargKey name key :: keys)
  | shownDeep [] => pure []
  | shownDeep (value :: rest) => do
    let value ← sub (forceDeep value)
    let shown ← lift (Exec.read fun m : Machine => m.display value)
    let others ← sub (shownDeep rest)
    pure (shown :: others)
  | applyNative op args =>
    match op with
    | .print => do
      let parts ← sub (shownDeep args)
      lift (Run.write (" ".intercalate parts ++ "\n"))
      pure .nil
    | .str => do
      let parts ← sub (shownDeep args)
      pure (.str (String.join parts))
    | .raise => do
      let parts ← sub (shownDeep args)
      lift (Exec.fail (.raised (String.join parts)))
    | .assertEq => do
      let left ← sub (forceDeep (Native.two args).1)
      let right ← sub (forceDeep (Native.two args).2)
      let equal ← lift (Exec.read fun m : Machine => m.equal left right)
      if equal then pure .nil
      else do
        let shown ← lift (Exec.read fun m : Machine => (m.repr left, m.repr right))
        lift (Exec.fail (.assertionFailed shown.1 shown.2))
    | .force => sub (force (Native.one args))
    | .forceDeep => sub (forceDeep (Native.one args))
    | .attempt => do
      let thunk ← lift (Native.two args).1.callable
      let handler ← lift (Native.two args).2.callable
      settle (guarded (sub (call thunk [] [])) done) fun
        | .ok value => pure value
        | .error error =>
          if error.isEscape then lift (Exec.fail error)
          else do
            let passes ← lift (Exec.read fun m : Machine => m.passed error)
            if passes then lift (Exec.fail error)
            else do
              lift (Run.tell (.caught error.message))
              sub (call handler [.str error.message] [])
    | op =>
      match op.compute? args with
      | some compute => lift compute
      | none => pure .nil

end Task

namespace Exec

variable {α β : Type}

@[simp] theorem expose_pure (value : α) (frame : Frame) :
    expose (pure value : Body α) frame = pure (value, frame) := rfl

@[simp] theorem expose_fail (error : EvalError) (frame : Frame) :
    expose (fail error : Body α) frame = fail error := rfl

/-- A body shows its frame to what follows. -/
@[simp] theorem expose_bind (first : Body α) (next : α -> Body β) (frame : Frame) :
    expose (first >>= next) frame =
      expose first frame >>= fun ended => expose (next ended.1) ended.2 := by
  funext machine
  show expose (Exec.bind first next) frame machine = Exec.bind _ _ machine
  simp only [expose, around, Exec.bind]
  rcases first ⟨frame, machine⟩ with _ | ⟨_ | value, frame', machine'⟩ <;> rfl

@[simp] theorem expose_within (run : Run α) (frame : Frame) :
    expose run.within frame = run >>= fun value => pure (value, frame) := by
  funext machine
  show _ = Exec.bind _ _ machine
  simp only [expose, around, Run.within, Exec.bind]
  rcases run machine with _ | ⟨_ | value, last⟩ <;> rfl

/-- A block shows the scope of before. -/
@[simp] theorem expose_inBlock (body : Body α) (frame : Frame) :
    expose body.inBlock frame =
      expose body frame >>= fun ended => pure (ended.1, { ended.2 with env := frame.env }) := by
  funext machine
  show _ = Exec.bind _ _ machine
  simp only [expose, around, Body.inBlock, Exec.bind]
  rcases body ⟨frame, machine⟩ with _ | ⟨_ | value, frame', machine'⟩ <;> rfl

/-- A body can ask whether it is lazy. -/
@[simp] theorem expose_isLazy (frame : Frame) :
    expose Body.isLazy frame = pure (frame.isLazy, frame) := rfl

/-- A body can ask for its frame. -/
@[simp] theorem expose_frame (frame : Frame) : expose Body.frame frame = pure (frame, frame) := rfl

@[simp] theorem expose_bindName (name : String) (ref : CellRef) (frame : Frame) :
    expose (Body.bindName name ref) frame =
      pure ((), { frame with env := (name, ref) :: frame.env }) := rfl

@[simp] theorem expose_callable (value : Value) (frame : Frame) :
    expose value.callable frame = value.callable >>= fun callable => pure (callable, frame) := by
  cases value <;> rfl

/-- A name is looked up in the frame that is shown. -/
@[simp] theorem expose_lookup (name : String) (frame : Frame) :
    expose (Body.lookup name) frame =
      Body.run (Body.lookup name) frame >>= fun value => pure (value, frame) := by
  funext machine
  show _ = Exec.bind _ _ machine
  simp only [expose, around, Body.run, Body.lookup, Exec.bind]
  cases frame.env.lookup name with
  | some ref => rfl
  | none =>
    simp only
    cases machine.global? name <;> rfl

/-- An assignment leaves the frame alone. -/
@[simp] theorem expose_assign (name : String) (value : Value) (frame : Frame) :
    expose (Body.assign name value) frame =
      Body.run (Body.assign name value) frame >>= fun _ => pure ((), frame) := by
  funext machine
  show _ = Exec.bind _ _ machine
  simp only [expose, around, Body.run, Body.assign, Exec.bind]
  cases frame.env.lookup name with
  | some ref => rfl
  | none =>
    simp only
    cases machine.global? name <;> rfl

/-- What is settled is the same if both parts are. -/
theorem settle_congr {σ : Type} {first second : Exec σ α}
    {next later : Except EvalError α -> Exec σ β}
    (same : first = second) (after : ∀ result, next result = later result) :
    settle first next = settle second later := by
  rw [same, funext after]

/-- A body run for its value forgets the frame. -/
theorem bodyRun_eq_expose (body : Body α) (frame : Frame) :
    body.run frame = expose body frame >>= fun ended => pure ended.1 := by
  funext machine
  show _ = Exec.bind _ _ machine
  simp only [expose, around, Body.run, Exec.bind]
  rcases body ⟨frame, machine⟩ with _ | ⟨_ | value, frame', machine'⟩ <;> rfl

end Exec

namespace Plan

variable {α β : Type} (perform : (task : Task) -> Run task.Answer)

/-- A step is run as it is. -/
@[simp] theorem run_lift (run : Run α) : (lift run).run perform = run := bind_pure run

@[simp] theorem run_body (part : Body α) (frame : Frame) :
    (body part frame).run perform = expose part frame :=
  bind_pure _

@[simp] theorem run_pure (value : α) : (pure value : Plan α).run perform = pure value := rfl

/-- A plan that begins with a task performs it. -/
@[simp] theorem run_ask (task : Task) (next : task.Answer -> Plan α) :
    (ask task next).run perform = perform task >>= fun answer => (next answer).run perform := rfl

@[simp] theorem run_done (value : α) : (done value).run perform = pure value := rfl

/-- A guarded plan guards what is inside. -/
@[simp] theorem run_guarded (inner : Plan β) (next : β -> Plan α) :
    (guarded inner next).run perform =
      (inner.run perform).guarded >>= fun value => (next value).run perform := rfl

/-- A settled plan is settled by what follows. -/
@[simp] theorem run_settle (inner : Plan β) (next : Except EvalError β -> Plan α) :
    (settle inner next).run perform =
      Exec.settle (inner.run perform) fun result => (next result).run perform := rfl

/-- A choice of plans is a choice of runs. -/
@[simp] theorem run_ite (test : Prop) [Decidable test] (first second : Plan α) :
    (if test then first else second).run perform =
      if test then first.run perform else second.run perform :=
  apply_ite (Plan.run perform) test first second

end Plan

@[simp] theorem Exec.expose_ite {α : Type} (test : Prop) [Decidable test] (first second : Body α)
    (frame : Frame) :
    expose (if test then first else second) frame =
      if test then expose first frame else expose second frame :=
  apply_ite (fun body => expose body frame) test first second

namespace Task

open Plan

attribute [local simp] plan run

/-- What a step is followed by can be compared for each of its values. -/
theorem run_succ_eval (n : Nat) (e : Expr) (frame : Frame) :
    (eval e frame).run (n + 1) = (eval e frame).plan.run (run n) := by
  cases e with
  | lit mark value => rfl
  | bind mark name bindee =>
    cases bindee <;> simp [-bind_pure_comp, run, plan, Trampoline.eval]
  | _ => simp [-bind_pure_comp, run, plan, Trampoline.eval]

/-- Applying with one more fuel is the plan of it, with tasks of less. -/
theorem run_succ_apply (n : Nat) (callable : Callable) (args : List Value) (kwargs : Kwargs) :
    (apply callable args kwargs).run (n + 1) = (apply callable args kwargs).plan.run (run n) := by
  cases callable with
  | native op =>
    cases arity : op.arity <;> simp [run, plan, Trampoline.apply, arity]
  | memoized inner cache =>
    simp only [run, plan, Trampoline.apply, run_bind, run_ask, run_done, bind_pure, run_lift]
    refine bind_congr fun keyed => bind_congr fun named => bind_congr fun hit => ?_
    cases hit <;> simp [-bind_pure_comp, run]
  | escapePoint inner =>
    simp only [run, plan, Grows.applyPoint_eq, run_bind, run_settle, run_ask, run_done, bind_pure,
      run_lift]
    refine bind_congr fun tag => settle_congr rfl fun result => ?_
    rcases result with error | value
    · cases error with
      | escape target value => by_cases same : target = tag <;> simp [same]
      | _ => simp
    · simp [-bind_pure_comp]
  | continuation ref function env extent isLazy =>
    simp only [run, plan, Trampoline.apply, run_bind, run_lift, run_ite]
    refine bind_congr fun valid => ite_congr rfl (fun _ => rfl) fun _ => bind_congr fun _ => ?_
    cases resumeValues function.signature.params.length args <;>
      simp [-bind_pure_comp, run, bodyRun_eq_expose]
  | _ => simp [-bind_pure_comp, run, plan, Trampoline.apply, bodyRun_eq_expose]

theorem run_succ_force (n : Nat) (value : Value) :
    (force value).run (n + 1) = (force value).plan.run (run n) := by
  cases value with
  | promise ref =>
    simp only [run, plan, Grows.force_promise, run_bind, run_lift]
    funext m
    show _ = Exec.bind (Exec.read _) _ m
    simp only [Exec.bind, Exec.read]
    cases m.promise ref with
    | pending thunk =>
      simp only [run_settle]
      refine congrFun (settle_congr (by simp [run]) fun result => ?_) m
      cases result <;> simp [-bind_pure_comp]
    | _ => rfl
  | _ => rfl

theorem run_succ_takeStep (n : Nat) (variant : Variant) (ref : Nat) :
    (takeStep variant ref).run (n + 1) = (takeStep variant ref).plan.run (run n) := by
  simp only [run, plan, Trampoline.takeStep, run_bind, run_lift, run_ask, run_done, bind_pure]
  refine bind_congr fun jump => bind_congr fun forced => bind_congr fun _ => ?_
  cases jump.cc <;> simp [run]

theorem run_succ_applyNative (n : Nat) (op : Native) (args : List Value) :
    (applyNative op args).run (n + 1) = (applyNative op args).plan.run (run n) := by
  cases op with
  | attempt =>
    simp only [run, plan, Grows.applyAttempt_eq, run_bind, run_lift, run_settle, run_guarded,
      run_ask, run_done, bind_pure]
    refine bind_congr fun thunk => bind_congr fun handler => settle_congr rfl fun result => ?_
    rcases result with error | value
    · by_cases escapes : error.isEscape
      · simp only [escapes, Bool.true_or, if_true]
        rfl
      · simp [escapes, run]
    · simp
  | print | str | raise | assertEq | force | forceDeep =>
    simp [-bind_pure_comp, run, plan, Trampoline.applyNative]
  | _ =>
    simp [run, plan, Trampoline.applyNative, Native.compute?]

/-- A task with one more fuel is its plan, with tasks of less. -/
theorem run_succ (n : Nat) (task : Task) : task.run (n + 1) = task.plan.run (run n) := by
  cases task with
  | eval e frame => exact run_succ_eval n e frame
  | evalForced e frame => simp [-bind_pure_comp, run, plan, Trampoline.evalForced]
  | evalContinuation cc frame =>
    cases cc <;> simp [-bind_pure_comp, run, plan, Trampoline.evalContinuation]
  | operand policy e frame => cases policy <;> simp [run, plan, Trampoline.operand]
  | delayed e frame =>
    cases e <;> simp [-bind_pure_comp, run, plan, Trampoline.delayed]
  | operands policy es frame =>
    cases es <;> simp [-bind_pure_comp, run, plan, Trampoline.operands]
  | keywords policy es frame =>
    cases es <;> simp [-bind_pure_comp, run, plan, Trampoline.keywords]
  | evalArms arms alt frame =>
    cases arms <;> cases alt <;> simp [run, plan, Trampoline.evalArms]
  | evalShort op es last frame => cases es <;> simp [run, plan, Trampoline.evalShort]
  | evalItems es last frame => cases es <;> simp [run, plan, Trampoline.evalItems]
  | evalLoop test code frame => simp [run, plan, Grows.evalLoop_eq]
  | force value => exact run_succ_force n value
  | runThunk thunk =>
    cases thunk with
    | expr e env => simp [-bind_pure_comp, run, plan, Trampoline.runThunk, bodyRun_eq_expose]
    | global name =>
      simp only [run, plan, Trampoline.runThunk, run_bind, run_lift]
      refine bind_congr fun value => ?_
      rcases value with _ | value
      · simp
      · cases value <;> simp [run]
  | forceDeep value =>
    simp only [run, plan, Trampoline.forceDeep, run_bind, run_ask, run_done, bind_pure]
    refine bind_congr fun value => ?_
    cases value <;> simp [-bind_pure_comp, run]
  | forceAll values => cases values <;> simp [-bind_pure_comp, run, plan, Trampoline.forceAll]
  | apply callable args kwargs => exact run_succ_apply n callable args kwargs
  | call callable args kwargs =>
    simp only [run, plan, Trampoline.call, run_bind, run_ask, run_done, bind_pure]
    refine bind_congr fun value => ?_
    cases value <;> simp [run]
  | trampoline variant first => simp [run, plan, Trampoline.trampoline]
  | runJumps variant current =>
    cases current with
    | jump ref => simp [run, plan, Grows.runJumps_jump]
    | _ => rfl
  | takeStep variant ref => exact run_succ_takeStep n variant ref
  | forceForStrict variant callee args kwargs =>
    simp [-bind_pure_comp, run, plan, Trampoline.forceForStrict]
  | forceArgs args => cases args <;> simp [-bind_pure_comp, run, plan, Trampoline.forceArgs]
  | forceKwargs kwargs =>
    cases kwargs <;> simp [-bind_pure_comp, run, plan, Trampoline.forceKwargs]
  | forceKeys args =>
    cases args with
    | nil => rfl
    | cons value rest =>
      simp only [run, plan, Trampoline.forceKeys, run_bind, run_ask, run_done, bind_pure]
      refine bind_congr fun value => ?_
      cases Value.memoKey? value <;> simp [-bind_pure_comp, run]
  | forceKwargKeys kwargs =>
    cases kwargs with
    | nil => rfl
    | cons named rest =>
      simp only [run, plan, Trampoline.forceKwargKeys, run_bind, run_ask, run_done, bind_pure]
      refine bind_congr fun value => ?_
      cases Value.memoKey? value <;> simp [-bind_pure_comp, run]
  | shownDeep values => cases values <;> simp [-bind_pure_comp, run, plan, Trampoline.shownDeep]
  | applyNative op args => exact run_succ_applyNative n op args

end Task

end Trampoline
