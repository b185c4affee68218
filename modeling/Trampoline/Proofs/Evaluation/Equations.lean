import Trampoline.Proofs.Evaluation.Chain
import Trampoline.Proofs.Evaluation.Growth

/-!
# The evaluator without fuel

The functions of the evaluator as chains, and one equation for each: a cut of the function at one
more unit of fuel is the cut of what the function does with its parts. Where lazy bodies take
another way, the equation is the one of strict bodies.
-/

namespace Trampoline

namespace Chain

/-- Evaluate an expression. -/
def eval (e : Expr) : Chain Activation Value :=
  ⟨fun n => Trampoline.eval n e, fun n => (grows n).eval e⟩

/-- Evaluate an expression and force its value. -/
def evalForced (e : Expr) : Chain Activation Value :=
  ⟨fun n => Trampoline.evalForced n e, fun n => (grows n).evalForced e⟩

/-- Evaluate the continuation of a jump. -/
def evalContinuation (cc : Option Expr) : Chain Activation (Option Value) :=
  ⟨fun n => Trampoline.evalContinuation n cc, fun n => (grows n).evalContinuation cc⟩

/-- Evaluate an argument or a bound expression. -/
def operand (policy : Policy) (e : Expr) : Chain Activation Value :=
  ⟨fun n => Trampoline.operand n policy e, fun n => (grows n).operand policy e⟩

/-- Delay an expression. -/
def delayed (e : Expr) : Chain Activation Value :=
  ⟨fun n => Trampoline.delayed n e, fun n => (grows n).delayed e⟩

/-- Evaluate arguments. -/
def operands (policy : Policy) (es : List Expr) : Chain Activation (List Value) :=
  ⟨fun n => Trampoline.operands n policy es, fun n => (grows n).operands policy es⟩

/-- Evaluate keyword arguments. -/
def keywords (policy : Policy) (es : List (String × Expr)) : Chain Activation Kwargs :=
  ⟨fun n => Trampoline.keywords n policy es, fun n => (grows n).keywords policy es⟩

/-- Evaluate the first arm whose test holds, else the alternative. -/
def evalArms (arms : List (Expr × Expr)) (alt : Option Expr) : Chain Activation Value :=
  ⟨fun n => Trampoline.evalArms n arms alt, fun n => (grows n).evalArms arms alt⟩

/-- Evaluate operands until one decides. -/
def evalShort (op : Connective) (es : List Expr) (last : Value) : Chain Activation Value :=
  ⟨fun n => Trampoline.evalShort n op es last, fun n => (grows n).evalShort op es last⟩

/-- Evaluate the items of a block. -/
def evalItems (es : List Expr) (last : Value) : Chain Activation Value :=
  ⟨fun n => Trampoline.evalItems n es last, fun n => (grows n).evalItems es last⟩

/-- Evaluate a loop. -/
def evalLoop (test body : Expr) : Chain Activation Value :=
  ⟨fun n => Trampoline.evalLoop n test body, fun n => (grows n).evalLoop test body⟩

/-- The value behind a promise. -/
def force (value : Value) : Chain Machine Value :=
  ⟨fun n => Trampoline.force n value, fun n => (grows n).force value⟩

/-- Force a value and all that it holds. -/
def forceDeep (value : Value) : Chain Machine Value :=
  ⟨fun n => Trampoline.forceDeep n value, fun n => (grows n).forceDeep value⟩

/-- Force values and all that they hold. -/
def forceAll (values : List Value) : Chain Machine (List Value) :=
  ⟨fun n => Trampoline.forceAll n values, fun n => (grows n).forceAll values⟩

/-- Apply a callable once. -/
def apply (callable : Callable) (args : List Value) (kwargs : Kwargs) : Chain Machine Value :=
  ⟨fun n => Trampoline.apply n callable args kwargs, fun n => (grows n).apply callable args kwargs⟩

/-- Apply a callable and run the jump that may come of it. -/
def call (callable : Callable) (args : List Value) (kwargs : Kwargs) : Chain Machine Value :=
  ⟨fun n => Trampoline.call n callable args kwargs, fun n => (grows n).call callable args kwargs⟩

/-- Run jumps in a guarded way. -/
def trampoline (variant : Variant) (first : Value) : Chain Machine Value :=
  ⟨fun n => Trampoline.trampoline n variant first, fun n => (grows n).trampoline variant first⟩

/-- The loop of a trampoline. -/
def runJumps (variant : Variant) (current : Value) : Chain Machine Value :=
  ⟨fun n => Trampoline.runJumps n variant current, fun n => (grows n).runJumps variant current⟩

/-- Take one jump. -/
def takeStep (variant : Variant) (ref : Nat) : Chain Machine Value :=
  ⟨fun n => Trampoline.takeStep n variant ref, fun n => (grows n).takeStep variant ref⟩

/-- The arguments of a jump. -/
def forceForStrict (variant : Variant) (callee : Callable) (args : List Value) (kwargs : Kwargs) :
    Chain Machine (List Value × Kwargs) :=
  ⟨fun n => Trampoline.forceForStrict n variant callee args kwargs,
    fun n => (grows n).forceForStrict variant callee args kwargs⟩

/-- Force values with all that they hold, and show each. -/
def shownDeep (values : List Value) : Chain Machine (List String) :=
  ⟨fun n => Trampoline.shownDeep n values, fun n => (grows n).shownDeep values⟩

/-- Apply a native. -/
def applyNative (op : Native) (args : List Value) : Chain Machine Value :=
  ⟨fun n => Trampoline.applyNative n op args, fun n => (grows n).applyNative op args⟩

/-! ## Expressions -/

theorem eval_lit (mark : Mark) (value : Literal) (n : Nat) :
    (eval (.lit mark value)).cut (n + 1) = pure (.ofLiteral value) :=
  cut_succ_lift (fun _ => rfl) n

/-- A call evaluates the callee, the arguments and the keyword arguments, in this order, and then
calls. -/
theorem eval_call (mark : Mark) (func : Expr) (args : List Expr) (kwargs : List (String × Expr))
    (n : Nat) :
    (eval (.call mark func args kwargs)).cut (n + 1) = (do
      let func ← evalForced func
      let callee ← lift func.callable
      let isLazy ← lift Body.isLazy
      let policy := if isLazy && callee.isLazy then Policy.delay else .strict
      let args ← operands policy args
      let kwargs ← keywords policy kwargs
      (apply callee args kwargs).within : Chain Activation Value).cut n :=
  cut_succ (fun _ => rfl) n

/-- A variable is looked up, and forced in a lazy body. -/
theorem eval_var (mark : Mark) (name : String) (n : Nat) :
    (eval (.var mark name)).cut (n + 1) = (do
      let value ← lift (Body.lookup name)
      let isLazy ← lift Body.isLazy
      if isLazy then (force value).within else pure value : Chain Activation Value).cut n :=
  cut_succ (fun _ => bind_congr fun _ => bind_congr fun isLazy => by cases isLazy <;> rfl) n

theorem eval_fn (mark : Mark) (signature : Signature) (body : Expr) (n : Nat) :
    (eval (.fn mark signature body)).cut (n + 1) = (lift (makeClosure ⟨signature, body⟩)).cut n :=
  cut_succ (fun _ => rfl) n

theorem eval_cond (mark : Mark) (arms : List (Expr × Expr)) (alt : Option Expr) (n : Nat) :
    (eval (.cond mark arms alt)).cut (n + 1) = (evalArms arms alt).cut n :=
  cut_succ (fun _ => rfl) n

theorem eval_short (mark : Mark) (op : Connective) (es : List Expr) (n : Nat) :
    (eval (.short mark op es)).cut (n + 1) = (evalShort op es (.bool (op = .and))).cut n :=
  cut_succ (fun _ => rfl) n

theorem eval_seq (mark : Mark) (items : List Expr) (n : Nat) :
    (eval (.seq mark items)).cut (n + 1) = ((evalItems items .nil).cut n).inBlock :=
  (cut_succ (fun _ => rfl) n).trans (cut_inBlock (evalItems items .nil) n)

/-- A function that is bound can see the name that it is bound to. -/
theorem eval_bind_fn (mark : Mark) (name : String) (inner : Mark) (signature : Signature)
    (body : Expr) (n : Nat) :
    (eval (.bind mark name (.fn inner signature body))).cut (n + 1) = (do
      let ref ← lift (Run.within (Run.newCell .nil))
      lift (Body.bindName name ref)
      let value ← eval (.fn inner signature body)
      lift (Run.within (Run.setCell ref value))
      pure .nil : Chain Activation Value).cut n :=
  cut_succ (fun _ => rfl) n

/-- Anything else is an operand first, delayed in a lazy body, and then bound. -/
theorem eval_bind (mark : Mark) (name : String) (bindee : Expr)
    (noFn : ∀ inner signature body, bindee ≠ .fn inner signature body) (n : Nat) :
    (eval (.bind mark name bindee)).cut (n + 1) = (do
      let value ← operand .delay bindee
      let ref ← lift (Run.within (Run.newCell value))
      lift (Body.bindName name ref)
      pure .nil : Chain Activation Value).cut n := by
  cases bindee with
  | fn inner signature body => exact absurd rfl (noFn inner signature body)
  | _ => exact cut_succ (fun _ => rfl) n

/-- An assignment changes what the name stands for, without delay. -/
theorem eval_assign (mark : Mark) (name : String) (bindee : Expr) (n : Nat) :
    (eval (.assign mark name bindee)).cut (n + 1) = (do
      let value ← operand .strict bindee
      lift (Body.assign name value)
      pure .nil : Chain Activation Value).cut n :=
  cut_succ (fun _ => rfl) n

theorem eval_loop (mark : Mark) (test body : Expr) (n : Nat) :
    (eval (.loop mark test body)).cut (n + 1) = (evalLoop test body).cut n :=
  cut_succ (fun _ => rfl) n

/-- A jump is evaluated like a call, and then recorded. -/
theorem eval_jump (mark : Mark) (func : Expr) (args : List Expr) (kwargs : List (String × Expr))
    (cc : Option Expr) (n : Nat) :
    (eval (.jump mark func args kwargs cc)).cut (n + 1) = (do
      let func ← evalForced func
      let target ← lift func.callable
      let args ← operands .delay args
      let kwargs ← keywords .delay kwargs
      let cc ← evalContinuation cc
      lift (Run.within (Run.newJump ⟨target, args, kwargs, cc⟩)) : Chain Activation Value).cut n :=
  cut_succ (fun _ => rfl) n

/-- A forced expression is evaluated and then forced. -/
theorem evalForced_eq (e : Expr) (n : Nat) :
    (evalForced e).cut (n + 1) = (do
      let value ← eval e
      (force value).within : Chain Activation Value).cut n :=
  cut_succ (fun _ => rfl) n

theorem evalContinuation_none (n : Nat) : (evalContinuation none).cut (n + 1) = pure none :=
  cut_succ_lift (fun _ => rfl) n

/-- The continuation of a jump is forced. -/
theorem evalContinuation_some (e : Expr) (n : Nat) :
    (evalContinuation (some e)).cut (n + 1) = (do
      let value ← evalForced e
      pure (some value) : Chain Activation (Option Value)).cut n :=
  cut_succ (fun _ => rfl) n

/-- An operand is delayed only in a lazy body, for a callee that takes promises. -/
theorem operand_eq (policy : Policy) (e : Expr) (n : Nat) :
    (operand policy e).cut (n + 1) = (do
      let isLazy ← lift Body.isLazy
      if isLazy then
        match policy with
        | .strict => evalForced e
        | .delay => delayed e
      else eval e : Chain Activation Value).cut n := by
  refine cut_succ (fun _ => bind_congr fun isLazy => ?_) n
  cases isLazy with
  | false => rfl
  | true => cases policy <;> rfl

theorem operands_nil (policy : Policy) (n : Nat) : (operands policy []).cut (n + 1) = pure [] :=
  cut_succ_lift (fun _ => rfl) n

/-- Operands are taken from left to right. -/
theorem operands_cons (policy : Policy) (e : Expr) (rest : List Expr) (n : Nat) :
    (operands policy (e :: rest)).cut (n + 1) = (do
      let value ← operand policy e
      let others ← operands policy rest
      pure (value :: others) : Chain Activation (List Value)).cut n :=
  cut_succ (fun _ => rfl) n

theorem keywords_nil (policy : Policy) (n : Nat) : (keywords policy []).cut (n + 1) = pure [] :=
  cut_succ_lift (fun _ => rfl) n

/-- So are keyword arguments. -/
theorem keywords_cons (policy : Policy) (name : String) (e : Expr) (rest : List (String × Expr))
    (n : Nat) :
    (keywords policy ((name, e) :: rest)).cut (n + 1) = (do
      let value ← operand policy e
      let others ← keywords policy rest
      pure ((name, value) :: others) : Chain Activation Kwargs).cut n :=
  cut_succ (fun _ => rfl) n

theorem evalArms_nil_none (n : Nat) : (evalArms [] none).cut (n + 1) = pure .nil :=
  cut_succ_lift (fun _ => rfl) n

theorem evalArms_nil_some (e : Expr) (n : Nat) :
    (evalArms [] (some e)).cut (n + 1) = (eval e).cut n :=
  cut_succ (fun _ => rfl) n

/-- Arms are tried in order. -/
theorem evalArms_cons (test body : Expr) (rest : List (Expr × Expr)) (alt : Option Expr)
    (n : Nat) :
    (evalArms ((test, body) :: rest) alt).cut (n + 1) = (do
      let value ← evalForced test
      if value.truthy then eval body else evalArms rest alt : Chain Activation Value).cut n :=
  cut_succ (fun n => bind_congr fun value : Value =>
    (upTo_ite (value.truthy = true) (eval body) (evalArms rest alt) n).symm) n

theorem evalShort_nil (op : Connective) (last : Value) (n : Nat) :
    (evalShort op [] last).cut (n + 1) = pure last :=
  cut_succ_lift (fun _ => rfl) n

/-- An operand that decides ends the connective. -/
theorem evalShort_cons (op : Connective) (e : Expr) (rest : List Expr) (last : Value) (n : Nat) :
    (evalShort op (e :: rest) last).cut (n + 1) = (do
      let value ← evalForced e
      if value.truthy = (op = .or) then pure value
      else evalShort op rest value : Chain Activation Value).cut n :=
  cut_succ (fun n => bind_congr fun value : Value =>
    (upTo_ite (value.truthy = (op = .or)) (pure value) (evalShort op rest value) n).symm) n

/-- A single operand decides, whatever its value. -/
theorem evalShort_one_le (op : Connective) (e : Expr) (last : Value) (n : Nat) :
    (evalShort op [e] last).cut n ≤ (evalForced e).cut n := by
  refine Bounded.le_trans (cut_le_of_eq (evalShort_cons op e [] last n)) ?_
  simp only [cut_bind, cut_ite, cut_pure]
  refine Bounded.le_trans (Bounded.bind_le (Bounded.le_refl _) fun value =>
    (?_ : _ ≤ (pure value : Bounded Activation Value))) ?_
  · split
    · exact Bounded.le_refl _
    · exact cut_le_of_eq (evalShort_nil op value n)
  · rw [bind_pure]
    exact Bounded.le_refl _

theorem evalItems_nil (last : Value) (n : Nat) : (evalItems [] last).cut (n + 1) = pure last :=
  cut_succ_lift (fun _ => rfl) n

/-- The items of a block are evaluated in order. -/
theorem evalItems_cons (e : Expr) (rest : List Expr) (last : Value) (n : Nat) :
    (evalItems (e :: rest) last).cut (n + 1) = (do
      let value ← eval e
      evalItems rest value : Chain Activation Value).cut n :=
  cut_succ (fun _ => rfl) n

/-- A block of one item is what the item is. -/
theorem evalItems_one_le (e : Expr) (last : Value) (n : Nat) :
    (evalItems [e] last).cut n ≤ (eval e).cut n := by
  refine Bounded.le_trans (cut_le_of_eq (evalItems_cons e [] last n)) ?_
  rw [cut_bind]
  refine Bounded.le_trans (Bounded.bind_le (Bounded.le_refl _) fun value =>
    cut_le_of_eq (evalItems_nil value n)) ?_
  rw [bind_pure]
  exact Bounded.le_refl _

/-- A loop tests before each round and is nil at its end. -/
theorem evalLoop_eq (test body : Expr) (n : Nat) :
    (evalLoop test body).cut (n + 1) = (do
      let value ← evalForced test
      if value.truthy then do
        let _ ← eval body
        evalLoop test body
      else pure .nil : Chain Activation Value).cut n := by
  refine cut_succ (fun n => ?_) n
  refine (Grows.evalLoop_eq n test body).trans (bind_congr fun value => ?_)
  exact (upTo_ite (value.truthy = true) (eval body >>= fun _ => evalLoop test body)
    (pure .nil) n).symm

/-! ## Forcing -/

theorem force_value (value : Value) (plain : ∀ ref, value ≠ .promise ref) (n : Nat) :
    (force value).cut (n + 1) = pure value :=
  cut_succ_lift (fun n => Grows.force_value n value plain) n

/-- A deep force replaces the items of a list in place, and makes a new tuple for a tuple. -/
theorem forceDeep_eq (value : Value) (n : Nat) :
    (forceDeep value).cut (n + 1) = (do
      let value ← force value
      match value with
      | .list ref => do
        let items ← lift (Exec.read fun m : Machine => m.items ref)
        let items ← forceAll items.toList
        lift (Run.setItems ref items)
        pure (.list ref)
      | .tuple items => do
        let items ← forceAll items
        pure (.tuple items)
      | value => pure value : Chain Machine Value).cut n :=
  cut_succ (fun _ => bind_congr fun value => by cases value <;> rfl) n

theorem forceAll_nil (n : Nat) : (forceAll []).cut (n + 1) = pure [] :=
  cut_succ_lift (fun _ => rfl) n

/-- Deep forces go from left to right. -/
theorem forceAll_cons (value : Value) (rest : List Value) (n : Nat) :
    (forceAll (value :: rest)).cut (n + 1) = (do
      let value ← forceDeep value
      let rest ← forceAll rest
      pure (value :: rest) : Chain Machine (List Value)).cut n :=
  cut_succ (fun _ => rfl) n

/-! ## Applying -/

/-- A closure binds its parameters and evaluates its body. -/
theorem apply_closure (ref : Nat) (function : Function) (env : Env) (args : List Value)
    (kwargs : Kwargs) (n : Nat) :
    (apply (.closure ref function env) args kwargs).cut (n + 1) = (do
      let scope ← lift (parameterScope function.signature env args kwargs)
      (eval function.body).bodyRun ⟨scope, function.signature.isLazy, none⟩ :
      Chain Machine Value).cut n :=
  cut_succ (fun _ => rfl) n

/-- A native checks its keywords and the number of its arguments. -/
theorem apply_native (op : Native) (args : List Value) (kwargs : Kwargs) (n : Nat) :
    (apply (.native op) args kwargs).cut (n + 1) = (do
      lift (noKwargs op.name kwargs)
      match op.arity with
      | none => applyNative op args
      | some expected =>
        if args.length = expected then applyNative op args
        else lift (Exec.fail (.arity op.name expected args.length)) : Chain Machine Value).cut
          n := by
  refine cut_succ (fun n => bind_congr fun _ => ?_) n
  cases op.arity with
  | none => rfl
  | some expected =>
    exact (upTo_ite (args.length = expected) (applyNative op args)
      (lift (Exec.fail (.arity op.name expected args.length))) n).symm

/-- A trampoline applies what is inside once and runs the jumps from there. -/
theorem apply_trampolined (inner : Callable) (variant : Variant) (args : List Value)
    (kwargs : Kwargs) (n : Nat) :
    (apply (.trampolined inner variant) args kwargs).cut (n + 1) = (do
      let first ← apply inner args kwargs
      trampoline variant first : Chain Machine Value).cut n :=
  cut_succ (fun _ => rfl) n

/-- The wrapper for continuations adds the identity where none is given. -/
theorem apply_contEnabled (inner : Callable) (args : List Value) (kwargs : Kwargs) (n : Nat) :
    (apply (.contEnabled inner) args kwargs).cut (n + 1) = (
      if kwargs.any isCc then apply inner args kwargs
      else do
        let identity ← lift Run.newIdentity
        apply inner args (kwargs ++ [(continuationParam, .func identity)]) :
        Chain Machine Value).cut n := by
  refine cut_succ (fun n => ?_) n
  exact (upTo_ite (kwargs.any isCc = true) (apply inner args kwargs)
    (lift Run.newIdentity >>= fun identity =>
      apply inner args (kwargs ++ [(continuationParam, .func identity)])) n).symm

/-- A continuation checks its extent, binds its variables and goes on with its body. -/
theorem apply_continuation (ref : Nat) (function : Function) (env : Env) (extent : Nat)
    (isLazy : Bool) (args : List Value) (kwargs : Kwargs) (n : Nat) :
    (apply (.continuation ref function env extent isLazy) args kwargs).cut (n + 1) = (do
      let valid ← lift (Run.extentValid extent)
      if !valid then lift (Exec.fail .continuationInvalidated)
      else do
        lift (noKwargs "continuation" kwargs)
        match resumeValues function.signature.params.length args with
        | .error error => lift (Exec.fail error)
        | .ok values => do
          let scope ← lift (bindValues function.signature.params values env)
          (eval function.body).bodyRun ⟨scope, isLazy, none⟩ : Chain Machine Value).cut n := by
  refine cut_succ (fun n => bind_congr fun valid => ?_) n
  cases valid with
  | false => rfl
  | true =>
    refine bind_congr fun _ => ?_
    show (match resumeValues function.signature.params.length args with
      | .error error => Exec.fail error
      | .ok values => do
        let scope ← bindValues function.signature.params values env
        Body.run (Trampoline.eval n function.body) ⟨scope, isLazy, none⟩ : Run Value) = _
    cases resumeValues function.signature.params.length args <;> rfl

/-- The identity packs what it is given. -/
theorem apply_identity (ref : Nat) (args : List Value) (kwargs : Kwargs) (n : Nat) :
    (apply (.identity ref) args kwargs).cut (n + 1) = (do
      lift (noKwargs "identity" kwargs)
      pure (.pack args) : Chain Machine Value).cut n :=
  cut_succ (fun _ => rfl) n

/-- A call runs the jump that applying comes to. -/
theorem call_eq (callable : Callable) (args : List Value) (kwargs : Kwargs) (n : Nat) :
    (call callable args kwargs).cut (n + 1) = (do
      let value ← apply callable args kwargs
      match value with
      | .jump ref => trampoline (Variant.of callable) (.jump ref)
      | value => pure value : Chain Machine Value).cut n :=
  cut_succ (fun _ => bind_congr fun value => by cases value <;> rfl) n

theorem trampoline_eq (variant : Variant) (first : Value) (n : Nat) :
    (trampoline variant first).cut (n + 1) = ((runJumps variant first).cut n).guarded :=
  (cut_succ (fun _ => rfl) n).trans (cut_guarded (runJumps variant first) n)

/-- A jump is followed by the next one. -/
theorem runJumps_jump (variant : Variant) (ref : Nat) (n : Nat) :
    (runJumps variant (.jump ref)).cut (n + 1) = (do
      let next ← takeStep variant ref
      runJumps variant next : Chain Machine Value).cut n :=
  cut_succ (fun n => Grows.runJumps_jump n variant ref) n

/-- What is no jump ends the jumps. -/
theorem runJumps_value (variant : Variant) (value : Value) (plain : ∀ ref, value ≠ .jump ref)
    (n : Nat) : (runJumps variant value).cut (n + 1) = pure value := by
  refine cut_succ_lift (fun n => ?_) n
  cases value with
  | jump ref => exact absurd rfl (plain ref)
  | _ => rfl

/-- What is left of taking a jump when its arguments are known. -/
def landing (jump : Jump) : Chain Machine Value :=
  let callee := jump.target.underTrampoline
  match jump.cc with
  | none => apply callee jump.args jump.kwargs
  | some cc =>
    if callee.acceptsCc then apply callee jump.args (replaceCc jump.kwargs cc)
    else if callee.isContinuation then apply callee jump.args jump.kwargs
    else do
      let result ← call jump.target jump.args jump.kwargs
      let next ← lift cc.callable
      lift (Run.newJump ⟨next, [result], [], none⟩)

/-- A step takes the jump, forces what a strict target must not see, and applies or hands over. -/
theorem takeStep_eq (variant : Variant) (ref : Nat) (n : Nat) :
    (takeStep variant ref).cut (n + 1) = (do
      let jump ← lift (Run.takeJump ref)
      let callee := jump.target.underTrampoline
      let forced ← forceForStrict variant callee jump.args jump.kwargs
      lift (Run.tell (.jumped callee))
      landing ⟨jump.target, forced.1, forced.2, jump.cc⟩ : Chain Machine Value).cut n := by
  refine cut_succ (fun n => bind_congr fun jump => bind_congr fun forced => ?_) n
  refine bind_congr fun _ => ?_
  obtain ⟨target, args, kwargs, cc⟩ := jump
  cases cc with
  | none => rfl
  | some cc =>
    simp only [landing]
    cases target.underTrampoline.acceptsCc with
    | true => rfl
    | false => cases target.underTrampoline.isContinuation <;> rfl

theorem forceForStrict_strict (callee : Callable) (args : List Value) (kwargs : Kwargs)
    (n : Nat) : (forceForStrict .strict callee args kwargs).cut (n + 1) = pure (args, kwargs) :=
  cut_succ_lift (fun _ => rfl) n

/-! ## Natives -/

theorem shownDeep_nil (n : Nat) : (shownDeep []).cut (n + 1) = pure [] :=
  cut_succ_lift (fun _ => rfl) n

/-- Values are shown from left to right, each forced deep before. -/
theorem shownDeep_cons (value : Value) (rest : List Value) (n : Nat) :
    (shownDeep (value :: rest)).cut (n + 1) = (do
      let value ← forceDeep value
      let shown ← lift (Exec.read fun m : Machine => m.display value)
      let others ← shownDeep rest
      pure (shown :: others) : Chain Machine (List String)).cut n :=
  cut_succ (fun _ => rfl) n

/-- Printing writes what is shown on a line. -/
theorem applyNative_print (args : List Value) (n : Nat) :
    (applyNative .print args).cut (n + 1) = (do
      let parts ← shownDeep args
      lift (Run.write (" ".intercalate parts ++ "\n"))
      pure .nil : Chain Machine Value).cut n :=
  cut_succ (fun _ => rfl) n

/-- A text is made of what is shown. -/
theorem applyNative_str (args : List Value) (n : Nat) :
    (applyNative .str args).cut (n + 1) = (do
      let parts ← shownDeep args
      pure (.str (String.join parts)) : Chain Machine Value).cut n :=
  cut_succ (fun _ => rfl) n

/-- An error is raised with what is shown. -/
theorem applyNative_raise (args : List Value) (n : Nat) :
    (applyNative .raise args).cut (n + 1) = (do
      let parts ← shownDeep args
      lift (Exec.fail (.raised (String.join parts))) : Chain Machine Value).cut n :=
  cut_succ (fun _ => rfl) n

/-- An assertion compares what both sides are deep inside. -/
theorem applyNative_assertEq (args : List Value) (n : Nat) :
    (applyNative .assertEq args).cut (n + 1) = (do
      let left ← forceDeep (Native.two args).1
      let right ← forceDeep (Native.two args).2
      lift (do
        let equal ← Exec.read fun m : Machine => m.equal left right
        if equal then pure .nil
        else do
          let shown ← Exec.read fun m : Machine => (m.repr left, m.repr right)
          Exec.fail (.assertionFailed shown.1 shown.2)) : Chain Machine Value).cut n :=
  cut_succ (fun _ => rfl) n

theorem applyNative_force (args : List Value) (n : Nat) :
    (applyNative .force args).cut (n + 1) = (force (Native.one args)).cut n :=
  cut_succ (fun _ => rfl) n

theorem applyNative_forceDeep (args : List Value) (n : Nat) :
    (applyNative .forceDeep args).cut (n + 1) = (forceDeep (Native.one args)).cut n :=
  cut_succ (fun _ => rfl) n

/-- A handler gets the message of the error that its thunk failed with. -/
theorem applyNative_attempt (args : List Value) (n : Nat) :
    (applyNative .attempt args).cut (n + 1) = (do
      let thunk ← lift (Native.two args).1.callable
      let handler ← lift (Native.two args).2.callable
      (call thunk [] []).guarded.settle fun
        | .ok value => pure value
        | .error error => do
          let passes ← lift (Exec.read fun m : Machine => error.isEscape || m.passed error)
          if passes then lift (Exec.fail error)
          else do
            lift (Run.tell (.caught error.message))
            call handler [.str error.message] [] : Chain Machine Value).cut n := by
  refine cut_succ (fun n => ?_) n
  refine (Grows.applyAttempt_eq n args).trans (bind_congr fun thunk => bind_congr fun handler => ?_)
  refine congrArg (Exec.settle _) (funext fun result => ?_)
  cases result with
  | ok value => rfl
  | error error => exact bind_congr fun passes => by cases passes <;> rfl

/-- The other natives only compute. -/
theorem applyNative_compute (op : Native) (args : List Value) (run : Run Value)
    (computes : op.compute? args = some run) (n : Nat) :
    (applyNative op args).cut (n + 1) = .lift run := by
  refine cut_succ_lift (fun n => ?_) n
  cases op <;> first | cases computes; done | exact Option.some.inj computes

end Chain

end Trampoline
