import Trampoline.Machine.Program
import Trampoline.Proofs.Evaluation.Order

/-!
# More fuel keeps every answer

Each function of the evaluator, given one more unit of fuel, gives every answer that it gave
before. All of them are built from the same functions at one unit less by operations that keep the
order of computations, so the statement for all of them follows from the one below.
-/

namespace Trampoline

open Exec

/-- All functions of the evaluator keep their answers when the fuel grows from `n` by one. -/
structure Grows (n : Nat) : Prop where
  eval : ∀ e, eval n e ≤ eval (n + 1) e
  evalForced : ∀ e, evalForced n e ≤ evalForced (n + 1) e
  evalContinuation : ∀ cc, evalContinuation n cc ≤ evalContinuation (n + 1) cc
  operand : ∀ policy e, operand n policy e ≤ operand (n + 1) policy e
  delayed : ∀ e, delayed n e ≤ delayed (n + 1) e
  operands : ∀ policy es, operands n policy es ≤ operands (n + 1) policy es
  keywords : ∀ policy es, keywords n policy es ≤ keywords (n + 1) policy es
  evalArms : ∀ arms alt, evalArms n arms alt ≤ evalArms (n + 1) arms alt
  evalShort : ∀ op es last, evalShort n op es last ≤ evalShort (n + 1) op es last
  evalItems : ∀ es last, evalItems n es last ≤ evalItems (n + 1) es last
  evalLoop : ∀ test body, evalLoop n test body ≤ evalLoop (n + 1) test body
  force : ∀ value, force n value ≤ force (n + 1) value
  runThunk : ∀ thunk, runThunk n thunk ≤ runThunk (n + 1) thunk
  forceDeep : ∀ value, forceDeep n value ≤ forceDeep (n + 1) value
  forceAll : ∀ values, forceAll n values ≤ forceAll (n + 1) values
  apply : ∀ callable args kwargs, apply n callable args kwargs ≤ apply (n + 1) callable args kwargs
  call : ∀ callable args kwargs, call n callable args kwargs ≤ call (n + 1) callable args kwargs
  trampoline : ∀ variant first, trampoline n variant first ≤ trampoline (n + 1) variant first
  runJumps : ∀ variant current, runJumps n variant current ≤ runJumps (n + 1) variant current
  takeStep : ∀ variant ref, takeStep n variant ref ≤ takeStep (n + 1) variant ref
  forceForStrict : ∀ variant callee args kwargs,
    forceForStrict n variant callee args kwargs ≤ forceForStrict (n + 1) variant callee args kwargs
  forceArgs : ∀ args, forceArgs n args ≤ forceArgs (n + 1) args
  forceKwargs : ∀ kwargs, forceKwargs n kwargs ≤ forceKwargs (n + 1) kwargs
  forceKeys : ∀ args, forceKeys n args ≤ forceKeys (n + 1) args
  forceKwargKeys : ∀ kwargs, forceKwargKeys n kwargs ≤ forceKwargKeys (n + 1) kwargs
  shownDeep : ∀ values, shownDeep n values ≤ shownDeep (n + 1) values
  applyNative : ∀ op args, applyNative n op args ≤ applyNative (n + 1) op args

theorem grows_zero : Grows 0 := by
  constructor <;> intros <;> exact outOfFuel_le _

namespace Grows

variable {n : Nat}

/-- An expression ends wherever it ended with less fuel. -/
theorem eval_succ (less : Grows n) (e : Expr) :
    Trampoline.eval (n + 1) e ≤ Trampoline.eval (n + 2) e := by
  cases e with
  | lit mark value => exact le_refl _
  | var mark name =>
    refine bind_le (le_refl _) fun value => bind_le (le_refl _) fun isLazy => ?_
    cases isLazy with
    | false => exact le_refl _
    | true => exact within_le (less.force value)
  | fn mark signature body => exact le_refl _
  | call mark func args kwargs =>
    refine bind_le (less.evalForced func) fun value => bind_le (le_refl _) fun callee => ?_
    refine bind_le (le_refl _) fun isLazy => bind_le (less.operands _ args) fun values => ?_
    exact bind_le (less.keywords _ kwargs) fun named => within_le (less.apply callee values named)
  | cond mark arms alt => exact less.evalArms arms alt
  | short mark op operands => exact less.evalShort op operands _
  | seq mark items => exact inBlock_le (less.evalItems items _)
  | bind mark name bindee =>
    cases bindee with
    | fn inner signature body =>
      refine bind_le (le_refl _) fun ref => bind_le (le_refl _) fun _ => ?_
      exact bind_le (less.eval _) fun _ => le_refl _
    | _ => exact bind_le (less.operand _ _) fun _ => le_refl _
  | assign mark name bindee => exact bind_le (less.operand _ bindee) fun _ => le_refl _
  | loop mark test body => exact less.evalLoop test body
  | jump mark func args kwargs cc =>
    refine bind_le (less.evalForced func) fun value => bind_le (le_refl _) fun target => ?_
    refine bind_le (less.operands _ args) fun values =>
      bind_le (less.keywords _ kwargs) fun named => ?_
    exact bind_le (less.evalContinuation cc) fun _ => le_refl _
  | capture mark binders e => exact le_refl _

theorem evalForced_succ (less : Grows n) (e : Expr) :
    Trampoline.evalForced (n + 1) e ≤ Trampoline.evalForced (n + 2) e :=
  bind_le (less.eval e) fun value => within_le (less.force value)

/-- So does the continuation of a jump. -/
theorem evalContinuation_succ (less : Grows n) (cc : Option Expr) :
    Trampoline.evalContinuation (n + 1) cc ≤ Trampoline.evalContinuation (n + 2) cc := by
  cases cc with
  | none => exact le_refl _
  | some e => exact bind_le (less.evalForced e) fun _ => le_refl _

/-- So does an operand. -/
theorem operand_succ (less : Grows n) (policy : Policy) (e : Expr) :
    Trampoline.operand (n + 1) policy e ≤ Trampoline.operand (n + 2) policy e := by
  refine bind_le (le_refl _) fun isLazy => ?_
  cases isLazy with
  | false => exact less.eval e
  | true =>
    cases policy with
    | strict => exact less.evalForced e
    | delay => exact less.delayed e

theorem delayed_succ (less : Grows n) (e : Expr) :
    Trampoline.delayed (n + 1) e ≤ Trampoline.delayed (n + 2) e := by
  cases e with
  | lit | fn => exact less.eval _
  | _ => exact le_refl _

/-- Operands do so one by one. -/
theorem operands_succ (less : Grows n) (policy : Policy) (es : List Expr) :
    Trampoline.operands (n + 1) policy es ≤ Trampoline.operands (n + 2) policy es := by
  cases es with
  | nil => exact le_refl _
  | cons e rest =>
    exact bind_le (less.operand policy e) fun _ =>
      bind_le (less.operands policy rest) fun _ => le_refl _

theorem keywords_succ (less : Grows n) (policy : Policy) (es : List (String × Expr)) :
    Trampoline.keywords (n + 1) policy es ≤ Trampoline.keywords (n + 2) policy es := by
  cases es with
  | nil => exact le_refl _
  | cons e rest =>
    exact bind_le (less.operand policy e.2) fun _ =>
      bind_le (less.keywords policy rest) fun _ => le_refl _

/-- Arms do, whichever is taken. -/
theorem evalArms_succ (less : Grows n) (arms : List (Expr × Expr)) (alt : Option Expr) :
    Trampoline.evalArms (n + 1) arms alt ≤ Trampoline.evalArms (n + 2) arms alt := by
  cases arms with
  | nil =>
    cases alt with
    | none => exact le_refl _
    | some e => exact less.eval e
  | cons arm rest =>
    exact bind_le (less.evalForced arm.1) fun _ => ite_le (less.eval arm.2) (less.evalArms rest alt)

/-- Operands of a connective do. -/
theorem evalShort_succ (less : Grows n) (op : Connective) (es : List Expr) (last : Value) :
    Trampoline.evalShort (n + 1) op es last ≤ Trampoline.evalShort (n + 2) op es last := by
  cases es with
  | nil => exact le_refl _
  | cons e rest =>
    exact bind_le (less.evalForced e) fun value => ite_le (le_refl _) (less.evalShort op rest value)

/-- Items of a block do. -/
theorem evalItems_succ (less : Grows n) (es : List Expr) (last : Value) :
    Trampoline.evalItems (n + 1) es last ≤ Trampoline.evalItems (n + 2) es last := by
  cases es with
  | nil => exact le_refl _
  | cons e rest => exact bind_le (less.eval e) fun value => less.evalItems rest value

/-- One turn of a loop, and the other turns after it. -/
theorem evalLoop_eq (n : Nat) (test body : Expr) :
    Trampoline.evalLoop (n + 1) test body = (do
      let value ← Trampoline.evalForced n test
      if value.truthy then do
        let _ ← Trampoline.eval n body
        Trampoline.evalLoop n test body
      else pure .nil) := by
  funext activation
  show Trampoline.evalLoop (n + 1) test body activation = Exec.bind _ _ activation
  rw [Trampoline.evalLoop]
  unfold Exec.bind
  rcases Trampoline.evalForced n test activation with _ | ⟨_ | value, middle⟩
  · rfl
  · rfl
  · by_cases holds : value.truthy
    · simp only [holds, if_true]
      show _ = Exec.bind _ _ middle
      unfold Exec.bind
      rcases Trampoline.eval n body middle with _ | ⟨_ | _, _⟩ <;> rfl
    · simp only [holds]
      rfl

/-- A loop does, each round with less fuel than the one before. -/
theorem evalLoop_succ (less : Grows n) (test body : Expr) :
    Trampoline.evalLoop (n + 1) test body ≤ Trampoline.evalLoop (n + 2) test body := by
  rw [evalLoop_eq, evalLoop_eq]
  refine bind_le (less.evalForced test) fun value => ite_le ?_ (le_refl _)
  exact bind_le (less.eval body) fun _ => less.evalLoop test body

/-- What a force comes to with fuel left, by the state of the promise. -/
def forceOf (n ref : Nat) (m : Machine) : Promise -> Option (Outcome Machine Value)
  | .forced value => some (.ok value, m)
  | .forcing => some (.error .recursiveForce, m)
  | .pending thunk =>
    match (do
        Run.setPromise ref .forcing
        Run.tell .forcing
        let value ← Trampoline.runThunk n thunk
        Trampoline.force n value : Run Value) m with
    | none => none
    | some (.ok value, m) => (do Run.setPromise ref (.forced value); pure value : Run Value) m
    | some (.error error, m) =>
      (do Run.setPromise ref (.pending thunk); Exec.fail error : Run Value) m

/-- A promise with its value answers it; a running one fails; a pending one is computed, and
remembers its value or waits again. -/
theorem force_promise (n : Nat) (ref : Nat) :
    Trampoline.force (n + 1) (.promise ref) = fun m =>
      match m.promise ref with
      | .forced value => (pure value : Run Value) m
      | .forcing => (Exec.fail .recursiveForce : Run Value) m
      | .pending thunk =>
        settle
          (do
            Run.setPromise ref .forcing
            Run.tell .forcing
            let value ← Trampoline.runThunk n thunk
            Trampoline.force n value : Run Value)
          (fun
            | .ok value => do
              Run.setPromise ref (.forced value)
              pure value
            | .error error => do
              Run.setPromise ref (.pending thunk)
              Exec.fail error) m := by
  funext m
  have opened : Trampoline.force (n + 1) (.promise ref) m = forceOf n ref m (m.promise ref) := rfl
  rw [opened]
  cases m.promise ref with
  | forced value => rfl
  | forcing => rfl
  | pending thunk =>
    simp only [forceOf, settle]
    split <;> simp_all

/-- A value that is no promise is forced with any fuel. -/
theorem force_value (n : Nat) (value : Value) (plain : ∀ ref, value ≠ .promise ref) :
    Trampoline.force (n + 1) value = pure value := by
  cases value with
  | promise ref => exact absurd rfl (plain ref)
  | _ => rfl

/-- A force ends wherever it ended with less fuel. -/
theorem force_succ (less : Grows n) (value : Value) :
    Trampoline.force (n + 1) value ≤ Trampoline.force (n + 2) value := by
  cases value with
  | promise ref =>
    rw [force_promise, force_promise]
    intro m outcome ended
    cases state : m.promise ref with
    | pending thunk =>
      simp only [state] at ended ⊢
      refine settle_le ?_ (fun _ => le_refl _) m outcome ended
      refine bind_le (le_refl _) fun _ => bind_le (le_refl _) fun _ => ?_
      exact bind_le (less.runThunk thunk) fun value => less.force value
    | _ =>
      simp only [state] at ended ⊢
      exact ended
  | _ =>
    exact le_of_eq ((force_value n _ (by simp)).trans (force_value (n + 1) _ (by simp)).symm)

/-- So does a thunk. -/
theorem runThunk_succ (less : Grows n) (thunk : Thunk) :
    Trampoline.runThunk (n + 1) thunk ≤ Trampoline.runThunk (n + 2) thunk := by
  cases thunk with
  | expr e env => exact bodyRun_le (less.eval e) _
  | global name =>
    refine bind_le (le_refl _) fun value => ?_
    cases value with
    | none => exact le_refl _
    | some value =>
      cases value with
      | func callable => exact less.call callable [] []
      | _ => exact less.force _

/-- So does a deep force. -/
theorem forceDeep_succ (less : Grows n) (value : Value) :
    Trampoline.forceDeep (n + 1) value ≤ Trampoline.forceDeep (n + 2) value := by
  refine bind_le (less.force value) fun value => ?_
  cases value with
  | list ref =>
    exact bind_le (le_refl _) fun items => bind_le (less.forceAll _) fun _ => le_refl _
  | tuple items => exact bind_le (less.forceAll items) fun _ => le_refl _
  | _ => exact le_refl _

theorem forceAll_succ (less : Grows n) (values : List Value) :
    Trampoline.forceAll (n + 1) values ≤ Trampoline.forceAll (n + 2) values := by
  cases values with
  | nil => exact le_refl _
  | cons value rest =>
    exact bind_le (less.forceDeep value) fun _ => bind_le (less.forceAll rest) fun _ => le_refl _

/-- Entering an escape point runs what is inside, and ends the point on every way out. -/
theorem applyPoint_eq (n : Nat) (inner : Callable) (args : List Value) (kwargs : Kwargs) :
    Trampoline.apply (n + 1) (.escapePoint inner) args kwargs = (do
      let tag ← Run.enterPoint
      settle (Trampoline.apply n inner (.func (.escape tag) :: args) kwargs) fun
        | .ok value => do
          Exec.modify (Run.leavePoint tag)
          pure value
        | .error (.escape target value) =>
          if target = tag then do
            Exec.modify (Run.leavePoint tag)
            Run.tell (.escaped tag)
            pure value
          else do
            Exec.modify (Run.leavePoint tag)
            Exec.fail (.escape target value)
        | .error error => do
          Exec.modify (Run.leavePoint tag)
          Exec.fail error) := by
  rw [Trampoline.apply]
  refine congrArg _ (funext fun tag => funext fun m => ?_)
  simp only [settle]
  rcases Trampoline.apply n inner (.func (.escape tag) :: args) kwargs m with _ | ⟨error | _, last⟩
  · rfl
  · cases error with
    | escape target value =>
      by_cases same : target = tag
      · simp only [same, if_true]
        rfl
      · simp only [same, if_false]
        rfl
    | _ => rfl
  · rfl

/-- Applying a callable ends wherever it ended with less fuel. -/
theorem apply_succ (less : Grows n) (callable : Callable) (args : List Value) (kwargs : Kwargs) :
    Trampoline.apply (n + 1) callable args kwargs ≤
      Trampoline.apply (n + 2) callable args kwargs := by
  cases callable with
  | closure ref function env =>
    exact bind_le (le_refl _) fun scope => bodyRun_le (less.eval _) _
  | native op =>
    refine bind_le (le_refl _) fun _ => ?_
    cases arity : op.arity with
    | none => exact less.applyNative op args
    | some expected => exact ite_le (less.applyNative op args) (le_refl _)
  | trampolined inner variant =>
    exact bind_le (less.apply inner args kwargs) fun first => less.trampoline variant first
  | memoized inner cache =>
    refine bind_le (less.forceKeys args) fun keyed =>
      bind_le (less.forceKwargKeys kwargs) fun named => ?_
    refine bind_le (le_refl _) fun hit => ?_
    cases hit with
    | some value => exact le_refl _
    | none => exact bind_le (less.call inner _ _) fun _ => le_refl _
  | looped inner =>
    refine bind_le (le_refl _) fun ref => ?_
    exact bind_le (less.apply inner _ kwargs) fun first => less.trampoline _ first
  | loopHandle ref inner => exact le_refl _
  | escapePoint inner =>
    rw [applyPoint_eq, applyPoint_eq]
    exact bind_le (le_refl _) fun tag => settle_le (less.apply inner _ kwargs) fun _ => le_refl _
  | escape tag => exact le_refl _
  | contEnabled inner =>
    refine ite_le (less.apply inner args kwargs) ?_
    exact bind_le (le_refl _) fun identity => less.apply inner args _
  | lazyFn inner => exact less.apply inner args kwargs
  | continuation ref function env extent isLazy =>
    simp only [Trampoline.apply]
    refine bind_le (le_refl _) fun valid => ite_le (le_refl _) ?_
    refine bind_le (le_refl _) fun _ => ?_
    cases resumeValues function.signature.params.length args with
    | error error => exact le_refl _
    | ok values => exact bind_le (le_refl _) fun scope => bodyRun_le (less.eval _) _
  | identity ref => exact le_refl _

/-- So does calling one. -/
theorem call_succ (less : Grows n) (callable : Callable) (args : List Value) (kwargs : Kwargs) :
    Trampoline.call (n + 1) callable args kwargs ≤
      Trampoline.call (n + 2) callable args kwargs := by
  refine bind_le (less.apply callable args kwargs) fun value => ?_
  cases value with
  | jump ref => exact less.trampoline _ _
  | _ => exact le_refl _

theorem trampoline_succ (less : Grows n) (variant : Variant) (first : Value) :
    Trampoline.trampoline (n + 1) variant first ≤ Trampoline.trampoline (n + 2) variant first :=
  guarded_le (less.runJumps variant first)

/-- A jump is taken, and what comes of it goes on. -/
theorem runJumps_jump (n : Nat) (variant : Variant) (ref : Nat) :
    Trampoline.runJumps (n + 1) variant (.jump ref) = (do
      let next ← Trampoline.takeStep n variant ref
      Trampoline.runJumps n variant next) := by
  funext m
  simp only [Trampoline.runJumps]
  show _ = Exec.bind _ _ m
  unfold Exec.bind
  rcases Trampoline.takeStep n variant ref m with _ | ⟨_ | _, _⟩ <;> rfl

/-- Jumps are run to the same end with more fuel. -/
theorem runJumps_succ (less : Grows n) (variant : Variant) (current : Value) :
    Trampoline.runJumps (n + 1) variant current ≤ Trampoline.runJumps (n + 2) variant current := by
  cases current with
  | jump ref =>
    rw [runJumps_jump, runJumps_jump]
    exact bind_le (less.takeStep variant ref) fun next => less.runJumps variant next
  | _ => exact le_refl _

/-- So is a single step. -/
theorem takeStep_succ (less : Grows n) (variant : Variant) (ref : Nat) :
    Trampoline.takeStep (n + 1) variant ref ≤ Trampoline.takeStep (n + 2) variant ref := by
  refine bind_le (le_refl _) fun jump => ?_
  refine bind_le (less.forceForStrict variant _ jump.args jump.kwargs) fun forced => ?_
  refine bind_le (le_refl _) fun _ => ?_
  cases jump.cc with
  | none => exact less.apply _ _ _
  | some cc =>
    refine ite_le (less.apply _ _ _) (ite_le (less.apply _ _ _) ?_)
    exact bind_le (less.call _ _ _) fun _ => le_refl _

/-- What a strict target is given is forced alike. -/
theorem forceForStrict_succ (less : Grows n) (variant : Variant) (callee : Callable)
    (args : List Value) (kwargs : Kwargs) :
    Trampoline.forceForStrict (n + 1) variant callee args kwargs ≤
      Trampoline.forceForStrict (n + 2) variant callee args kwargs := by
  refine ite_le ?_ (le_refl _)
  exact bind_le (less.forceArgs args) fun _ => bind_le (less.forceKwargs kwargs) fun _ => le_refl _

theorem forceArgs_succ (less : Grows n) (args : List Value) :
    Trampoline.forceArgs (n + 1) args ≤ Trampoline.forceArgs (n + 2) args := by
  cases args with
  | nil => exact le_refl _
  | cons value rest =>
    exact bind_le (less.force value) fun _ => bind_le (less.forceArgs rest) fun _ => le_refl _

theorem forceKwargs_succ (less : Grows n) (kwargs : Kwargs) :
    Trampoline.forceKwargs (n + 1) kwargs ≤ Trampoline.forceKwargs (n + 2) kwargs := by
  cases kwargs with
  | nil => exact le_refl _
  | cons named rest =>
    exact bind_le (less.force named.2) fun _ => bind_le (less.forceKwargs rest) fun _ => le_refl _

theorem forceKeys_succ (less : Grows n) (args : List Value) :
    Trampoline.forceKeys (n + 1) args ≤ Trampoline.forceKeys (n + 2) args := by
  cases args with
  | nil => exact le_refl _
  | cons value rest =>
    refine bind_le (less.force value) fun value => ?_
    cases value.memoKey? with
    | none => exact le_refl _
    | some key => exact bind_le (less.forceKeys rest) fun _ => le_refl _

theorem forceKwargKeys_succ (less : Grows n) (kwargs : Kwargs) :
    Trampoline.forceKwargKeys (n + 1) kwargs ≤ Trampoline.forceKwargKeys (n + 2) kwargs := by
  cases kwargs with
  | nil => exact le_refl _
  | cons named rest =>
    refine bind_le (less.force named.2) fun value => ?_
    cases value.memoKey? with
    | none => exact le_refl _
    | some key => exact bind_le (less.forceKwargKeys rest) fun _ => le_refl _

theorem shownDeep_succ (less : Grows n) (values : List Value) :
    Trampoline.shownDeep (n + 1) values ≤ Trampoline.shownDeep (n + 2) values := by
  cases values with
  | nil => exact le_refl _
  | cons value rest =>
    refine bind_le (less.forceDeep value) fun _ => bind_le (le_refl _) fun _ => ?_
    exact bind_le (less.shownDeep rest) fun _ => le_refl _

/-- A handler gets every error of the guarded call but those that pass. -/
theorem applyAttempt_eq (n : Nat) (args : List Value) :
    Trampoline.applyNative (n + 1) .attempt args = (do
      let thunk ← (Native.two args).1.callable
      let handler ← (Native.two args).2.callable
      settle (Run.guarded (Trampoline.call n thunk [] [])) fun
        | .ok value => pure value
        | .error error => do
          let passes ← Exec.read fun m : Machine => error.isEscape || m.passed error
          if passes then Exec.fail error
          else do
            Run.tell (.caught error.message)
            Trampoline.call n handler [.str error.message] []) := by
  rw [Trampoline.applyNative]
  refine congrArg ((Native.two args).1.callable >>= ·) (funext fun thunk => ?_)
  refine congrArg ((Native.two args).2.callable >>= ·) (funext fun handler => funext fun m => ?_)
  simp only [settle]
  rcases Run.guarded (Trampoline.call n thunk [] []) m with _ | ⟨error | _, last⟩
  · rfl
  · show _ = (if error.isEscape || last.passed error then (Exec.fail error : Run Value)
      else do
        Run.tell (.caught error.message)
        Trampoline.call n handler [.str error.message] []) last
    by_cases passes : error.isEscape || last.passed error
    · simp only [passes, if_true]
      rfl
    · simp only [passes]
      rfl
  · rfl

/-- A native ends wherever it ended with less fuel. -/
theorem applyNative_succ (less : Grows n) (op : Native) (args : List Value) :
    Trampoline.applyNative (n + 1) op args ≤ Trampoline.applyNative (n + 2) op args := by
  cases op with
  | print | str | raise => exact bind_le (less.shownDeep args) fun _ => le_refl _
  | assertEq =>
    exact bind_le (less.forceDeep _) fun _ => bind_le (less.forceDeep _) fun _ => le_refl _
  | force => exact less.force _
  | forceDeep => exact less.forceDeep _
  | attempt =>
    rw [applyAttempt_eq, applyAttempt_eq]
    refine bind_le (le_refl _) fun thunk => bind_le (le_refl _) fun handler => ?_
    refine settle_le (guarded_le (less.call thunk [] [])) fun result => ?_
    cases result with
    | ok value => exact le_refl _
    | error error =>
      refine bind_le (le_refl _) fun passes => ite_le (le_refl _) ?_
      exact bind_le (le_refl _) fun _ => less.call handler _ []
  | _ => exact le_refl _

theorem succ (less : Grows n) : Grows (n + 1) where
  eval := less.eval_succ
  evalForced := less.evalForced_succ
  evalContinuation := less.evalContinuation_succ
  operand := less.operand_succ
  delayed := less.delayed_succ
  operands := less.operands_succ
  keywords := less.keywords_succ
  evalArms := less.evalArms_succ
  evalShort := less.evalShort_succ
  evalItems := less.evalItems_succ
  evalLoop := less.evalLoop_succ
  force := less.force_succ
  runThunk := less.runThunk_succ
  forceDeep := less.forceDeep_succ
  forceAll := less.forceAll_succ
  apply := less.apply_succ
  call := less.call_succ
  trampoline := less.trampoline_succ
  runJumps := less.runJumps_succ
  takeStep := less.takeStep_succ
  forceForStrict := less.forceForStrict_succ
  forceArgs := less.forceArgs_succ
  forceKwargs := less.forceKwargs_succ
  forceKeys := less.forceKeys_succ
  forceKwargKeys := less.forceKwargKeys_succ
  shownDeep := less.shownDeep_succ
  applyNative := less.applyNative_succ

end Grows

/-- More fuel keeps every answer. -/
theorem grows (n : Nat) : Grows n := by
  induction n with
  | zero => exact grows_zero
  | succ n less => exact less.succ

end Trampoline
