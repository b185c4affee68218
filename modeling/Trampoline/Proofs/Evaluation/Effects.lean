import Mathlib.Logic.Relation
import Trampoline.Proofs.Evaluation.Stacks

/-!
# What evaluation does to the machine

The machine is changed by a few effects, and each task has few of them at its disposal: only the
force of a promise settles one, only the native for it pushes onto a list, only a deep force
replaces the items of one, and only a memoized function adds to its cache. So what the effects of
all tasks preserve holds along every run.
-/

namespace Trampoline

open Exec

/-- One change of the machine. -/
inductive Effect where
  | tell (event : Event)
  | newCell (value : Value)
  | setCell (ref : CellRef) (value : Value)
  | newList (items : List Value)
  | setItems (ref : Nat) (items : List Value)
  | pushItem (ref : Nat) (value : Value)
  | newPromise (thunk : Thunk)
  | setPromise (ref : Nat) (state : Promise)
  | newJump (jump : Jump)
  /-- A jump is taken. -/
  | takeJump (ref : Nat)
  | newCache
  | remember (cache : Nat) (key : List MemoKey) (value : Value)
  | enterPoint
  | leavePoint (tag : Nat)
  /-- A running body gets the extent of its continuations. -/
  | capture
  | newClosure
  | newHandle
  | newContinuation
  | newIdentity
  | write (text : String)
  | define (name : String) (value : Value)

namespace Effect

/-- The machine with the change. -/
def on (effect : Effect) (m : Machine) : Machine :=
  match effect with
  | tell event => { m with trace := event :: m.trace }
  | newCell value => { m with cells := m.cells.push value }
  | setCell ref value => { m with cells := m.cells.setIfInBounds ref value }
  | newList items => { m with lists := m.lists.push items.toArray }
  | setItems ref items => { m with lists := m.lists.setIfInBounds ref items.toArray }
  | pushItem ref value => { m with lists := m.lists.modify ref fun items => items.push value }
  | newPromise thunk => { m with promises := m.promises.push (.pending thunk) }
  | setPromise ref state => { m with promises := m.promises.setIfInBounds ref state }
  | newJump jump => { m with jumps := m.jumps.push (.pending jump) }
  | takeJump ref => { m with jumps := m.jumps.setIfInBounds ref .consumed }
  | newCache => { m with caches := m.caches.push [] }
  | remember cache key value =>
    { m with caches := m.caches.modify cache fun entries => ⟨key, value⟩ :: entries }
  | enterPoint => { m with points := m.points.push true }
  | leavePoint tag => Run.leavePoint tag m
  | capture =>
    { m with extents := m.extents.push true, stack := m.stack.push m.extents.size }
  | newClosure => { m with closures := m.closures + 1 }
  | newHandle => { m with handles := m.handles + 1 }
  | newContinuation => { m with continuations := m.continuations + 1 }
  | newIdentity => { m with identities := m.identities + 1 }
  | write text => { m with output := m.output ++ text }
  | define name value => m.define name value

/-- The change leaves the lists, promises and cache entries that there are as they are. -/
def Quiet : Effect -> Prop
  | setItems .. | pushItem .. | setPromise .. | remember .. => False
  | _ => True

end Effect

/-- The effects at the disposal of a task. -/
def Task.allows (task : Task) : Effect -> Prop
  | .setItems _ _ => ∃ value, task = .forceDeep value
  | .pushItem _ _ => ∃ args, task = .applyNative .push args
  | .setPromise ref _ => task = .force (.promise ref)
  | .remember cache _ _ => ∃ inner args kwargs, task = .apply (.memoized inner cache) args kwargs
  | _ => True

/-- Every task may have effects that are quiet. -/
theorem Task.allows_of_quiet {task : Task} {effect : Effect} (quiet : effect.Quiet) :
    task.allows effect := by
  cases effect with
  | setItems | pushItem | setPromise | remember => exact quiet.elim
  | _ => trivial

/-- From one machine to the other by effects of a kind. -/
def Machine.Undergoes (allows : Effect -> Prop) : Machine -> Machine -> Prop :=
  Relation.ReflTransGen fun m m' => ∃ effect, allows effect ∧ m' = effect.on m

/-! ## Steps -/

/-- A step has effects of the kind only. -/
def Exec.Does {α : Type} (allows : Effect -> Prop) (run : Run α) : Prop :=
  ∀ m result m', run m = some (result, m') -> m.Undergoes allows m'

namespace Exec.Does

variable {α β : Type} {allows : Effect -> Prop}

/-- A value has no effects. -/
@[simp] theorem pure (value : α) : Does allows (pure value) := by
  rintro m result m' ⟨⟩
  exact .refl

/-- Nor has a failure. -/
@[simp] theorem fail (error : EvalError) : Does allows (fail error : Run α) := by
  rintro m result m' ⟨⟩
  exact .refl

/-- Nor has reading. -/
@[simp] theorem read (view : Machine -> α) : Does allows (read view) := by
  rintro m result m' ⟨⟩
  exact .refl

variable {run first : Run α}

/-- A step with one effect. -/
theorem of_effect {answer : Machine -> α} (effect : Effect) (allowed : allows effect)
    (does : ∀ m, run m = some (.ok (answer m), effect.on m)) : Does allows run := by
  intro m result m' ends
  cases (does m).symm.trans ends
  exact .single ⟨effect, allowed, rfl⟩

/-- Steps one after another have the effects of both. -/
theorem bind {next : α -> Run β} (does : Does allows first)
    (after : ∀ value, Does allows (next value)) : Does allows (first >>= next) := by
  intro m result m' ends
  rcases bind_eq_some.mp ends with ⟨value, middle, ran, rest⟩ | ⟨error, last, ran, equal⟩
  · exact (does m _ _ ran).trans (after value middle _ _ rest)
  · cases equal
    exact does m _ _ ran

/-- A choice has the effects of either way. -/
theorem ite {test : Prop} [Decidable test] {second : Run α} (does : Does allows first)
    (does' : Does allows second) : Does allows (if test then first else second) := by
  split
  · exact does
  · exact does'

/-- What has only some effects has no others than more. -/
theorem imp {allows' : Effect -> Prop} (does : Does allows run)
    (implies : ∀ effect, allows effect -> allows' effect) : Does allows' run := by
  intro m result m' ends
  refine Relation.ReflTransGen.mono ?_ _ _ (does m result m' ends)
  rintro first second ⟨effect, allowed, rfl⟩
  exact ⟨effect, implies effect allowed, rfl⟩

/-! ### Quiet steps -/

@[simp] theorem tell (event : Event) : Does Effect.Quiet (Run.tell event) :=
  of_effect (.tell event) trivial fun _ => rfl
/-- Making a cell is quiet. -/
@[simp] theorem newCell (value : Value) : Does Effect.Quiet (Run.newCell value) :=
  of_effect (.newCell value) trivial fun _ => rfl
@[simp] theorem setCell (ref : CellRef) (value : Value) :
    Does Effect.Quiet (Run.setCell ref value) :=
  of_effect (.setCell ref value) trivial fun _ => rfl
@[simp] theorem newList (items : List Value) : Does Effect.Quiet (Run.newList items) :=
  of_effect (.newList items) trivial fun _ => rfl
@[simp] theorem newPromise (thunk : Thunk) : Does Effect.Quiet (Run.newPromise thunk) :=
  of_effect (.newPromise thunk) trivial fun _ => rfl
/-- Making a jump is quiet. -/
@[simp] theorem newJump (jump : Jump) : Does Effect.Quiet (Run.newJump jump) :=
  of_effect (.newJump jump) trivial fun _ => rfl
@[simp] theorem newCache : Does Effect.Quiet Run.newCache :=
  of_effect .newCache trivial fun _ => rfl
@[simp] theorem enterPoint : Does Effect.Quiet Run.enterPoint :=
  of_effect .enterPoint trivial fun _ => rfl
/-- Leaving a point is quiet. -/
@[simp] theorem leavePoint (tag : Nat) :
    Does Effect.Quiet (Exec.modify (Run.leavePoint tag)) :=
  of_effect (.leavePoint tag) trivial fun _ => rfl
@[simp] theorem newClosure : Does Effect.Quiet Run.newClosure :=
  of_effect .newClosure trivial fun _ => rfl
@[simp] theorem newHandle : Does Effect.Quiet Run.newHandle :=
  of_effect .newHandle trivial fun _ => rfl
@[simp] theorem newContinuation : Does Effect.Quiet Run.newContinuation :=
  of_effect .newContinuation trivial fun _ => rfl
@[simp] theorem newIdentity : Does Effect.Quiet Run.newIdentity :=
  of_effect .newIdentity trivial fun _ => rfl
/-- Defining a global is quiet. -/
@[simp] theorem define (name : String) (value : Value) :
    Does Effect.Quiet (Exec.modify fun m : Machine => m.define name value) :=
  of_effect (.define name value) trivial fun _ => rfl

@[simp] theorem callable (value : Value) : Does allows value.callable := by
  cases value <;> simp [Value.callable]

/-- Printing is quiet. -/
@[simp] theorem write (text : String) : Does Effect.Quiet (Run.write text) := by
  intro m result m' ends
  simp only [Run.write] at ends
  split at ends
  · cases ends
    exact .refl
  · cases ends
    exact .single ⟨.write text, trivial, rfl⟩

/-- Taking a jump is quiet. -/
@[simp] theorem takeJump (ref : Nat) : Does Effect.Quiet (Run.takeJump ref) := by
  intro m result m' ends
  simp only [Run.takeJump] at ends
  split at ends
  · cases ends
    exact .refl
  · cases ends
    exact .single ⟨.takeJump ref, trivial, rfl⟩

@[simp] theorem lookup (name : String) (frame : Frame) :
    Does allows (Body.run (Body.lookup name) frame) := by
  intro m result m' ends
  simp only [Body.run, Body.lookup] at ends
  split at ends
  · cases ends
  · rename_i ran
    split at ran <;> try split at ran
    all_goals
      cases ran
      cases ends
      exact .refl

/-- Assigning a name is quiet. -/
@[simp] theorem assign (name : String) (value : Value) (frame : Frame) :
    Does Effect.Quiet (Body.run (Body.assign name value) frame) := by
  intro m result m' ends
  simp only [Body.run, Body.assign] at ends
  cases bound : frame.env.lookup name with
  | some ref =>
    rw [bound] at ends
    cases ends
    exact .single ⟨.setCell ref value, trivial, rfl⟩
  | none =>
    rw [bound] at ends
    cases known : m.global? name with
    | none =>
      rw [known] at ends
      cases ends
      exact .refl
    | some old =>
      rw [known] at ends
      cases ends
      exact .single ⟨.define name value, trivial, rfl⟩

@[simp] theorem noKwargs (func : String) (kwargs : Kwargs) :
    Does allows (noKwargs func kwargs) := by
  rcases kwargs with _ | ⟨⟨keyword, value⟩, rest⟩
  · exact pure ()
  · exact fail _

theorem bindKeywords (func : String) (kwargs : Kwargs) (bound : List (String × Option Value)) :
    Does allows (bindKeywords func kwargs bound) := by
  induction kwargs generalizing bound with
  | nil => exact pure bound
  | cons named rest ih =>
    simp only [Trampoline.bindKeywords]
    split
    · exact ih _
    · exact fail _

/-- The cells for parameters are made quietly. -/
theorem bindCells (func : String) (bound : List (String × Option Value)) (env : Env) :
    Does Effect.Quiet (bindCells func bound env) := by
  induction bound generalizing env with
  | nil => exact pure env
  | cons first rest ih =>
    rcases first with ⟨param, _ | value⟩
    · exact fail _
    · exact bind (newCell value) fun ref => ih _

/-- So is the scope of a call. -/
@[simp] theorem parameterScope (signature : Signature) (env : Env) (args : List Value)
    (kwargs : Kwargs) : Does Effect.Quiet (parameterScope signature env args kwargs) :=
  ite (fail _) (bind (bindKeywords _ _ _) fun bound => bindCells _ bound env)

@[simp] theorem bindValues (params : List String) (values : List Value) (env : Env) :
    Does Effect.Quiet (bindValues params values env) := by
  induction params generalizing values env with
  | nil => exact pure env
  | cons param params ih =>
    cases values with
    | nil => exact pure env
    | cons value values => exact bind (newCell value) fun ref => ih values _

/-- Wrappers are put on quietly: a cache is made, not added to. -/
theorem wrap (base : Callable) (wrappers : List Decorator) :
    Does Effect.Quiet (wrap base wrappers) := by
  induction wrappers with
  | nil => exact pure base
  | cons wrapper inside ih =>
    refine bind ih fun inner => ?_
    cases wrapper with
    | memoize => exact bind newCache fun _ => pure _
    | _ => exact pure _

/-- The extent of a capture is made quietly. -/
theorem captureExtent (frame : Frame) :
    Does Effect.Quiet (expose Body.captureExtent frame) := by
  intro m result m' ends
  simp only [expose, around, Body.captureExtent] at ends
  split at ends
  · cases ends
    exact .refl
  · cases ends
    exact .single ⟨.capture, trivial, rfl⟩

/-- A closure is made quietly. -/
@[simp] theorem makeClosure (function : Function) (frame : Frame) :
    Does Effect.Quiet (expose (makeClosure function) frame) := by
  unfold Trampoline.makeClosure
  rw [expose_bind, expose_frame, pure_bind]
  cases function.signature.kind with
  | plain =>
    simp only [expose_bind, expose_within, expose_pure, bind_assoc, pure_bind]
    exact bind newClosure fun ref => bind (wrap _ _) fun callable => pure _
  | continuation =>
    simp only [expose_bind, expose_within, expose_pure, bind_assoc, pure_bind]
    exact bind (captureExtent frame) fun extent => bind newContinuation fun ref =>
      bind (tell _) fun _ => pure _

@[simp] theorem defineToplevel (name : String) (value : Value) :
    Does Effect.Quiet (defineToplevel name value) :=
  bind (tell _) fun _ => define name value

/-! ### Natives -/

theorem int (op : Native) (value : Value) : Does allows (Native.int op value) := by
  cases value <;> simp [Native.int]

theorem ints (op : Native) (values : List Value) : Does allows (Native.ints op values) := by
  induction values with
  | nil => exact pure []
  | cons value rest ih => exact bind (int op value) fun _ => bind ih fun _ => pure _

theorem length (op : Native) (value : Value) : Does allows (Native.length op value) := by
  cases value <;> simp [Native.length]

theorem pick (items : List Value) (index : Int64) : Does allows (Native.pick items index) := by
  refine ite (fail _) ?_
  cases items[index.toInt.toNat]? with
  | some value => exact pure value
  | none => exact fail _

theorem compareInts (op : Native) (test : Int64 -> Int64 -> Bool) (args : List Value) :
    Does allows (Native.compareInts op test args) :=
  bind (int op _) fun _ => bind (int op _) fun _ => pure _

theorem divideInts (op : Native) (divide : Int64 -> Int64 -> Int64) (args : List Value) :
    Does allows (Native.divideInts op divide args) :=
  bind (int op _) fun _ => ite (fail _) (bind (int op _) fun _ => pure _)

theorem difference (values : List Int64) : Does allows (Native.difference values) := by
  rcases values with _ | ⟨first, _ | ⟨second, rest⟩⟩
  · exact fail _
  · exact pure _
  · exact pure _

/-- All natives that only compute are quiet but the one that pushes onto a list. -/
theorem compute {op : Native} {args : List Value} {run : Run Value} (noPush : op ≠ .push)
    (computes : op.compute? args = some run) : Does Effect.Quiet run := by
  cases op <;> cases computes
  case push => exact absurd rfl noPush
  case add | mul => exact bind (ints _ _) fun _ => pure _
  case sub => exact bind (ints _ _) difference
  case div | rem => exact divideInts _ _ _
  case eq => exact read _
  case lt | gt | le | ge => exact compareInts _ _ _
  case not | tuple | values | typeOf => exact pure _
  case list => exact newList _
  case len => exact bind (length _ _) fun _ => pure _
  case nth =>
    refine bind (int _ _) fun index => ?_
    split
    · exact bind (read _) fun _ => pick _ _
    · exact pick _ _
    · exact fail _

end Exec.Does

/-! ## Plans -/

namespace Plan

variable {α β : Type} {allows : Effect -> Prop}

/-- All steps of the plan have effects of the kind only. -/
def Does (allows : Effect -> Prop) {α : Type} : Plan α -> Prop
  | done _ => True
  | step run next => run.Does allows ∧ ∀ value, (next value).Does allows
  | ask _ next => ∀ answer, (next answer).Does allows
  | guarded inner next => inner.Does allows ∧ ∀ value, (next value).Does allows
  | settle inner next => inner.Does allows ∧ ∀ result, (next result).Does allows

/-- A value has no effects. -/
@[simp] theorem does_pure (value : α) : (pure value : Plan α).Does allows := trivial

/-- Nor has the end of a plan. -/
@[simp] theorem does_done (value : α) : (done value).Does allows := trivial

@[simp] theorem does_lift (run : Run α) : (lift run).Does allows ↔ run.Does allows := by
  simp [lift, Does]

@[simp] theorem does_body (part : Body α) (frame : Frame) :
    (body part frame).Does allows ↔ (expose part frame).Does allows := does_lift _

@[simp] theorem does_ask (task : Task) (next : task.Answer -> Plan α) :
    (ask task next).Does allows ↔ ∀ answer, (next answer).Does allows := Iff.rfl

@[simp] theorem does_done_bind (value : α) (next : α -> Plan β) :
    (done value >>= next).Does allows ↔ (next value).Does allows := Iff.rfl

@[simp] theorem does_lift_bind (run : Run α) (next : α -> Plan β) :
    (lift run >>= next).Does allows ↔ run.Does allows ∧ ∀ value, (next value).Does allows := Iff.rfl

@[simp] theorem does_ask_bind (task : Task) (rest : task.Answer -> Plan α) (next : α -> Plan β) :
    (ask task rest >>= next).Does allows ↔ ∀ answer, (rest answer >>= next).Does allows := Iff.rfl

@[simp] theorem does_guarded (inner : Plan β) (next : β -> Plan α) :
    (guarded inner next).Does allows ↔ inner.Does allows ∧ ∀ value, (next value).Does allows :=
  Iff.rfl

@[simp] theorem does_settle (inner : Plan β) (next : Except EvalError β -> Plan α) :
    (settle inner next).Does allows ↔ inner.Does allows ∧ ∀ result, (next result).Does allows :=
  Iff.rfl

@[simp] theorem does_ite (test : Prop) [Decidable test] (first second : Plan α) :
    (if test then first else second).Does allows ↔
      (test -> first.Does allows) ∧ (¬test -> second.Does allows) := by
  split <;> simp [*]

variable {plan : Plan α}

/-- A plan with only some effects has no others than more. -/
theorem Does.imp {allows' : Effect -> Prop} (does : plan.Does allows)
    (implies : ∀ effect, allows effect -> allows' effect) : plan.Does allows' := by
  induction plan with
  | done value => trivial
  | step run next ih => exact ⟨does.1.imp implies, fun value => ih value (does.2 value)⟩
  | ask task next ih => exact fun answer => ih answer (does answer)
  | guarded inner next inside ih => exact ⟨inside does.1, fun value => ih value (does.2 value)⟩
  | settle inner next inside ih => exact ⟨inside does.1, fun result => ih result (does.2 result)⟩

/-- Plans one after another have the effects of both. -/
theorem Does.bind {next : α -> Plan β} (does : plan.Does allows)
    (after : ∀ value, (next value).Does allows) : (plan >>= next).Does allows := by
  show (plan.bind next).Does allows
  induction plan with
  | done value => exact after value
  | step run rest ih => exact ⟨does.1, fun value => ih value (does.2 value) after⟩
  | ask task rest ih => exact fun answer => ih answer (does answer) after
  | guarded inner rest _ ih => exact ⟨does.1, fun value => ih value (does.2 value) after⟩
  | settle inner rest _ ih => exact ⟨does.1, fun result => ih result (does.2 result) after⟩

end Plan

/-! ## Tasks -/

namespace Task

open Plan

/-- Applying anything but a memoized function is quiet. -/
theorem does_apply (callable : Callable) (args : List Value) (kwargs : Kwargs)
    (noCache : ∀ inner cache, callable ≠ .memoized inner cache) :
    (apply callable args kwargs).plan.Does Effect.Quiet := by
  cases callable with
  | memoized inner cache => exact absurd rfl (noCache inner cache)
  | native op =>
    simp only [plan]
    cases op.arity <;> simp
  | escapePoint inner =>
    simp only [plan, does_lift_bind, Does.enterPoint, true_and, does_settle, does_ask, does_done,
      implies_true]
    intro tag result
    rcases result with error | value
    · cases error <;> simp
    · simp
  | continuation ref function env extent isLazy =>
    simp only [plan, does_lift_bind, Run.extentValid, Does.read, true_and, does_ite, does_lift,
      Does.fail, Does.noKwargs, implies_true]
    intro _ _ _
    cases resumeValues function.signature.params.length args <;> simp
  | escape tag => simp [plan, Run.pointRunning]
  | _ => simp [plan]

/-- Applying any native but the one that pushes is quiet. -/
theorem does_applyNative (op : Native) (args : List Value) (noPush : op ≠ .push) :
    (applyNative op args).plan.Does Effect.Quiet := by
  cases op with
  | attempt =>
    simp only [plan, does_lift_bind, Does.callable, true_and, does_settle, does_guarded, does_ask,
      does_done, implies_true]
    intro thunk handler result
    cases result <;> simp
  | print | str | raise | assertEq | force | forceDeep => simp [plan]
  | _ =>
    simp only [plan]
    split
    · rename_i computes
      exact (does_lift _).mpr (.compute noPush computes)
    · simp

/-- The task settles no promise, changes no list that there is and adds to no cache. -/
def Quiet : Task -> Prop
  | force (.promise _) | forceDeep _ | apply (.memoized _ _) _ _ | applyNative .push _ => False
  | _ => True

/-- A quiet task has quiet effects. -/
theorem does_quiet {task : Task} (quiet : task.Quiet) :
    task.plan.Does Effect.Quiet := by
  cases task with
  | apply callable args kwargs =>
    refine does_apply callable args kwargs ?_
    rintro inner cache rfl
    exact quiet
  | applyNative op args =>
    refine does_applyNative op args ?_
    rintro rfl
    exact quiet
  | force value =>
    cases value with
    | promise ref => exact quiet.elim
    | _ => simp [plan]
  | forceDeep value => exact quiet.elim
  | eval e frame =>
    cases e with
    | bind mark name bindee => cases bindee <;> simp [plan]
    | _ => simp [plan]
  | evalContinuation cc => cases cc <;> simp [plan]
  | operand policy => cases policy <;> simp [plan]
  | delayed e => cases e <;> simp [plan]
  | operands policy es => cases es <;> simp [plan]
  | keywords policy es => cases es <;> simp [plan]
  | evalArms arms alt => cases arms <;> cases alt <;> simp [plan]
  | evalShort op es => cases es <;> simp [plan]
  | evalItems es => cases es <;> simp [plan]
  | runThunk thunk =>
    cases thunk with
    | expr e env => simp [plan]
    | global name =>
      simp only [plan, does_lift_bind, Does.read, true_and]
      intro value
      rcases value with _ | value
      · simp
      · cases value <;> simp
  | forceAll values => cases values <;> simp [plan]
  | call callable args kwargs =>
    simp only [plan, does_ask_bind, does_done_bind]
    intro value
    cases value <;> simp
  | runJumps variant current => cases current <;> simp [plan]
  | takeStep variant ref =>
    simp only [plan, does_lift_bind, Does.takeJump, true_and, does_ask_bind, does_done_bind,
      Does.tell]
    intro jump _
    cases jump.cc <;> simp
  | forceArgs args => cases args <;> simp [plan]
  | forceKwargs kwargs => cases kwargs <;> simp [plan]
  | forceKeys args =>
    cases args with
    | nil => simp [plan]
    | cons value rest =>
      simp only [plan, does_ask_bind, does_done_bind]
      intro value
      cases value.memoKey? <;> simp
  | forceKwargKeys kwargs =>
    cases kwargs with
    | nil => simp [plan]
    | cons named rest =>
      simp only [plan, does_ask_bind, does_done_bind]
      intro value
      cases value.memoKey? <;> simp
  | shownDeep values => cases values <;> simp [plan]
  | _ => simp [plan]

/-- A force settles its own promise and does nothing else that is not quiet. -/
theorem does_force (ref : Nat) :
    (force (.promise ref)).plan.Does (force (.promise ref)).allows := by
  have sets (state : Promise) : Does (force (.promise ref)).allows (Run.setPromise ref state) :=
    .of_effect (.setPromise ref state) rfl fun _ => rfl
  have tells : Does (force (.promise ref)).allows (Run.tell .forcing) :=
    (Does.tell _).imp fun _ => allows_of_quiet
  refine ⟨.read _, fun state => ?_⟩
  cases state with
  | forced value => trivial
  | forcing => exact (does_lift _).mpr (.fail _)
  | pending thunk =>
    refine ⟨⟨sets _, fun _ => ⟨tells, fun _ _ _ => trivial⟩⟩, fun result => ?_⟩
    cases result with
    | ok value => exact ⟨sets _, fun _ => trivial⟩
    | error error => exact ⟨sets _, fun _ => (does_lift _).mpr (.fail _)⟩

/-- A deep force replaces the items of its own list and does nothing else that is not quiet. -/
theorem does_forceDeep (value : Value) :
    (forceDeep value).plan.Does (forceDeep value).allows := by
  intro forced
  cases forced with
  | list ref =>
    refine ⟨.read _, fun _ items => ⟨?_, fun _ => trivial⟩⟩
    exact .of_effect (.setItems ref items) ⟨value, rfl⟩ fun _ => rfl
  | tuple items => exact fun _ => trivial
  | _ => trivial

/-- A memoized call adds to its own cache and does nothing else that is not quiet. -/
theorem does_memoized (inner : Callable) (cache : Nat) (args : List Value) (kwargs : Kwargs) :
    (apply (.memoized inner cache) args kwargs).plan.Does
      (apply (.memoized inner cache) args kwargs).allows := by
  refine fun keyed named => ⟨.read _, fun hit => ?_⟩
  cases hit with
  | some value => trivial
  | none =>
    refine fun value => ⟨?_, fun _ => trivial⟩
    exact .of_effect (.remember cache _ value) ⟨inner, args, kwargs, rfl⟩ fun _ => rfl

/-- Pushing adds to the list that it is given and does nothing else that is not quiet. -/
theorem does_push (args : List Value) :
    (applyNative .push args).plan.Does (applyNative .push args).allows := by
  refine (does_lift _).mpr ?_
  obtain ⟨target, value⟩ := Native.two args
  cases target with
  | list ref =>
    refine .bind ?_ fun _ => .pure _
    exact .of_effect (.pushItem ref value) ⟨args, rfl⟩ fun _ => rfl
  | _ => exact .fail _

/-- No task has other effects than those at its disposal. -/
theorem plan_does (task : Task) : task.plan.Does task.allows := by
  by_cases quiet : task.Quiet
  · exact (does_quiet quiet).imp fun _ => allows_of_quiet
  · cases task with
    | force value =>
      cases value with
      | promise ref => exact does_force ref
      | _ => exact absurd trivial quiet
    | forceDeep value => exact does_forceDeep value
    | apply callable args kwargs =>
      cases callable with
      | memoized inner cache => exact does_memoized inner cache args kwargs
      | _ => exact absurd trivial quiet
    | applyNative op args =>
      cases op with
      | push => exact does_push args
      | _ => exact absurd trivial quiet
    | _ => exact absurd trivial quiet

end Task

/-- Toplevel forms are quiet: the tasks that they ask for have the effects. -/
theorem Plan.does_toplevels (top : List Toplevel) (last : Value) :
    (Plan.toplevels top last).Does Effect.Quiet := by
  induction top generalizing last with
  | nil => trivial
  | cons form rest ih =>
    cases form with
    | define name bindee => exact ⟨fun _ => trivial, fun _ => ⟨.defineToplevel _ _, fun _ => ih _⟩⟩
    | exec e => exact ⟨fun _ => trivial, fun _ _ => ih _⟩

/-- So are operations of a host. -/
theorem Plan.does_operation (operation : Operation) :
    (Plan.operation operation).Does Effect.Quiet := by
  cases operation with
  | task task => exact fun _ => trivial
  | run program => exact (does_toplevels _ _).bind fun _ => trivial
  | define name value => exact (does_lift _).mpr (.define name value)
  | delay thunk => exact ⟨.newPromise thunk, fun _ => trivial⟩
  | list items => exact ⟨.newList items, fun _ => trivial⟩
  | jump jump => exact ⟨.newJump jump, fun _ => trivial⟩

/-- So are sessions of them. -/
theorem Plan.does_session (operations : List Operation) :
    (Plan.session operations).Does Effect.Quiet := by
  induction operations with
  | nil => trivial
  | cons first rest ih => exact ⟨does_operation first, fun _ => ih⟩

/-! ## What effects preserve -/

/-- What does not hang on the extents of continuations holds when a guarded operation is left. -/
theorem Exec.holds_guardedState {α : Type} {holds : Machine -> Prop}
    (unwinds : ∀ last extents stack, holds last ->
      holds { last with extents := extents, stack := stack })
    (mark : Nat) (result : Except EvalError α) {last : Machine} (kept : holds last) :
    holds (guardedState mark (result, last)) := by
  cases result with
  | ok value => exact unwinds last _ _ kept
  | error error =>
    simp only [guardedState]
    split
    · exact unwinds last _ _ kept
    · exact unwinds last _ _ kept

/-- A relation of an earlier to a later machine that holds along effects of a kind. -/
structure Machine.Preserved (allows : Effect -> Prop) (keeps : Machine -> Machine -> Prop) :
    Prop where
  refl : ∀ m, keeps m m
  trans : ∀ {first second third}, keeps first second -> keeps second third -> keeps first third
  effect : ∀ {effect} m, allows effect -> keeps m (effect.on m)
  /-- What holds up to the end of a guarded operation holds when it is left. -/
  guarded : ∀ {α : Type} {m last : Machine} (result : Except EvalError α), keeps m last ->
    keeps m (guardedState m.stack.size (result, last))

namespace Machine.Preserved

variable {α : Type} {allows : Effect -> Prop} {keeps : Machine -> Machine -> Prop} {m m' : Machine}

/-- What all effects preserve holds of what undergoes them. -/
theorem undergoes (preserved : Machine.Preserved allows keeps) (undergoes : m.Undergoes allows m') :
    keeps m m' := by
  induction undergoes with
  | refl => exact preserved.refl m
  | tail _ step ih =>
    obtain ⟨effect, allowed, rfl⟩ := step
    exact preserved.trans ih (preserved.effect _ allowed)

/-- What holds along the steps of a plan and along the tasks in it holds along the plan. -/
theorem plan (preserved : Machine.Preserved allows keeps) {plan : Plan α}
    {perform : (task : Task) -> Run task.Answer} (does : plan.Does allows)
    (performs : ∀ task m result m', perform task m = some (result, m') -> keeps m m')
    {result : Except EvalError α} (ends : plan.run perform m = some (result, m')) :
    keeps m m' := by
  induction plan generalizing m m' with
  | done value =>
    cases ends
    exact preserved.refl m
  | step act next ih =>
    rcases bind_eq_some.mp ends with ⟨value, middle, ran, rest⟩ | ⟨error, last, ran, equal⟩
    · exact preserved.trans (preserved.undergoes (does.1 _ _ _ ran)) (ih value (does.2 value) rest)
    · cases equal
      exact preserved.undergoes (does.1 _ _ _ ran)
  | ask task next ih =>
    rcases bind_eq_some.mp ends with ⟨answer, middle, ran, rest⟩ | ⟨error, last, ran, equal⟩
    · exact preserved.trans (performs task m _ _ ran) (ih answer (does answer) rest)
    · cases equal
      exact performs task m _ _ ran
  | guarded inner next ihInner ih =>
    rcases bind_eq_some.mp ends with ⟨value, middle, ran, rest⟩ | ⟨error, last, ran, equal⟩
    · obtain ⟨last, inside, rfl⟩ := guarded_eq_some.mp ran
      exact preserved.trans (preserved.guarded _ (ihInner does.1 inside))
        (ih value (does.2 value) rest)
    · cases equal
      obtain ⟨last, inside, rfl⟩ := guarded_eq_some.mp ran
      exact preserved.guarded _ (ihInner does.1 inside)
  | settle inner next ihInner ih =>
    obtain ⟨result', middle, ran, rest⟩ := settle_eq_some.mp ends
    exact preserved.trans (ihInner does.1 ran) (ih result' (does.2 result') rest)

/-- What every effect preserves holds along every task. -/
theorem task (preserved : Machine.Preserved (fun _ => True) keeps) {n : Nat} {task : Task}
    {result : Except EvalError task.Answer} (ends : task.run n m = some (result, m')) :
    keeps m m' := by
  induction n generalizing task m m' with
  | zero => cases task <;> cases ends
  | succ n ih =>
    rw [Task.run_succ] at ends
    exact preserved.plan (task.plan_does.imp fun _ _ => trivial) (fun _ _ _ _ ends => ih ends) ends

end Machine.Preserved

end Trampoline
