import Trampoline.Proofs.Positions.Scopes

/-!
# What an evaluation binds

An evaluation adds to the scope of its body the names of the `let` forms that it evaluates in this
scope, each for a cell that it makes, whether it comes to a value or to an error. It keeps to this
in spite of the blocks, functions and promises in it: a block goes back to the scope that it began
in, and a function or a promise has a scope of its own.
-/

namespace Trampoline

open Exec

/-! ## Forms that are evaluated in a scope -/

/-- The expression has the node outside the blocks and functions in it. -/
inductive Expr.Owns : Expr -> Expr -> Prop
  | self (e : Expr) : Owns e e
  | child {e child node : Expr} (noBlock : ∀ mark items, e ≠ .seq mark items)
      (member : child ∈ e.children) (inside : Owns child node) : Owns e node

namespace Call

/-- On its way, a call of a running body makes another for the scope that it leaves. What a block
evaluates is not for the scope that the block leaves. -/
structure Shares (caller callee : Call) : Prop where
  makes : caller.Makes callee
  ofBody : caller.task.isOfBody = true
  sameBody : callee.task.isOfBody = true
  noBlock : ∀ mark items frame, caller.task ≠ .eval (.seq mark items) frame

/-- The expression is evaluated on the way of a call, for the scope that the call leaves. -/
def Evaluates (call : Call) (e : Expr) : Prop :=
  ∃ n frame m, Relation.ReflTransGen Shares call ⟨n, .eval e frame, m⟩

/-- On the way of a call, a `let` of the name is evaluated for the scope that the call leaves. -/
def Lets (call : Call) (name : String) : Prop :=
  ∃ mark bindee, call.Evaluates (.bind mark name bindee)

end Call

variable {m later : Machine}

/-- What a plan asks for is of the kind of all that it may ask for. -/
theorem Plan.Only.asks {α : Type} {kind : Task -> Prop} {plan : Plan α} (only : plan.Only kind)
    {perform : (task : Task) -> Run task.Answer} {task : Task}
    (asks : plan.Asks perform task later m) : kind task := by
  induction plan generalizing m with
  | done value => exact asks.elim
  | step run next ih =>
    obtain ⟨value, middle, -, asks⟩ := asks
    exact ih value (only value) asks
  | ask first next ih =>
    rcases asks with ⟨rfl, rfl⟩ | ⟨answer, middle, -, asks⟩
    · exact only.1
    · exact ih answer (only.2 answer) asks
  | guarded inner next ihInner ih =>
    rcases asks with asks | ⟨value, middle, -, asks⟩
    · exact ihInner only.1 asks
    · exact ih value (only.2 value) asks
  | settle inner next ihInner ih =>
    rcases asks with asks | ⟨result, middle, -, asks⟩
    · exact ihInner only.1 asks
    · exact ih result (only.2 result) asks

/-- What a call evaluates for its scope stands in what it is to evaluate, outside blocks and
functions. -/
theorem Call.Evaluates.owned {call : Call} {node : Expr} (evaluates : call.Evaluates node) :
    ∃ e ∈ call.task.exprs, e.Owns node := by
  obtain ⟨n, frame, m, shares⟩ := evaluates
  induction shares using Relation.ReflTransGen.head_induction_on with
  | refl => exact ⟨node, List.mem_singleton_self node, .self node⟩
  | @head caller callee first _ ih =>
    obtain ⟨e, member, owns⟩ := ih
    have inside : e ∈ caller.task.inner :=
      (Task.only_inner first.ofBody).asks first.makes.asks member
    have noBlock := first.noBlock
    revert inside noBlock
    cases caller.task with
    | eval outer frame =>
      intro inside noBlock
      have noSeq : ∀ mark items, outer ≠ .seq mark items :=
        fun mark items same => noBlock mark items frame (by rw [same])
      exact ⟨outer, List.mem_singleton_self outer, .child noSeq inside owns⟩
    | _ => exact fun inside _ => ⟨e, inside, owns⟩

/-! ## Scopes that gain names -/

/-- From one machine to the other, a scope gains names of a kind only, each for a cell that is made
on the way. -/
structure Env.Gains (names : String -> Prop) (m later : Machine) (env env' : Env) : Prop where
  grows : m.cells.size ≤ later.cells.size
  wider : Env.Extends env names (m.newCells later) env'

/-- The new cells are those from the number of cells before up to the number after. -/
theorem Machine.mem_newCells {ref : CellRef} (grows : m.cells.size ≤ later.cells.size) :
    ref ∈ m.newCells later ↔ m.cells.size ≤ ref ∧ ref < later.cells.size := by
  rw [Machine.newCells, List.mem_range'_1, Nat.add_sub_cancel' grows]

namespace Env.Gains

variable {names others : String -> Prop} {m middle later : Machine} {env env' env'' : Env}

theorem same (grows : m.cells.size ≤ later.cells.size) : Env.Gains names m later env env :=
  ⟨grows, .refl _ _ _⟩

theorem mono (gains : Env.Gains names m later env env')
    (known : ∀ name, names name -> others name) : Env.Gains others m later env env' :=
  ⟨gains.grows, gains.wider.mono known (List.Subset.refl _)⟩

theorem trans (first : Env.Gains names m middle env env')
    (second : Env.Gains names middle later env' env'') : Env.Gains names m later env env'' := by
  have grows := Nat.le_trans first.grows second.grows
  refine ⟨grows, (first.wider.trans second.wider).mono (fun _ => id) ?_⟩
  refine List.append_subset.mpr ⟨fun ref member => ?_, fun ref member => ?_⟩
  · have bounds := (Machine.mem_newCells first.grows).mp member
    exact (Machine.mem_newCells grows).mpr ⟨bounds.1, Nat.lt_of_lt_of_le bounds.2 second.grows⟩
  · have bounds := (Machine.mem_newCells second.grows).mp member
    exact (Machine.mem_newCells grows).mpr ⟨Nat.le_trans first.grows bounds.1, bounds.2⟩

/-- A new name for the cell that was made last. -/
theorem bind {name : String} {value : Value} (known : names name) :
    Env.Gains names m { m with cells := m.cells.push value } env ((name, m.cells.size) :: env) := by
  have grows : m.cells.size ≤ { m with cells := m.cells.push value }.cells.size := by simp
  refine ⟨grows, (Env.Extends.refl _ _ _).bind known ((Machine.mem_newCells grows).mpr ?_)⟩
  simp

end Env.Gains

/-! ## Steps that leave the scope -/

/-- The body leaves the scope as it is, and no cell is given up. -/
def Exec.KeepsScope {α : Type} (body : Body α) : Prop :=
  ∀ ⦃frame m result frame' m'⦄, body ⟨frame, m⟩ = some (result, ⟨frame', m'⟩) ->
    frame'.env = frame.env ∧ m.cells.size ≤ m'.cells.size

namespace Exec.KeepsScope

variable {α β : Type}

theorem pure (value : α) : KeepsScope (pure value) := by
  rintro frame m result frame' m' ⟨⟩
  exact ⟨rfl, Nat.le_refl _⟩

theorem fail (error : EvalError) : KeepsScope (fail error : Body α) := by
  rintro frame m result frame' m' ⟨⟩
  exact ⟨rfl, Nat.le_refl _⟩

/-- Parts that leave the scope leave it together. -/
theorem bind {first : Body α} {next : α -> Body β} (one : KeepsScope first)
    (two : ∀ value, KeepsScope (next value)) : KeepsScope (first >>= next) := by
  intro frame m result frame' m' ends
  rcases bind_eq_some.mp ends with ⟨value, ⟨frame₁, middle⟩, ran, rest⟩ | ⟨error, last, ran, same⟩
  · have before := one ran
    have after := two value rest
    exact ⟨after.1.trans before.1, Nat.le_trans before.2 after.2⟩
  · cases same
    exact one ran

variable {run : Run α}

/-- A step on the machine. -/
theorem within (grows : ∀ ⦃m result m'⦄, run m = some (result, m') ->
    m.cells.size ≤ m'.cells.size) : KeepsScope run.within := by
  intro frame m result frame' m' ends
  simp only [Run.within] at ends
  cases ran : run m with
  | none => simp [ran] at ends
  | some outcome =>
    simp only [ran] at ends
    cases ends
    exact ⟨rfl, grows ran⟩

theorem quiet (does : Does Effect.Quiet run) : KeepsScope run.within :=
  within fun _ _ _ ran => Machine.cells_grow.undergoes (does.imp (fun _ _ => trivial) _ _ _ ran)

theorem task (n : Nat) (task : Task) : KeepsScope (task.run n).within :=
  within fun _ _ _ ran => Machine.cells_grow.task ran

/-- Reading the frame leaves it. -/
theorem frame : KeepsScope Body.frame := by
  rintro frame m result frame' m' ⟨⟩
  exact ⟨rfl, Nat.le_refl _⟩

theorem lookup (name : String) : KeepsScope (Body.lookup name) := by
  intro frame m result frame' m' ends
  simp only [Body.lookup] at ends
  split at ends
  · cases ends
    exact ⟨rfl, Nat.le_refl _⟩
  · split at ends <;> cases ends <;> exact ⟨rfl, Nat.le_refl _⟩

theorem assign (name : String) (value : Value) : KeepsScope (Body.assign name value) := by
  intro frame m result frame' m' ends
  simp only [Body.assign] at ends
  split at ends
  · cases ends
    exact ⟨rfl, by simp⟩
  · split at ends <;> cases ends <;> exact ⟨rfl, Nat.le_refl _⟩

theorem callable (value : Value) : KeepsScope (value.callable : Body Callable) := by
  cases value <;> first | exact pure _ | exact fail _

theorem captureExtent : KeepsScope Body.captureExtent := by
  intro frame m result frame' m' ends
  simp only [Body.captureExtent] at ends
  split at ends <;> cases ends <;> exact ⟨rfl, Nat.le_refl _⟩

theorem makeClosure (function : Function) : KeepsScope (makeClosure function) := by
  refine frame.bind fun frame => ?_
  cases function.signature.kind with
  | plain =>
    exact (quiet .newClosure).bind fun ref => (quiet (.wrap _ _)).bind fun _ => pure _
  | continuation =>
    exact captureExtent.bind fun extent => (quiet .newContinuation).bind fun ref =>
      (quiet (.tell _)).bind fun _ => pure _

end Exec.KeepsScope

/-- A step of a body that does to the machine what the step of a plan does, and leaves the frame. -/
structure Exec.StandsFor {α : Type} (frame : Frame) (run : Run α) (body : Body α) : Prop where
  keeps : KeepsScope body
  runs : ∀ {m value frame' m'}, body ⟨frame, m⟩ = some (.ok value, ⟨frame', m'⟩) ->
    frame' = frame ∧ run m = some (.ok value, m')

namespace Exec.StandsFor

variable {α : Type} {frame : Frame}

/-- A step on the machine stands for itself. -/
theorem within {run : Run α} (keeps : KeepsScope run.within) : StandsFor frame run run.within where
  keeps := keeps
  runs {m value frame' m'} ends := by
    simp only [Run.within] at ends
    rcases ran : run m with _ | ⟨error | value, last⟩ <;> simp only [ran] at ends <;> cases ends
    exact ⟨rfl, rfl⟩

theorem lookup (name : String) :
    StandsFor frame (Body.run (Body.lookup name) frame) (Body.lookup name) where
  keeps := .lookup name
  runs {m value frame' m'} ends := by
    refine ⟨?_, by rw [Body.run, ends]⟩
    simp only [Body.lookup] at ends
    split at ends
    · cases ends
      rfl
    · split at ends <;> cases ends
      rfl

theorem assign (name : String) (value : Value) :
    StandsFor frame (Body.run (Body.assign name value) frame) (Body.assign name value) where
  keeps := .assign name value
  runs {m answer frame' m'} ends := by
    refine ⟨?_, by rw [Body.run, ends]⟩
    simp only [Body.assign] at ends
    split at ends
    · cases ends
      rfl
    · split at ends <;> cases ends
      rfl

theorem callable (value : Value) : StandsFor frame value.callable value.callable where
  keeps := .callable value
  runs {m callable frame' m'} ends := by
    cases value <;> cases ends
    exact ⟨rfl, rfl⟩

end Exec.StandsFor

/-! ## Bodies and their plans -/

/-- Following the plan from the machine, a `let` of the name is evaluated for the scope of the
body. -/
def Plan.Lets {α : Type} (n : Nat) (plan : Plan α) (m : Machine) (name : String) : Prop :=
  ∃ task later, plan.Asks (Task.run n) task later m ∧ task.isOfBody = true ∧
    (⟨n, task, later⟩ : Call).Lets name

/-- The body does the task: the scope gains the names that the task evaluates a `let` of, also if it
fails, and what it comes to is the answer of the task. -/
structure Task.Scopes (n : Nat) (task : Task) {α : Type} (frame : Frame) (body : Body α)
    (answer : α -> Frame -> task.Answer) : Prop where
  gains : ∀ ⦃m result frame' m'⦄, body ⟨frame, m⟩ = some (result, ⟨frame', m'⟩) ->
    Env.Gains (Call.Lets ⟨n, task, m⟩) m m' frame.env frame'.env
  runs : ∀ ⦃m value frame' m'⦄, body ⟨frame, m⟩ = some (.ok value, ⟨frame', m'⟩) ->
    task.run n m = some (.ok (answer value frame'), m')

namespace Plan

variable {α β γ δ : Type} {n : Nat} {names : String -> Prop} {frame : Frame} {m : Machine}
  {plan : Plan γ}

/-- The body follows the plan: its scope gains names of its own, and those that the plan has `let`
forms evaluated of, also if it fails. -/
def Scopes (n : Nat) (names : String -> Prop) (plan : Plan γ) (frame : Frame) (body : Body α) :
    Prop :=
  ∀ ⦃m result frame' m'⦄, body ⟨frame, m⟩ = some (result, ⟨frame', m'⟩) ->
    Env.Gains (fun name => names name ∨ plan.Lets n m name) m m' frame.env frame'.env

namespace Scopes

variable {body : Body α} {rest : α -> Body β} {task : Task} {answer : α -> Frame -> task.Answer}

/-- A body that leaves the scope. -/
theorem keeps (keeps : KeepsScope body) : plan.Scopes n names frame body := by
  intro m result frame' m' ends
  obtain ⟨same, grows⟩ := keeps ends
  rw [same]
  exact .same grows

/-- Whether it is lazy, a body reads from its frame. -/
theorem isLazy {rest : Bool -> Body β} (scopes : plan.Scopes n names frame (rest frame.isLazy)) :
    plan.Scopes n names frame (Body.isLazy >>= rest) :=
  fun _ _ _ _ ends => scopes ends

/-- A part and then the next; what the rest of the plan asks for, the plan asks for. -/
theorem bind {first : Body α} (next : α -> Frame -> Plan δ) (one : plan.Scopes n names frame first)
    (two : ∀ {m value frame' m'}, first ⟨frame, m⟩ = some (.ok value, ⟨frame', m'⟩) ->
      (next value frame').Scopes n names frame' (rest value) ∧
        ∀ {task later}, (next value frame').Asks (Task.run n) task later m' ->
          plan.Asks (Task.run n) task later m) :
    plan.Scopes n names frame (first >>= rest) := by
  intro m result frame' m' ends
  rcases bind_eq_some.mp ends with ⟨value, ⟨frame₁, middle⟩, ran, later⟩ | ⟨error, last, ran, same⟩
  · obtain ⟨after, leads⟩ := two ran
    refine (one ran).trans ((after later).mono fun name known => known.imp_right ?_)
    rintro ⟨task, asked, asks, lets⟩
    exact ⟨task, asked, leads asks, lets⟩
  · cases same
    exact one ran

/-- A task of the body, at the end. -/
theorem last (does : task.Scopes n frame body answer) (ofBody : task.isOfBody = true) :
    (sub task).Scopes n names frame body := by
  intro m result frame' m' ends
  exact (does.gains ends).mono fun name lets => .inr ⟨task, m, .inl ⟨rfl, rfl⟩, ofBody, lets⟩

/-- A task of the body, and what comes after. -/
theorem own {next : task.Answer -> Plan γ} (does : task.Scopes n frame body answer)
    (ofBody : task.isOfBody = true)
    (two : ∀ value frame', (next (answer value frame')).Scopes n names frame' (rest value)) :
    (sub task >>= next).Scopes n names frame (body >>= rest) := by
  refine bind (fun value frame' => next (answer value frame')) ?_ ?_
  · intro m result frame' m' ends
    exact (does.gains ends).mono fun name lets => .inr ⟨task, m, .inl ⟨rfl, rfl⟩, ofBody, lets⟩
  · intro m value frame' m' ran
    exact ⟨two value frame', fun asks => .inr ⟨answer value frame', m', does.runs ran, asks⟩⟩

/-- A step on the machine, and what comes after. -/
theorem step {run : Run α} {next : α -> Plan γ} (same : StandsFor frame run body)
    (two : ∀ value, (next value).Scopes n names frame (rest value)) :
    (lift run >>= next).Scopes n names frame (body >>= rest) := by
  refine bind (fun value _ => next value) (keeps same.keeps) ?_
  intro m value frame' m' ends
  obtain ⟨rfl, ran⟩ := same.runs ends
  exact ⟨two value, fun asks => ⟨value, m', ran, asks⟩⟩

/-- A new cell for a name of the body, and what comes after. -/
theorem binds {name : String} {value : Value} {rest : CellRef -> Body β} {next : CellRef -> Plan γ}
    (known : names name)
    (two : ∀ ref,
      (next ref).Scopes n names { frame with env := (name, ref) :: frame.env } (rest ref)) :
    (lift (Run.newCell value) >>= next).Scopes n names frame
      ((Run.newCell value).within >>= fun ref => Body.bindName name ref >>= fun _ => rest ref) := by
  intro m result frame' m' ends
  refine Env.Gains.trans (.bind (.inl known)) ((two m.cells.size ends).mono fun name known => ?_)
  refine known.imp_right ?_
  rintro ⟨task, asked, asks, lets⟩
  exact ⟨task, asked, ⟨_, _, rfl, asks⟩, lets⟩

end Scopes

end Plan

/-! ## Tasks of a body -/

/-- The functions of the evaluator that are part of a running body do their tasks. -/
structure Scoping (n : Nat) : Prop where
  eval : ∀ e frame, (Task.eval e frame).Scopes n frame (eval n e) Prod.mk
  evalForced : ∀ e frame, (Task.evalForced e frame).Scopes n frame (evalForced n e) Prod.mk
  evalContinuation : ∀ cc frame,
    (Task.evalContinuation cc frame).Scopes n frame (evalContinuation n cc) Prod.mk
  operand : ∀ policy e frame,
    (Task.operand policy e frame).Scopes n frame (operand n policy e) Prod.mk
  delayed : ∀ e frame, (Task.delayed e frame).Scopes n frame (delayed n e) Prod.mk
  operands : ∀ policy es frame,
    (Task.operands policy es frame).Scopes n frame (operands n policy es) Prod.mk
  keywords : ∀ policy kwargs frame,
    (Task.keywords policy kwargs frame).Scopes n frame (keywords n policy kwargs) Prod.mk
  evalArms : ∀ arms alt frame,
    (Task.evalArms arms alt frame).Scopes n frame (evalArms n arms alt) Prod.mk
  evalShort : ∀ op es last frame,
    (Task.evalShort op es last frame).Scopes n frame (evalShort n op es last) Prod.mk
  evalItems : ∀ es last frame,
    (Task.evalItems es last frame).Scopes n frame (evalItems n es last) Prod.mk
  evalLoop : ∀ test body frame,
    (Task.evalLoop test body frame).Scopes n frame (evalLoop n test body) Prod.mk

namespace Scoping

variable {n : Nat} {frame : Frame} {names : String -> Prop}

variable {α : Type} {body : Body α} {task : Task} {answer : α -> Frame -> task.Answer}

/-- Exposing the frame of a body that ends with a value gives both. -/
theorem expose_ok {m m' : Machine} {value : α} {frame' : Frame}
    (ends : body ⟨frame, m⟩ = some (.ok value, ⟨frame', m'⟩)) :
    expose body frame m = some (.ok (value, frame'), m') := by
  simp [expose, around, ends, Except.map]

/-- A task that is no block is done as planned. -/
theorem of_plan (ofBody : task.isOfBody = true)
    (noBlock : ∀ mark items frame, task ≠ .eval (.seq mark items) frame)
    (runs : ∀ ⦃m value frame' m'⦄, body ⟨frame, m⟩ = some (.ok value, ⟨frame', m'⟩) ->
      task.run (n + 1) m = some (.ok (answer value frame'), m'))
    (scopes : task.plan.Scopes n
      (fun name => ∃ mark bindee, task = .eval (.bind mark name bindee) frame) frame body) :
    task.Scopes (n + 1) frame body answer where
  runs := runs
  gains m result frame' m' ends := by
    refine (scopes ends).mono fun name known => ?_
    rcases known with ⟨mark, bindee, rfl⟩ | ⟨asked, later, asks, sameBody, mark, bindee, inside⟩
    · exact ⟨mark, bindee, n + 1, frame, m, .refl⟩
    · obtain ⟨k, frame', m'', shares⟩ := inside
      have first : Call.Shares ⟨n + 1, task, m⟩ ⟨n, asked, later⟩ :=
        ⟨⟨rfl, asks⟩, ofBody, sameBody, noBlock⟩
      exact ⟨mark, bindee, k, frame', m'', .head first shares⟩

/-- All expressions but blocks follow their plans, with the name that a `let` binds. -/
theorem plan_eval (less : Scoping n) {e : Expr} (noBlock : ∀ mark items, e ≠ .seq mark items)
    (known : ∀ mark name bindee, e = .bind mark name bindee -> names name) :
    (Task.eval e frame).plan.Scopes n names frame (Trampoline.eval (n + 1) e) := by
  cases e with
  | lit mark value => exact .keeps (.pure _)
  | var mark name =>
    refine .step (.lookup name) fun value => .isLazy ?_
    split
    · exact .keeps (.task n (.force value))
    · exact .keeps (.pure value)
  | fn mark signature body => exact .keeps (.makeClosure _)
  | call mark func args kwargs =>
    refine .own (less.evalForced func frame) rfl fun value frame₁ => ?_
    refine .step (.callable value) fun callee => .isLazy ?_
    refine .own (less.operands _ args frame₁) rfl fun values frame₂ => ?_
    refine .own (less.keywords _ kwargs frame₂) rfl fun named frame₃ => ?_
    exact .keeps (.task n (.apply callee values named))
  | cond mark arms alt => exact .last (less.evalArms arms alt frame) rfl
  | short mark op es => exact .last (less.evalShort op es _ frame) rfl
  | seq mark items => exact absurd rfl (noBlock mark items)
  | bind mark name bindee =>
    have own := known mark name bindee rfl
    cases bindee with
    | fn inner signature code =>
      refine .binds own fun ref => ?_
      refine .own (less.eval _ _) rfl fun value frame₁ => ?_
      exact .step (.within (.quiet (.setCell ref value))) fun _ => .keeps (.pure _)
    | _ =>
      refine .own (less.operand .delay _ frame) rfl fun value frame₁ => ?_
      exact .binds own fun ref => .keeps (.pure _)
  | assign mark name bindee =>
    refine .own (less.operand .strict bindee frame) rfl fun value frame₁ => ?_
    exact .step (.assign name value) fun _ => .keeps (.pure _)
  | loop mark test body => exact .last (less.evalLoop test body frame) rfl
  | jump mark func args kwargs cc =>
    refine .own (less.evalForced func frame) rfl fun value frame₁ => ?_
    refine .step (.callable value) fun target => ?_
    refine .own (less.operands .delay args frame₁) rfl fun values frame₂ => ?_
    refine .own (less.keywords .delay kwargs frame₂) rfl fun named frame₃ => ?_
    refine .own (less.evalContinuation cc frame₃) rfl fun cc frame₄ => ?_
    exact .keeps (.quiet (.newJump _))
  | capture mark binders captured => exact .keeps (.fail _)

/-- An evaluation gains what it evaluates a `let` of; a block leaves its scope and gains nothing. -/
theorem eval_succ (less : Scoping n) (e : Expr) (frame : Frame) :
    (Task.eval e frame).Scopes (n + 1) frame (Trampoline.eval (n + 1) e) Prod.mk := by
  by_cases block : ∃ mark items, e = .seq mark items
  · -- a block goes back to the scope that it began in
    obtain ⟨mark, items, rfl⟩ := block
    refine ⟨fun m result frame' m' ends => ?_, fun _ _ _ _ => expose_ok⟩
    have ends : Body.inBlock (Trampoline.evalItems n items .nil) ⟨frame, m⟩ =
      some (result, ⟨frame', m'⟩) := ends
    simp only [Body.inBlock] at ends
    split at ends
    · cases ends
    · rename_i ran
      cases ends
      exact .same ((less.evalItems items .nil frame).gains ran).grows
  · have noBlock : ∀ mark items, e ≠ .seq mark items := fun mark items same =>
      block ⟨mark, items, same⟩
    refine of_plan rfl ?_ (fun _ _ _ _ => expose_ok) (plan_eval less noBlock ?_)
    · rintro mark items frame' ⟨⟩
      exact noBlock mark items rfl
    · rintro mark name bindee rfl
      exact ⟨mark, bindee, rfl⟩

theorem succ (less : Scoping n) : Scoping (n + 1) where
  eval := eval_succ less
  evalForced e frame := by
    refine of_plan rfl (by rintro _ _ _ ⟨⟩) (fun _ _ _ _ => expose_ok) ?_
    refine .own (less.eval e frame) rfl fun value frame₁ => ?_
    exact .keeps (.task n (.force value))
  evalContinuation cc frame := by
    refine of_plan rfl (by rintro _ _ _ ⟨⟩) (fun _ _ _ _ => expose_ok) ?_
    cases cc with
    | none => exact .keeps (.pure _)
    | some e => exact .own (less.evalForced e frame) rfl fun value frame₁ => .keeps (.pure _)
  operand policy e frame := by
    refine of_plan rfl (by rintro _ _ _ ⟨⟩) (fun _ _ _ _ => expose_ok) (.isLazy ?_)
    simp only [Task.plan]
    split
    · exact .last (less.eval e frame) rfl
    · cases policy with
      | strict => exact .last (less.evalForced e frame) rfl
      | delay => exact .last (less.delayed e frame) rfl
  delayed e frame := by
    refine of_plan rfl (by rintro _ _ _ ⟨⟩) (fun _ _ _ _ => expose_ok) ?_
    cases e with
    | var mark name => exact .keeps (.lookup name)
    | lit mark value => exact .last (less.eval (.lit mark value) frame) rfl
    | fn mark signature body => exact .last (less.eval (.fn mark signature body) frame) rfl
    | _ => exact .keeps (.bind .frame fun frame => .quiet (.newPromise _))
  operands policy es frame := by
    refine of_plan rfl (by rintro _ _ _ ⟨⟩) (fun _ _ _ _ => expose_ok) ?_
    cases es with
    | nil => exact .keeps (.pure _)
    | cons e rest =>
      refine .own (less.operand policy e frame) rfl fun value frame₁ => ?_
      exact .own (less.operands policy rest frame₁) rfl fun _ _ => .keeps (.pure _)
  keywords policy kwargs frame := by
    refine of_plan rfl (by rintro _ _ _ ⟨⟩) (fun _ _ _ _ => expose_ok) ?_
    rcases kwargs with _ | ⟨⟨name, e⟩, rest⟩
    · exact .keeps (.pure _)
    · refine .own (less.operand policy e frame) rfl fun value frame₁ => ?_
      exact .own (less.keywords policy rest frame₁) rfl fun _ _ => .keeps (.pure _)
  evalArms arms alt frame := by
    refine of_plan rfl (by rintro _ _ _ ⟨⟩) (fun _ _ _ _ => expose_ok) ?_
    rcases arms with _ | ⟨⟨test, body⟩, rest⟩
    · cases alt with
      | none => exact .keeps (.pure _)
      | some e => exact .last (less.eval e frame) rfl
    · refine .own (less.evalForced test frame) rfl fun value frame₁ => ?_
      dsimp only
      split
      · exact .last (less.eval body frame₁) rfl
      · exact .last (less.evalArms rest alt frame₁) rfl
  evalShort op es last frame := by
    refine of_plan rfl (by rintro _ _ _ ⟨⟩) (fun _ _ _ _ => expose_ok) ?_
    cases es with
    | nil => exact .keeps (.pure _)
    | cons e rest =>
      refine .own (less.evalForced e frame) rfl fun value frame₁ => ?_
      dsimp only
      split
      · exact .keeps (.pure _)
      · exact .last (less.evalShort op rest value frame₁) rfl
  evalItems es last frame := by
    refine of_plan rfl (by rintro _ _ _ ⟨⟩) (fun _ _ _ _ => expose_ok) ?_
    cases es with
    | nil => exact .keeps (.pure _)
    | cons e rest =>
      refine .own (less.eval e frame) rfl fun value frame₁ => ?_
      exact .last (less.evalItems rest value frame₁) rfl
  evalLoop test body frame := by
    refine of_plan rfl (by rintro _ _ _ ⟨⟩) (fun _ _ _ _ => expose_ok) ?_
    rw [Grows.evalLoop_eq]
    refine .own (less.evalForced test frame) rfl fun value frame₁ => ?_
    dsimp only
    split
    · refine .own (less.eval body frame₁) rfl fun _ frame₂ => ?_
      exact .last (less.evalLoop test body frame₂) rfl
    · exact .keeps (.pure _)

/-- A body that runs out of fuel has no end. -/
theorem of_outOfFuel (stuck : body = outOfFuel) : task.Scopes n frame body answer := by
  subst stuck
  refine ⟨?_, ?_⟩
  · intro m result frame' m' ends
    cases ends
  · intro m value frame' m' ends
    cases ends

theorem zero : Scoping 0 := by
  constructor <;> intros <;> exact of_outOfFuel rfl

end Scoping

theorem scoping : ∀ n, Scoping n
  | 0 => .zero
  | n + 1 => (scoping n).succ

/-! ## Evaluations -/

section Evaluations

variable {n : Nat} {frame frame' : Frame} {m m' : Machine} {e : Expr}
  {result : Except EvalError Value}

/-- A block leaves the scope as it was. -/
theorem eval_seq_env {mark : Mark} {items : List Expr}
    (ends : eval n (.seq mark items) ⟨frame, m⟩ = some (result, ⟨frame', m'⟩)) :
    frame'.env = frame.env := by
  cases n with
  | zero => cases ends
  | succ n =>
    have ends : Body.inBlock (evalItems n items .nil) ⟨frame, m⟩ = some (result, ⟨frame', m'⟩) :=
      ends
    simp only [Body.inBlock] at ends
    split at ends <;> cases ends
    rfl

/-- An expression is delayed as a promise of it in the scope of now; an atom is not. -/
theorem delayed_scope (ends : delayed n e ⟨frame, m⟩ = some (result, ⟨frame', m'⟩)) :
    frame'.env = frame.env ∧ (e.isAtom = false -> frame' = frame ∧
      result = .ok (.promise m.promises.size) ∧
      m' = { m with promises := m.promises.push (.pending (.expr e frame.env)) }) := by
  cases n with
  | zero => cases ends
  | succ n =>
    cases e with
    | var mark name => exact ⟨(KeepsScope.lookup name ends).1, nofun⟩
    | lit mark value =>
      cases n with
      | zero => cases ends
      | succ n => exact ⟨(KeepsScope.pure _ ends).1, nofun⟩
    | fn mark signature body =>
      cases n with
      | zero => cases ends
      | succ n => exact ⟨(KeepsScope.makeClosure _ ends).1, nofun⟩
    | _ =>
      cases ends
      exact ⟨rfl, fun _ => ⟨rfl, rfl, rfl⟩⟩

end Evaluations

/-- An evaluation that comes to a value or to an error adds names to the scope only of `let` forms
that stand in the expression outside blocks and functions and that it evaluates for this scope, each
for a cell that it makes; all other names stand for what they stood for. A block adds none. What is
delayed adds none when it is delayed, and when it is evaluated later it has a scope of its own, so
no body that asks for its value is left with another frame. -/
theorem evaluations_scope :
    (∀ n e frame m result frame' m', eval n e ⟨frame, m⟩ = some (result, ⟨frame', m'⟩) ->
      (∃ added, frame'.env = added ++ frame.env ∧ ∀ name cell, (name, cell) ∈ added ->
        (m.cells.size ≤ cell ∧ cell < m'.cells.size) ∧ ∃ mark bindee,
          e.Owns (.bind mark name bindee) ∧
            (⟨n, .eval e frame, m⟩ : Call).Evaluates (.bind mark name bindee)) ∧
      (∀ name, (∀ mark bindee, e.Owns (.bind mark name bindee) ->
          ¬ (⟨n, .eval e frame, m⟩ : Call).Evaluates (.bind mark name bindee)) ->
        frame'.env.lookup name = frame.env.lookup name) ∧
      ∀ mark items, e = .seq mark items -> frame'.env = frame.env) ∧
    ∀ n e frame m result frame' m', frame.isLazy = true ->
      operand n .delay e ⟨frame, m⟩ = some (result, ⟨frame', m'⟩) ->
      frame'.env = frame.env ∧
      (e.isAtom = false -> frame' = frame ∧ result = .ok (.promise m.promises.size) ∧
        m' = { m with promises := m.promises.push (.pending (.expr e frame.env)) }) ∧
      ∀ n later last value frame₁ frame₂,
        (force n (.promise m.promises.size)).within ⟨frame₁, later⟩ =
          some (value, ⟨frame₂, last⟩) ->
          frame₂ = frame₁ := by
  refine ⟨fun n e frame m result frame' m' ends => ?_,
    fun n e frame m result frame' m' isLazy ends => ?_⟩
  · obtain ⟨grows, wider⟩ := ((scoping n).eval e frame).gains ends
    have owned {name : String} {mark : Mark} {bindee : Expr}
        (evaluates : (⟨n, .eval e frame, m⟩ : Call).Evaluates (.bind mark name bindee)) :
        e.Owns (.bind mark name bindee) := by
      obtain ⟨outer, member, owns⟩ := evaluates.owned
      rwa [List.mem_singleton.mp member] at owns
    refine ⟨?_, fun name missing => wider.lookup_eq ?_, ?_⟩
    · obtain ⟨added, same, known⟩ := wider
      refine ⟨added, same, fun name cell member => ?_⟩
      obtain ⟨⟨mark, bindee, evaluates⟩, made⟩ := known (name, cell) member
      exact ⟨(Machine.mem_newCells grows).mp made, mark, bindee, owned evaluates, evaluates⟩
    · rintro ⟨mark, bindee, evaluates⟩
      exact missing mark bindee (owned evaluates) evaluates
    · rintro mark items rfl
      exact eval_seq_env ends
  · have foreign {n : Nat} {later last : Machine} {value : Except EvalError Value}
        {frame₁ frame₂ : Frame}
        (ends : (force n (.promise m.promises.size)).within ⟨frame₁, later⟩ =
          some (value, ⟨frame₂, last⟩)) : frame₂ = frame₁ := by
      simp only [Run.within] at ends
      split at ends <;> cases ends
      rfl
    cases n with
    | zero => cases ends
    | succ n =>
      have ends : delayed n e ⟨frame, m⟩ = some (result, ⟨frame', m'⟩) := by
        have asked : operand (n + 1) .delay e ⟨frame, m⟩ =
            (if !frame.isLazy then eval n e else delayed n e) ⟨frame, m⟩ := rfl
        rwa [asked, isLazy] at ends
      obtain ⟨same, delays⟩ := delayed_scope ends
      exact ⟨same, delays, fun _ _ _ _ _ _ => foreign⟩

/-- The name that the test of a conditional binds stays bound where the alternative fails. -/
example : (eval 8 (.cond default [(.bind default "x" (.lit default .nil), .var default "x")]
    (some (.var default "y"))) ⟨.toplevel, .start false⟩).map
      (fun ended => (ended.1.toBool, ended.2.frame.env)) = some (false, [("x", 0)]) := by decide

end Trampoline
