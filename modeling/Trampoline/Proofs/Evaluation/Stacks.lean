import Trampoline.Proofs.Evaluation.Tasks

/-!
# Stacks of calls

A plan asks for tasks on its way, each on the machine as it is by then, and stays under way until
they are done. Calls that are under way at the same time form a stack: each was asked for by the one
below it, and the lowest by what evaluation started from. The calls that a run makes can be listed,
so whether it gets to a call of some kind can be computed.

A host works with a machine by operations of its choice, one after another, however each of them
ends. The history of such a session is all calls that are made on the way, in the order in which
they are begun; a prefix of it is there even if the session never ends.
-/

namespace Trampoline

/-! ## Calls under way -/

section Stacks

open Exec

/-- Following a plan from the machine, the task is asked for on the machine `later`. -/
def Plan.Asks {α : Type} (perform : (task : Task) -> Run task.Answer) (task : Task)
    (later : Machine) : Plan α -> Machine -> Prop
  | done _, _ => False
  | step run next, m =>
    ∃ value middle, run m = some (.ok value, middle) ∧ (next value).Asks perform task later middle
  | ask first next, m =>
    (first = task ∧ m = later) ∨
      ∃ answer middle, perform first m = some (.ok answer, middle) ∧
        (next answer).Asks perform task later middle
  | guarded inner next, m =>
    inner.Asks perform task later m ∨
      ∃ value middle, (inner.run perform).guarded m = some (.ok value, middle) ∧
        (next value).Asks perform task later middle
  | settle inner next, m =>
    inner.Asks perform task later m ∨
      ∃ result middle, inner.run perform m = some (result, middle) ∧
        (next result).Asks perform task later middle

namespace Plan

variable {α β : Type} {perform : (task : Task) -> Run task.Answer} {task : Task} {m later : Machine}

/-- A value asks for no task. -/
@[simp] theorem not_asks_pure (value : α) : ¬ (pure value : Plan α).Asks perform task later m := id

@[simp] theorem not_asks_lift (run : Run α) : ¬ (lift run).Asks perform task later m := by
  simp [lift, Asks]

@[simp] theorem not_asks_done (value : α) : ¬ (done value).Asks perform task later m := id

@[simp] theorem asks_ask (first : Task) (next : first.Answer -> Plan α) :
    (ask first next).Asks perform task later m ↔ (first = task ∧ m = later) ∨
      ∃ answer middle, perform first m = some (.ok answer, middle) ∧
        (next answer).Asks perform task later middle := Iff.rfl

@[simp] theorem asks_lift_bind (run : Run α) (next : α -> Plan β) :
    (lift run >>= next).Asks perform task later m ↔
      ∃ value middle, run m = some (.ok value, middle) ∧
        (next value).Asks perform task later middle := Iff.rfl

end Plan

/-- A task to be done on a machine, with an amount of fuel. -/
structure Call where
  fuel : Nat
  task : Task
  machine : Machine

namespace Call

/-- The call ends so. -/
def Ends (call : Call) (outcome : Outcome Machine call.task.Answer) : Prop :=
  call.task.run call.fuel call.machine = some outcome

/-- The call ends with the error. -/
def Fails (call : Call) (error : EvalError) : Prop :=
  ∃ last, call.Ends (.error error, last)

/-- On its way, one call makes another. -/
structure Makes (caller callee : Call) : Prop where
  fuel : caller.fuel = callee.fuel + 1
  asks : caller.task.plan.Asks (Task.run callee.fuel) callee.task callee.machine caller.machine

end Call

/-! ## Programs -/

/-- How the expression of a toplevel form is evaluated. -/
def Plan.toplevel (e : Expr) : Plan Value :=
  guarded (ask (.eval e Frame.toplevel) fun ended => done ended.1) done

/-- How toplevel forms are run. -/
def Plan.toplevels : List Toplevel -> (last : Value) -> Plan Value
  | [], last => pure last
  | .define name bindee :: rest, last => do
    let value ← toplevel bindee
    lift (defineToplevel name value)
    toplevels rest last
  | .exec e :: rest, _ => do
    let value ← toplevel e
    let value ← sub (.force value)
    toplevels rest value

/-- The plan of a toplevel expression does what the expression does. -/
theorem Plan.run_toplevel (n : Nat) (e : Expr) :
    (toplevel e).run (Task.run n) = evalToplevel n e := by
  simp [toplevel, evalToplevel, Task.run, bodyRun_eq_expose]

/-- The plan of toplevel forms does what they do. -/
theorem Plan.run_toplevels (n : Nat) (top : List Toplevel) (last : Value) :
    (toplevels top last).run (Task.run n) = runToplevels n top last := by
  induction top generalizing last with
  | nil => rfl
  | cons first rest ih =>
    cases first <;> simp [toplevels, runToplevels, run_toplevel, ih, Task.run]

/-- What evaluation starts from. -/
inductive Entry where
  | task (task : Task)
  | program (program : Program)

namespace Entry

/-- Starting from here with this fuel ends with the error. -/
def Fails (n : Nat) (m : Machine) (error : EvalError) : Entry -> Prop
  | task asked => Call.Fails ⟨n, asked, m⟩ error
  | program run => ∃ last, run.run n m = some (.error error, last)

/-- A call that nothing else under way has made. -/
def Makes (n : Nat) (m : Machine) (call : Call) : Entry -> Prop
  | task asked => call = ⟨n, asked, m⟩
  | program run =>
    call.fuel = n ∧ (Plan.toplevels run.top .nil).Asks (Task.run n) call.task call.machine m

/-- The calls that are under way at one time, the last one first. -/
inductive Stack (entry : Entry) (n : Nat) (m : Machine) : List Call -> Prop where
  | first {call : Call} (made : entry.Makes n m call) : Stack entry n m [call]
  | next {caller callee : Call} {callers : List Call} (below : Stack entry n m (caller :: callers))
      (made : caller.Makes callee) : Stack entry n m (callee :: caller :: callers)

end Entry

end Stacks

/-! ## Looking for calls -/

section Searches

variable {perform : (task : Task) -> Run task.Answer}

/-- The tasks that following a plan from the machine asks for, each on the machine as it is then. -/
def Plan.asked (perform : (task : Task) -> Run task.Answer) {α : Type} :
    Plan α -> Machine -> List (Task × Machine)
  | done _, _ => []
  | step run next, m =>
    match run m with
    | some (.ok value, middle) => (next value).asked perform middle
    | _ => []
  | ask first next, m =>
    (first, m) ::
      match perform first m with
      | some (.ok answer, middle) => (next answer).asked perform middle
      | _ => []
  | guarded inner next, m =>
    inner.asked perform m ++
      match (inner.run perform).guarded m with
      | some (.ok value, middle) => (next value).asked perform middle
      | _ => []
  | settle inner next, m =>
    inner.asked perform m ++
      match inner.run perform m with
      | some (result, middle) => (next result).asked perform middle
      | none => []

/-- What is listed as asked for is asked for. -/
theorem Plan.asks_of_mem {α : Type} {plan : Plan α} {m later : Machine} {task : Task}
    (member : (task, later) ∈ plan.asked perform m) : plan.Asks perform task later m := by
  induction plan generalizing m with
  | done value => cases member
  | step run next ih =>
    simp only [asked] at member
    split at member
    · rename_i value middle ran
      exact ⟨value, middle, ran, ih value member⟩
    · cases member
  | ask first next ih =>
    rw [asked] at member
    rcases List.mem_cons.mp member with same | member
    · cases same
      exact .inl ⟨rfl, rfl⟩
    · split at member
      · rename_i answer middle ran
        exact .inr ⟨answer, middle, ran, ih answer member⟩
      · cases member
  | guarded inner next ihInner ih =>
    rw [asked] at member
    rcases List.mem_append.mp member with within | member
    · exact .inl (ihInner within)
    · split at member
      · rename_i value middle ran
        exact .inr ⟨value, middle, ran, ih value member⟩
      · cases member
  | settle inner next ihInner ih =>
    rw [asked] at member
    rcases List.mem_append.mp member with within | member
    · exact .inl (ihInner within)
    · split at member
      · rename_i result middle ran
        exact .inr ⟨result, middle, ran, ih result member⟩
      · cases member

/-- Whether doing the task gets to a call of the kind. -/
def Task.getsTo (kind : Task -> Machine -> Bool) : Nat -> Task -> Machine -> Bool
  | 0, task, m => kind task m
  | n + 1, task, m =>
    kind task m || (task.plan.asked (Task.run n) m).any fun call => getsTo kind n call.1 call.2

/-- Whether running the program gets to a call of the kind. -/
def Program.getsTo (kind : Task -> Machine -> Bool) (n : Nat) (program : Program) (m : Machine) :
    Bool :=
  ((Plan.toplevels program.top .nil).asked (Task.run n) m).any fun call =>
    Task.getsTo kind n call.1 call.2

section Search

variable {kind : Task -> Machine -> Bool} {entry : Entry} {n : Nat} {m : Machine}

/-- The search among calls finds a call of the kind with those that are under way. -/
theorem Entry.Stack.search {fuel : Nat} {task : Task} {later : Machine} {callers : List Call}
    (stack : entry.Stack n m (⟨fuel, task, later⟩ :: callers))
    (gets : Task.getsTo kind fuel task later = true) : ∃ call callers,
      entry.Stack n m (call :: callers) ∧ kind call.task call.machine = true := by
  induction fuel generalizing task later callers with
  | zero => exact ⟨_, _, stack, gets⟩
  | succ fuel ih =>
    simp only [Task.getsTo, Bool.or_eq_true, List.any_eq_true] at gets
    rcases gets with here | ⟨⟨inner, middle⟩, asked, further⟩
    · exact ⟨_, _, stack, here⟩
    · have made : Call.Makes ⟨fuel + 1, task, later⟩ ⟨fuel, inner, middle⟩ :=
        ⟨rfl, Plan.asks_of_mem asked⟩
      exact ih (stack.next made) further

/-- A program that gets to a call of the kind makes such a call. -/
theorem Program.getsTo_stack {program : Program} (gets : program.getsTo kind n m = true) :
    ∃ call callers, Entry.Stack (.program program) n m (call :: callers) ∧
      kind call.task call.machine = true := by
  obtain ⟨⟨task, later⟩, asked, gets⟩ := List.any_eq_true.mp gets
  have made : (Entry.program program).Makes n m ⟨n, task, later⟩ := ⟨rfl, Plan.asks_of_mem asked⟩
  exact (Entry.Stack.first made).search gets

end Search

end Searches

/-! ## Histories of sessions -/

section Histories

open Exec

/-! ## The order of calls -/

/-- The calls on the way of a plan, in the order in which they are begun; `inside` are those of a
task, itself first. -/
def Plan.calls {α : Type} (perform : (task : Task) -> Run task.Answer)
    (inside : Task -> Machine -> List Call) : Plan α -> Machine -> List Call
  | done _, _ => []
  | step run next, m =>
    match run m with
    | some (.ok value, m) => (next value).calls perform inside m
    | _ => []
  | ask task next, m => inside task m ++
    match perform task m with
    | some (.ok answer, m) => (next answer).calls perform inside m
    | _ => []
  | guarded inner next, m => inner.calls perform inside m ++
    match (inner.run perform).guarded m with
    | some (.ok value, m) => (next value).calls perform inside m
    | _ => []
  | settle inner next, m => inner.calls perform inside m ++
    match inner.run perform m with
    | some (result, m) => (next result).calls perform inside m
    | none => []

/-- The call of a task and those on its way. -/
def Task.calls : Nat -> Task -> Machine -> List Call
  | 0, task, m => [⟨0, task, m⟩]
  | n + 1, task, m => ⟨n + 1, task, m⟩ :: task.plan.calls (Task.run n) (Task.calls n) m

/-! ## Sessions -/

/-- What a host can do with a machine. -/
inductive Operation where
  /-- Have something evaluated, applied, called, forced or run by a trampoline. -/
  | task (task : Task)
  | run (program : Program)
  | define (name : String) (value : Value)
  | delay (thunk : Thunk)
  | list (items : List Value)
  | jump (jump : Jump)

namespace Plan

/-- How an operation is done. -/
def operation : Operation -> Plan Unit
  | .task task => ask task fun _ => done ()
  | .run program => toplevels program.top .nil >>= fun _ => done ()
  | .define name value => lift (Exec.modify fun m => m.define name value)
  | .delay thunk => lift (Run.newPromise thunk) >>= fun _ => done ()
  | .list items => lift (Run.newList items) >>= fun _ => done ()
  | .jump jump => lift (Run.newJump jump) >>= fun _ => done ()

/-- How operations are done one after another, also after failures. -/
def session : List Operation -> Plan Unit
  | [] => done ()
  | first :: rest => settle (operation first) fun _ => session rest

/-- The calls of a plan that are under way at one time, the last one first. -/
inductive Stack {α : Type} (plan : Plan α) (n : Nat) (m : Machine) : List Call -> Prop where
  | first {call : Call} (fuel : call.fuel = n)
      (asks : plan.Asks (Task.run n) call.task call.machine m) : Stack plan n m [call]
  | next {caller callee : Call} {callers : List Call} (below : Stack plan n m (caller :: callers))
      (made : caller.Makes callee) : Stack plan n m (callee :: caller :: callers)

end Plan

/-- The calls of a session from a machine on, with an amount of fuel for each operation. -/
def history (n : Nat) (operations : List Operation) (m : Machine) : List Call :=
  (Plan.session operations).calls (Task.run n) (Task.calls n) m

/-- A session leads from one machine to the other. -/
def Machine.Reaches (m : Machine) (n : Nat) (operations : List Operation) (m' : Machine) : Prop :=
  (Plan.session operations).run (Task.run n) m = some (.ok (), m')

end Histories

end Trampoline
