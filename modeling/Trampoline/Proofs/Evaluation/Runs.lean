import Trampoline.Machine.Program
import Trampoline.Proofs.Evaluation.Equations
import Trampoline.Proofs.Evaluation.Stacks

/-!
# How programs end

A program ends on a machine if some amount of fuel is enough for it, and then in one way only. Two
programs match if each ends on a new machine when the other does and the two ends belong together.

More fuel keeps what a task comes to. `Task.full` does a task with as much fuel as it takes; it is
done by its plan, with the tasks in the plan done in full.
-/

namespace Trampoline

/-! ## How programs end -/

section Runs

open Exec

/-- The program ends on this machine, and in this way. -/
def Program.EndsOn (program : Program) (machine : Machine) (outcome : Outcome Machine Value) :
    Prop :=
  ∃ fuel, program.run fuel machine = some outcome

/-- A new machine whose handlers let these errors pass. -/
def Machine.startLetting (errors : EvalError -> Bool) (closedOutput : Bool) : Machine :=
  { Machine.start closedOutput with passed := errors }

/-- A run of the program raises one of these errors, handled or not: where handlers let them pass,
it ends with the first of them. -/
def Program.Raises (program : Program) (errors : EvalError -> Bool) (closedOutput : Bool) : Prop :=
  ∃ error last, errors error = true ∧
    program.EndsOn (Machine.startLetting errors closedOutput) (.error error, last)

/-- The same output, and the same error or values that are shown alike. -/
def SameEnd : Outcome Machine Value -> Outcome Machine Value -> Prop
  | (.ok value, machine), (.ok value', machine') =>
    machine'.repr value' = machine.repr value ∧ machine'.output = machine.output
  | (.error error, machine), (.error error', machine') =>
    error' = error ∧ machine'.output = machine.output
  | _, _ => False

/-- Each program ends on a new machine when the other does, and the ends belong together. -/
structure Program.Matches (first second : Program)
    (rel : Outcome Machine Value -> Outcome Machine Value -> Prop) (closedOutput : Bool) :
    Prop where
  forth : ∀ outcome, first.EndsOn (Machine.start closedOutput) outcome ->
    ∃ other, second.EndsOn (Machine.start closedOutput) other ∧ rel outcome other
  back : ∀ other, second.EndsOn (Machine.start closedOutput) other ->
    ∃ outcome, first.EndsOn (Machine.start closedOutput) outcome ∧ rel outcome other

variable {outcome other another : Outcome Machine Value} {program : Program}

/-- Two ends that are the same as a third are the same. -/
theorem SameEnd.compare (same : SameEnd outcome other) (same' : SameEnd outcome another) :
    SameEnd other another := by
  obtain ⟨result, machine⟩ := outcome
  obtain ⟨result', machine'⟩ := other
  obtain ⟨result'', machine''⟩ := another
  cases result <;> cases result' <;> cases result'' <;>
    first
    | exact same.elim
    | exact same'.elim
    | exact ⟨same'.1.trans same.1.symm, same'.2.trans same.2.symm⟩

theorem SameEnd.refl (outcome : Outcome Machine Value) : SameEnd outcome outcome := by
  rcases outcome with ⟨error | value, machine⟩ <;> exact ⟨rfl, rfl⟩

theorem SameEnd.symm (same : SameEnd outcome other) :
    SameEnd other outcome := same.compare (.refl outcome)

theorem SameEnd.trans (same : SameEnd outcome other)
    (same' : SameEnd other another) : SameEnd outcome another := same.symm.compare same'

/-! ## Toplevel forms as chains -/

/-- Toplevel forms end wherever they ended with less fuel. -/
theorem runToplevels_le (n : Nat) (top : List Toplevel) (last : Value) :
    runToplevels n top last ≤ runToplevels (n + 1) top last := by
  induction top generalizing last with
  | nil => exact le_refl _
  | cons first rest ih =>
    have evaluated (e : Expr) : evalToplevel n e ≤ evalToplevel (n + 1) e :=
      guarded_le (bodyRun_le ((grows n).eval e) _)
    cases first with
    | define name bindee =>
      exact bind_le (evaluated bindee) fun value => bind_le (le_refl _) fun _ => ih last
    | exec e =>
      exact bind_le (evaluated e) fun value => bind_le ((grows n).force value) fun value => ih value

namespace Chain

/-- Evaluate the expression of a toplevel form. -/
def evalToplevel (e : Expr) : Chain Machine Value :=
  ((eval e).bodyRun Frame.toplevel).guarded

/-- Run toplevel forms. -/
def runToplevels (top : List Toplevel) (last : Value) : Chain Machine Value :=
  ⟨fun n => Trampoline.runToplevels n top last, fun n => runToplevels_le n top last⟩

theorem cut_evalToplevel (e : Expr) (n : Nat) :
    (evalToplevel e).cut n = (((eval e).cut n).bodyRun Frame.toplevel).guarded := by
  rw [evalToplevel, cut_guarded, cut_bodyRun]

theorem runToplevels_nil (last : Value) (n : Nat) : (runToplevels [] last).cut n = pure last :=
  cut_pure last n

theorem runToplevels_define (name : String) (bindee : Expr) (rest : List Toplevel) (last : Value)
    (n : Nat) :
    (runToplevels (.define name bindee :: rest) last).cut n = (do
      let value ← evalToplevel bindee
      lift (defineToplevel name value)
      runToplevels rest last : Chain Machine Value).cut n := rfl

theorem runToplevels_exec (e : Expr) (rest : List Toplevel) (last : Value) (n : Nat) :
    (runToplevels (.exec e :: rest) last).cut n = (do
      let value ← evalToplevel e
      let value ← force value
      runToplevels rest value : Chain Machine Value).cut n := rfl

end Chain

/-- A program ends as its forms do in full. -/
theorem Program.endsOn_iff (program : Program) (machine : Machine)
    (outcome : Outcome Machine Value) : program.EndsOn machine outcome ↔
      (Chain.runToplevels program.top .nil).full machine = some outcome := by
  rw [Chain.full_eq_some]
  rfl

/-- A program ends in one way at most. -/
theorem Program.EndsOn.unique {machine : Machine} (ends : program.EndsOn machine outcome)
    (ends' : program.EndsOn machine other) : outcome = other := by
  have full := (program.endsOn_iff machine outcome).mp ends
  have full' := (program.endsOn_iff machine other).mp ends'
  exact Option.some.inj (full.symm.trans full')

/-- A run that lets the errors pass and still ends with a value raises none of them. -/
theorem Program.not_raises {errors : EvalError -> Bool} {closedOutput : Bool}
    (fuel : Nat) (ends : (program.run fuel (Machine.startLetting errors closedOutput)).any
      (fun outcome => outcome.1.toBool) = true) : ¬ program.Raises errors closedOutput := by
  rintro ⟨error, last, -, raised⟩
  obtain ⟨outcome, ran, value⟩ := (Option.any_eq_true _ _).mp ends
  have same := Program.EndsOn.unique ⟨fuel, ran⟩ raised
  simp [same, Except.toBool] at value

end Runs

/-! ## Tasks with all the fuel they need -/

section Limits

open Exec

variable {α : Type}

variable {task : Task} {m m' : Machine} {perform : (task : Task) -> Run task.Answer}

/-- A plan ends wherever it ends with tasks that do less. -/
theorem Plan.run_le {other : (task : Task) -> Run task.Answer}
    (lower : ∀ task, perform task ≤ other task) (plan : Plan α) :
    plan.run perform ≤ plan.run other := by
  induction plan with
  | done value => exact le_refl _
  | step run next ih => exact bind_le (le_refl _) ih
  | ask task next ih => exact bind_le (lower task) ih
  | guarded inner next inside ih => exact bind_le (guarded_le inside) ih
  | settle inner next inside ih => exact settle_le inside ih

theorem Plan.run_sub (perform : (task : Task) -> Run task.Answer) (task : Task) :
    (sub task).run perform = perform task :=
  bind_pure (perform task)

/-- A plan goes on with the answer of its first task. -/
theorem Plan.run_sub_bind {next : task.Answer -> Plan α} {answer : task.Answer}
    (ends : perform task m = some (.ok answer, m')) :
    (sub task >>= next).run perform m = (next answer).run perform m' :=
  bind_apply ends _

/-- A plan goes on with what its first step comes to. -/
theorem Plan.run_lift_bind {β : Type} {run : Run β}
    {next : β -> Plan α} {value : β} (ends : run m = some (.ok value, m')) :
    (lift run >>= next).run perform m = (next value).run perform m' :=
  bind_apply ends _

/-- A task ends wherever it ended with less fuel. -/
theorem Task.run_le (n : Nat) (task : Task) : task.run n ≤ task.run (n + 1) := by
  induction n generalizing task with
  | zero =>
    intro m outcome ends
    cases task <;> cases ends
  | succ n ih =>
    rw [Task.run_succ, Task.run_succ]
    exact Plan.run_le ih task.plan

/-- A task with growing fuel. -/
def Task.chain (task : Task) : Chain Machine task.Answer :=
  ⟨fun n => task.run n, fun n => task.run_le n⟩

/-- Do a task with as much fuel as it takes. -/
noncomputable def Task.full (task : Task) : Run task.Answer := task.chain.full

theorem Task.full_eq_some {outcome : Outcome Machine task.Answer} :
    task.full m = some outcome ↔ ∃ n, task.run n m = some outcome :=
  Chain.full_eq_some

theorem Task.run_le_full (n : Nat) (task : Task) : task.run n ≤ task.full :=
  task.chain.upTo_le_full n

namespace Plan

/-- Follow a plan with growing fuel for the tasks in it. -/
def chain {α : Type} : Plan α -> Chain Machine α
  | done value => pure value
  | step run next => Chain.lift run >>= fun value => (next value).chain
  | ask task next => task.chain >>= fun answer => (next answer).chain
  | guarded inner next => inner.chain.guarded >>= fun value => (next value).chain
  | settle inner next => Chain.settle inner.chain fun result => (next result).chain

/-- The chain of a plan is the plan run with tasks of so much fuel. -/
theorem upTo_chain (n : Nat) (plan : Plan α) : plan.chain.upTo n = plan.run (Task.run n) := by
  induction plan with
  | done value => rfl
  | step run next ih => exact bind_congr ih
  | ask task next ih => exact bind_congr ih
  | guarded inner next inside ih =>
    show Run.guarded (inner.chain.upTo n) >>= _ = Run.guarded (inner.run (Task.run n)) >>= _
    rw [inside]
    exact bind_congr ih
  | settle inner next inside ih => exact settle_congr inside ih

/-- In full, it is the plan run with tasks in full. -/
theorem full_chain (plan : Plan α) : plan.chain.full = plan.run Task.full := by
  induction plan with
  | done value => exact Chain.full_pure value
  | step run next ih =>
    rw [chain, Chain.full_bind, Chain.full_lift]
    exact bind_congr ih
  | ask task next ih =>
    rw [chain, Chain.full_bind]
    exact bind_congr ih
  | guarded inner next inside ih =>
    have kept : inner.chain.guarded.full = Run.guarded inner.chain.full :=
      congrArg Bounded.full (Chain.cut_guarded inner.chain 0)
    rw [chain, Chain.full_bind, kept, inside]
    exact bind_congr ih
  | settle inner next inside ih =>
    have kept := Chain.cut_settle inner.chain (fun result => (next result).chain) 0
    exact (congrArg Bounded.full kept).trans (settle_congr inside ih)

/-- What a plan comes to, it comes to with some amount of fuel. -/
theorem run_full_eq_some {plan : Plan α} {m : Machine} {outcome : Outcome Machine α} :
    plan.run Task.full m = some outcome ↔ ∃ n, plan.run (Task.run n) m = some outcome := by
  rw [← full_chain, Chain.full_eq_some]
  simp only [upTo_chain]

end Plan

/-- A task in full is its plan run with tasks in full. -/
theorem Task.full_eq (task : Task) : task.full = task.plan.run Task.full := by
  rw [← Plan.full_chain]
  refine Chain.full_eq_of_succ fun n => ?_
  rw [Plan.upTo_chain]
  exact task.run_succ n

/-- What is no promise is forced as it is. -/
theorem full_force {value : Value} (plain : ∀ ref, value ≠ .promise ref) :
    (Task.force value).full m = some (.ok value, m) := by
  rw [Task.full_eq, Task.plan]
  · rfl
  · exact plain

/-- What a native computes does not depend on fuel. -/
theorem full_compute {op : Native} {values : List Value} {compute : Run Value}
    (computes : op.compute? values = some compute) :
    (Task.applyNative op values).full = compute := by
  rw [Task.full_eq]
  cases op with
  | print | str | raise | assertEq | force | forceDeep | attempt => cases computes
  | _ =>
    cases computes
    exact Plan.run_lift _ _

/-- Programs end as their plans do. -/
theorem Program.endsOn_iff_full {program : Program}
    {outcome : Outcome Machine Value} : program.EndsOn m outcome ↔
      (Plan.toplevels program.top .nil).run Task.full m = some outcome := by
  simp only [Plan.run_full_eq_some, Plan.run_toplevels]
  rfl

end Limits

end Trampoline
