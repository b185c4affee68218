import Trampoline.Proofs.Escapes.Arrival
import Trampoline.Proofs.Extents.Guards

/-!
# Extents form a stack

Whatever the evaluator does, and however it ends, extents come on the stack above those that are
there, and flags of extents and escape points only go out. A guarded operation takes off the stack
what came on it meanwhile: a failure puts the flags of all that out, and an escape leaves them as
they were when it was raised.
-/

namespace Trampoline

open Exec

namespace Machine

/-- From one machine to another, extents come on top of the stack and flags only go out. -/
structure Fades (m m' : Machine) : Prop where
  stack : m.stack.toList <+: m'.stack.toList
  extents : ∀ extent : Nat, m.extents[extent]? = some false -> m'.extents[extent]? = some false
  points : ∀ tag : Nat, m.points[tag]? = some false -> m'.points[tag]? = some false

/-- A lasting relation that also holds when a promise is set. -/
structure Enduring (lasts : Machine -> Machine -> Prop) : Prop extends Lasting lasts where
  promise : ∀ (m : Machine) ref state, lasts m (m.withPromise ref state)

variable {m middle last m' : Machine} {extent : Nat}

/-- An extent is out if it was made and is not valid any more. -/
theorem out_iff : m.extents[extent]? = some false ↔
    extent < m.extents.size ∧ m.valid extent = false := by
  rw [valid, Array.getD_eq_getD_getElem?]
  by_cases inside : extent < m.extents.size
  · simp [inside]
  · simp [inside]

theorem Fades.of_eq (stack : m'.stack = m.stack) (extents : m'.extents = m.extents)
    (points : m'.points = m.points) : m.Fades m' where
  stack := ⟨[], by rw [List.append_nil, stack]⟩
  extents extent out := by rwa [extents]
  points tag out := by rwa [points]

/-- A flag that is out does not go on when another one is added. -/
theorem out_of_push {flags : Array Bool} {ref : Nat} (out : flags[ref]? = some false) :
    (flags.push true)[ref]? = some false := by
  have inside := (Array.getElem?_eq_some_iff.mp out).1
  rwa [Array.getElem?_push, if_neg (Nat.ne_of_lt inside)]

/-- Effects let nothing fade that was out. -/
theorem Fades.changes (changes : m.Changes m') : m.Fades m' := by
  cases changes with
  | other _ extents stack points => exact .of_eq stack extents points
  | delay => exact .of_eq rfl rfl rfl
  | capture =>
    refine ⟨by simp, fun extent out => out_of_push out, fun _ out => out⟩
  | enter => exact ⟨List.prefix_rfl, fun _ out => out, fun tag out => out_of_push out⟩
  | leave tag =>
    refine ⟨List.prefix_rfl, fun _ out => out, fun other out => ?_⟩
    simp only [Run.leavePoint, Array.getElem?_setIfInBounds]
    split
    · split
      · rfl
      · simp_all
    · exact out

/-- What came on the stack within a guarded operation is off when it is over. -/
theorem Fades.take_stack (fades : m.Fades last) :
    last.stack.toList.take m.stack.size = m.stack.toList := by
  rw [← Array.length_toList]
  exact (List.prefix_iff_eq_take.mp fades.stack).symm

theorem Fades.guarded {α : Type} (fades : m.Fades last) (result : Except EvalError α) :
    m.Fades (guardedState m.stack.size (result, last)) where
  stack := ⟨[], by rw [List.append_nil, Disposes.stack_guardedState, fades.take_stack]⟩
  extents extent out := by
    obtain ⟨inside, invalid⟩ := out_iff.mp (fades.extents extent out)
    refine out_iff.mpr ⟨?_, ?_⟩
    · rwa [Disposes.size_guardedState]
    · rw [Disposes.valid_guardedState, invalid, Bool.false_and]
  points tag out := by
    rw [guardedState_points]
    exact fades.points tag out

/-- Fading is kept by all that a machine does. -/
theorem Fades.enduring : Enduring Fades where
  refl _ := .of_eq rfl rfl rfl
  trans first second :=
    { stack := first.stack.trans second.stack
      extents := fun extent out => second.extents extent (first.extents extent out)
      points := fun tag out => second.points tag (first.points tag out) }
  changes := .changes
  guarded result fades := fades.guarded result
  promise _ _ _ := .of_eq rfl rfl rfl

end Machine

/-! ## Along whatever is done -/

section Along

variable {lasts : Machine -> Machine -> Prop} (enduring : Machine.Enduring lasts)
include enduring

/-- Being lasting is preserved by all that a machine does. -/
theorem Machine.Enduring.preserved : Machine.Preserved (fun _ => True) lasts where
  refl := enduring.refl
  trans := enduring.trans
  effect {effect} m _ := by
    by_cases settles : ∃ ref state, effect = .setPromise ref state
    · obtain ⟨ref, state, rfl⟩ := settles
      exact enduring.promise m ref state
    · refine enduring.changes (effect.changes ?_ m)
      rintro ref state rfl
      exact settles ⟨ref, state, rfl⟩
  guarded := enduring.guarded

/-- It holds along every task. -/
theorem Task.along (n : Nat) (task : Task) (m : Machine) (result : Except EvalError task.Answer)
    (m' : Machine) (ends : task.run n m = some (result, m')) : lasts m m' :=
  enduring.preserved.task ends

/-- It holds along every program. -/
theorem Program.along (n : Nat) (program : Program) (m : Machine) (result : Except EvalError Value)
    (m' : Machine) (ends : program.run n m = some (result, m')) : lasts m m' := by
  rw [Program.run, ← Plan.run_toplevels] at ends
  exact (Plan.toplevels_gradual _ _).along enduring.toLasting (Task.along enduring n) ends

end Along

/-! ## Where escapes come from -/

namespace Machine

variable {m middle last m' : Machine}

/-- All extents that were valid still are. -/
def Spares (m m' : Machine) : Prop := ∀ extent, m.valid extent = true -> m'.valid extent = true

theorem Spares.of_eq (same : m'.extents = m.extents) : m.Spares m' := by
  intro extent valid
  rwa [valid_congr same]

theorem Spares.trans (first : m.Spares middle) (second : middle.Spares m') : m.Spares m' :=
  fun extent valid => second extent (first extent valid)

variable {α : Type}

/-- Steps of evaluation invalidate nothing, since only the failure of a guarded operation does. -/
theorem Spares.gradual {run : Run α} (gradual : run.Gradual)
    {result : Except EvalError α} (ends : run m = some (result, m')) : m.Spares m' := by
  intro extent valid
  have inside : extent < m.extents.size := by
    refine Nat.lt_of_not_le fun outside => ?_
    simp [Machine.valid, Array.getD_eq_getD_getElem?, outside] at valid
  rwa [(gradual.disposes ends).old extent inside]

/-- An escape invalidates nothing on its way out of a guarded operation. -/
theorem Spares.escape {error : EvalError} (escapes : error.isEscape = true)
    (mark : Nat) (m : Machine) :
    m.Spares (guardedState mark ((.error error : Except EvalError α), m)) := by
  intro extent valid
  rw [Disposes.valid_guardedState, valid]
  simp [isFailure, escapes]

end Machine

namespace Plan

variable {α : Type} {plan : Plan α} {perform : (task : Task) -> Run task.Answer}
  {m m' : Machine}

/-- A plan that only lets an escape pass spares every extent. -/
theorem Unwinds.spares {error : EvalError} (unwinds : plan.Unwinds error) (gradual : plan.Gradual)
    {result : Except EvalError α} (ends : plan.run perform m = some (result, m')) :
    m.Spares m' := by
  induction plan generalizing m with
  | step act next ih =>
    rcases bind_eq_some.mp ends with ⟨value, middle, ran, rest⟩ | ⟨other, last, ran, equal⟩
    · rcases unwinds with fails | ⟨-, after⟩
      · cases (fails m).symm.trans ran
      · exact (Machine.Spares.gradual gradual.1 ran).trans
          (ih value (after value) (gradual.2 value) rest)
    · cases equal
      exact .gradual gradual.1 ran
  | _ => exact unwinds.elim

/-- An escape from a plan is one from a task that it asks for, and meanwhile nothing becomes
invalid. -/
theorem Plain.raised (plain : plan.Plain) (gradual : plan.Gradual) {tag : Nat} {value : Value}
    (ends : plan.run perform m = some (.error (.escape tag value), m')) :
    ∃ task later last, plan.Asks perform task later m ∧
      perform task later = some (.error (.escape tag value), last) ∧ last.Spares m' := by
  induction plan generalizing m m' with
  | done value => cases ends
  | step act next ih =>
    rcases bind_eq_some.mp ends with ⟨value, middle, ran, rest⟩ | ⟨error, last, ran, equal⟩
    · obtain ⟨task, later, last, asks, raises, spares⟩ :=
        ih value (plain.2 value) (gradual.2 value) rest
      exact ⟨task, later, last, ⟨value, middle, ran, asks⟩, raises, spares⟩
    · cases equal
      cases (plain.1 m _ _ ran).2 _ rfl
  | ask first next ih =>
    rcases bind_eq_some.mp ends with ⟨answer, middle, ran, rest⟩ | ⟨error, last, ran, equal⟩
    · obtain ⟨task, later, last, asks, raises, spares⟩ :=
        ih answer (plain answer) (gradual answer) rest
      exact ⟨task, later, last, .inr ⟨answer, middle, ran, asks⟩, raises, spares⟩
    · cases equal
      exact ⟨first, m, m', .inl ⟨rfl, rfl⟩, ran, fun _ valid => valid⟩
  | guarded inner next ihInner ih =>
    rcases bind_eq_some.mp ends with ⟨value, middle, ran, rest⟩ | ⟨error, _, ran, equal⟩
    · obtain ⟨task, later, last, asks, raises, spares⟩ :=
        ih value (plain.2 value) (gradual.2 value) rest
      exact ⟨task, later, last, .inr ⟨value, middle, ran, asks⟩, raises, spares⟩
    · cases equal
      obtain ⟨end', inside, rfl⟩ := guarded_eq_some.mp ran
      obtain ⟨task, later, last, asks, raises, spares⟩ := ihInner plain.1 gradual.1 inside
      exact ⟨task, later, last, .inl asks, raises, spares.trans (.escape rfl _ _)⟩
  | settle inner next ihInner ih =>
    obtain ⟨result, middle, ran, rest⟩ := settle_eq_some.mp ends
    have goesOn (after : (next result).Plain) : ∃ task later last,
        (Plan.settle inner next).Asks perform task later m ∧
          perform task later = some (.error (.escape tag value), last) ∧ last.Spares m' := by
      obtain ⟨task, later, last, asks, raises, spares⟩ := ih result after (gradual.2 result) rest
      exact ⟨task, later, last, .inr ⟨result, middle, ran, asks⟩, raises, spares⟩
    cases result with
    | ok value => exact goesOn (plain.2.1 value)
    | error error =>
      have after := plain.2.2 error
      split at after
      · -- the escape of the inner part goes on as it is
        obtain ⟨end', unwound, -⟩ := after.run perform middle
        cases unwound.symm.trans rest
        obtain ⟨task, later, last, asks, raises, spares⟩ := ihInner plain.1 gradual.1 ran
        exact ⟨task, later, last, .inl asks, raises,
          spares.trans (after.spares (gradual.2 _) rest)⟩
      · exact goesOn after

/-- A force asks for what computes its promise. -/
theorem asks_force_of_pending {ref : Nat} {thunk : Thunk} (pending : m.promise ref = .pending thunk)
    {task : Task} {later : Machine}
    (asks : (computing thunk).Asks perform task later (m.beginForce ref)) :
    (Task.force (.promise ref)).plan.Asks perform task later m := by
  rw [Task.plan]
  refine (asks_lift_bind _ _).mpr ⟨.pending thunk, m, ?_, ?_⟩
  · show some (Except.ok (m.promise ref), m) = _
    rw [pending]
  · exact .inl ⟨(), _, rfl, (), _, rfl, asks⟩

end Plan

/-- The call escapes at once, with the value. -/
structure Call.Raises (call : Call) (tag : Nat) (value : Value) : Prop where
  escape : ∃ args kwargs, call.task = .apply (.escape tag) args kwargs
  ends : call.Fails (.escape tag value)

variable {n k tag : Nat} {task callee : Task} {m later last m' : Machine}

/-- A stack of calls is there as well when its lowest call was made by another. -/
theorem Entry.Stack.under {calls : List Call} (stack : Entry.Stack (.task callee) k later calls)
    (made : Call.Makes ⟨n, task, m⟩ ⟨k, callee, later⟩) :
    Entry.Stack (.task task) n m (calls ++ [⟨n, task, m⟩]) := by
  induction stack with
  | first lowest =>
    cases lowest
    exact .next (.first rfl) made
  | next below makes ih => exact .next ih makes

/-- What ended with an escape was asked for in a call that raised it, and the calls in between ended
with it too; meanwhile nothing became invalid. -/
structure Task.Escaped (task : Task) (n : Nat) (m : Machine) (tag : Nat) (value : Value)
    (m' : Machine) (raise : Call) (callers : List Call) : Prop where
  stack : Entry.Stack (.task task) n m (raise :: callers)
  raises : raise.Raises tag value
  unwound : ∀ call ∈ callers, call.Fails (.escape tag value)
  spares : raise.machine.Spares m'

/-- What a task makes fail with an escape, and fails with itself, goes down to it. -/
theorem Task.Escaped.under {value : Value} {raise : Call} {callers : List Call}
    (escaped : callee.Escaped k later tag value last raise callers)
    (made : Call.Makes ⟨n, task, m⟩ ⟨k, callee, later⟩)
    (ends : task.run n m = some (.error (.escape tag value), m')) (spares : last.Spares m') :
    task.Escaped n m tag value m' raise (callers ++ [⟨n, task, m⟩]) where
  stack := escaped.stack.under made
  raises := escaped.raises
  unwound call member := by
    rcases List.mem_append.mp member with member | member
    · exact escaped.unwound call member
    · rw [List.mem_singleton.mp member]
      exact ⟨m', ends⟩
  spares := escaped.spares.trans spares

/-- A force that escapes asks for a task that does. -/
theorem Plan.raised_force {perform : (task : Task) -> Run task.Answer} {ref : Nat}
    {value : Value} (ends : (Task.force (.promise ref)).plan.run perform m =
      some (.error (.escape tag value), m')) :
    ∃ task later last, (Task.force (.promise ref)).plan.Asks perform task later m ∧
      perform task later = some (.error (.escape tag value), last) ∧ last.Spares m' := by
  by_cases waits : ∃ thunk, m.promise ref = .pending thunk
  · obtain ⟨thunk, pending⟩ := waits
    rw [run_force pending] at ends
    split at ends
    · cases ends
    · cases ends
    · rename_i error last ran
      cases ends
      have plain : (computing thunk).Plain := fun _ _ => trivial
      obtain ⟨task, later, middle, asks, raises, spares⟩ :=
        plain.raised (computing_gradual thunk) ran
      exact ⟨task, later, middle, asks_force_of_pending pending asks, raises,
        spares.trans (.of_eq rfl)⟩
  · have idle : ∀ thunk, m.promise ref ≠ .pending thunk := fun thunk state => waits ⟨thunk, state⟩
    rw [force_eq] at ends
    change (forcing ref (m.promise ref)).run perform m = _ at ends
    cases state : m.promise ref with
    | pending thunk => exact absurd state (idle thunk)
    | _ =>
      rw [state] at ends
      cases ends

/-- An escape that goes on past a point came from inside of it. -/
theorem leavingPoint_escapes {point : Nat} {value : Value} {result : Except EvalError Value}
    (left : leavingPoint point (result, last) = (.error (.escape tag value), m')) :
    result = .error (.escape tag value) ∧ last.Spares m' := by
  have spares : last.Spares (Run.leavePoint point last) := .of_eq rfl
  rcases result with error | value
  · cases error with
    | escape target escaped =>
      simp only [leavingPoint] at left
      split at left
      · cases left
      · cases left
        exact ⟨rfl, spares⟩
    | _ => cases left
  · cases left

/-- The escape of an escape is its own, and nothing else comes of it. -/
theorem apply_escape_raises {target : Nat} {args : List Value} {kwargs : Kwargs}
    {value : Value} (ends : apply (n + 1) (.escape target) args kwargs m =
      some (.error (.escape tag value), m')) : target = tag ∧ m = m' := by
  have opened : apply (n + 1) (.escape target) args kwargs m =
      (if !m.running target then Exec.fail .escapeOutsideExtent
        else noKwargs "escape continuation" kwargs >>= fun _ =>
          Exec.fail (.escape target (.pack args)) : Run Value) m := rfl
  rw [opened] at ends
  split at ends
  · cases ends
  · rcases kwargs with _ | ⟨⟨keyword, value⟩, rest⟩
    · cases ends
      exact ⟨rfl, rfl⟩
    · cases ends

/-- Every escape was raised by a call under way. -/
theorem Task.escaped (n : Nat) (task : Task) (m m' : Machine) (tag : Nat) (value : Value)
    (ends : task.run n m = some (.error (.escape tag value), m')) :
    ∃ raise callers, task.Escaped n m tag value m' raise callers := by
  induction n generalizing task m m' with
  | zero =>
    rw [run_zero] at ends
    cases ends
  | succ n ih =>
    have opened := ends
    rcases task.ordinary_or with ordinary | ⟨inner, args, kwargs, rfl⟩ | ⟨target, args, kwargs, rfl⟩
    · rw [run_succ] at opened
      have raised : ∃ callee later last, task.plan.Asks (Task.run n) callee later m ∧
          callee.run n later = some (.error (.escape tag value), last) ∧ last.Spares m' := by
        by_cases forces : ∃ ref, task = .force (.promise ref)
        · obtain ⟨ref, rfl⟩ := forces
          exact Plan.raised_force opened
        · exact ordinary.plain.raised (plan_gradual fun ref same => forces ⟨ref, same⟩) opened
      obtain ⟨callee, later, last, asks, raises, spares⟩ := raised
      obtain ⟨raise, callers, escaped⟩ := ih callee later last raises
      exact ⟨raise, _, escaped.under ⟨rfl, asks⟩ ends spares⟩
    · rw [run, apply_escapePoint, Option.map_eq_some_iff] at opened
      obtain ⟨⟨result, last⟩, ran, left⟩ := opened
      obtain ⟨rfl, spares⟩ := leavingPoint_escapes left
      obtain ⟨raise, callers, escaped⟩ := ih (.apply inner _ kwargs) m.entering last ran
      refine ⟨raise, _, escaped.under ⟨rfl, ?_⟩ ends spares⟩
      exact ⟨_, _, rfl, .inl (.inl ⟨rfl, rfl⟩)⟩
    · obtain ⟨rfl, rfl⟩ := apply_escape_raises (n := n) ends
      exact ⟨⟨n + 1, _, m⟩, [], .first rfl, ⟨⟨args, kwargs, rfl⟩, m, ends⟩,
        fun _ member => absurd member List.not_mem_nil, fun _ valid => valid⟩

/-! ## Guarded operations -/

/-- What the evaluator guards: a trampoline, the thunk of a handler, and the expression of a
toplevel form. -/
inductive GuardedOperation where
  | trampoline (variant : Variant) (first : Value)
  | thunk (callable : Callable)
  | toplevel (e : Expr)

namespace GuardedOperation

/-- Do the operation, with an amount of fuel for what it guards. -/
def run (n : Nat) : GuardedOperation -> Run Value
  | trampoline variant first => Trampoline.trampoline (n + 1) variant first
  | thunk callable => Run.guarded (Trampoline.call n callable [] [])
  | toplevel e => evalToplevel n e

/-- The task that is guarded. -/
def inside : GuardedOperation -> Task
  | trampoline variant first => .runJumps variant first
  | thunk callable => .call callable [] []
  | toplevel e => .eval e Frame.toplevel

/-- The value of the operation. -/
def value : (operation : GuardedOperation) -> operation.inside.Answer -> Value
  | trampoline .., value | thunk _, value => value
  | toplevel _, ended => ended.1

/-- A guarded operation guards what is done inside of it. -/
theorem run_eq (n : Nat) (operation : GuardedOperation) : operation.run n =
    Run.guarded (operation.inside.run n >>= fun answer => pure (operation.value answer)) := by
  cases operation with
  | trampoline variant first => exact congrArg Run.guarded (bind_pure _).symm
  | thunk callable => exact congrArg Run.guarded (bind_pure _).symm
  | toplevel e => exact congrArg Run.guarded (bodyRun_eq_expose _ _)

variable {n : Nat} {operation : GuardedOperation} {m m' : Machine}

/-- A guarded operation fails exactly if what is inside does, and then invalidates what was captured
there. -/
theorem run_eq_error {error : EvalError} : operation.run n m = some (.error error, m') ↔
    ∃ last, operation.inside.run n m = some (.error error, last) ∧
      m' = guardedState m.stack.size ((.error error : Except EvalError Value), last) := by
  rw [run_eq, guarded_eq_some]
  refine exists_congr fun last => and_congr_left' ?_
  rw [bind_eq_some]
  constructor
  · rintro (⟨value, middle, -, ⟨⟩⟩ | ⟨error, last, ran, ⟨⟩⟩)
    exact ran
  · exact fun ran => .inr ⟨error, last, ran, rfl⟩

/-- A guarded operation leaves the stack of what is inside as its end demands. -/
theorem run_fades {result : Except EvalError Value} (ends : operation.run n m = some (result, m')) :
    ∃ last, m.Fades last ∧ m' = guardedState m.stack.size (result, last) := by
  have enduring := Machine.Fades.enduring
  rw [run_eq, guarded_eq_some] at ends
  obtain ⟨last, ran, rfl⟩ := ends
  refine ⟨last, ?_, rfl⟩
  rcases bind_eq_some.mp ran with ⟨value, middle, ran, ⟨⟩⟩ | ⟨error, middle, ran, ⟨⟩⟩
  · exact Task.along enduring n _ m _ _ ran
  · exact Task.along enduring n _ m _ _ ran

end GuardedOperation

/-! ## Extents and flags -/

/-- How extents and flags fare when the evaluator does something with a machine. -/
structure Machine.StacksExtents (m : Machine) : Prop where
  /-- Whatever task is done and however it ends, the stack of extents is extended and no flag that
  is out goes on. -/
  tasks : ∀ n (task : Task) result m', task.run n m = some (result, m') -> m.Fades m'
  programs : ∀ n (program : Program) result m', program.run n m = some (result, m') -> m.Fades m'
  /-- A guarded operation leaves the stack as it found it. -/
  level : ∀ n (operation : GuardedOperation) result m',
    operation.run n m = some (result, m') -> m.Fades m' ∧ m'.stack = m.stack
  /-- When it fails, all that came on the stack since it began and was still there is invalid. -/
  failing : ∀ n (operation : GuardedOperation) error m',
    operation.run n m = some (.error error, m') -> error.isEscape = false ->
      ∃ last pushed, operation.inside.run n m = some (.error error, last) ∧
        last.stack.toList = m.stack.toList ++ pushed ∧
        ∀ extent ∈ pushed, m'.extents[extent]? = some false
  /-- When an escape leaves it, what was valid when the escape was raised still is. -/
  escaping : ∀ n (operation : GuardedOperation) tag value m',
    operation.run n m = some (.error (.escape tag value), m') ->
      ∃ raise callers, operation.inside.Escaped n m tag value m' raise callers

/-- On every machine, whatever is done with it and however it ends, extents form a stack and what is
invalid stays invalid. -/
theorem Machine.extents_stack (m : Machine) : m.StacksExtents where
  tasks n task := Task.along Fades.enduring n task m
  programs n program := Program.along Fades.enduring n program m
  level n operation result m' ends := by
    obtain ⟨last, fades, rfl⟩ := GuardedOperation.run_fades ends
    refine ⟨fades.guarded result, Array.toList_inj.mp ?_⟩
    rw [Disposes.stack_guardedState, fades.take_stack]
  failing n operation error m' ends failure := by
    obtain ⟨last, ran, rfl⟩ := GuardedOperation.run_eq_error.mp ends
    have disposes := Task.disposes n operation.inside m _ last ran
    obtain ⟨pushed, stacked, isLoose⟩ := disposes.stack
    refine ⟨last, pushed, ran, stacked, fun extent member => out_iff.mpr ⟨?_, ?_⟩⟩
    · rw [Disposes.size_guardedState]
      exact ((isLoose extent).mp member).2.1
    · have dropped : last.stack.toList.drop m.stack.size = pushed := by
        rw [stacked, ← Array.length_toList, List.drop_left]
      rw [Disposes.valid_guardedState, dropped]
      simp [isFailure, failure, member]
  escaping n operation tag value m' ends := by
    obtain ⟨last, ran, rfl⟩ := GuardedOperation.run_eq_error.mp ends
    obtain ⟨raise, callers, escaped⟩ := Task.escaped n operation.inside m last tag value ran
    exact ⟨raise, callers, escaped.stack, escaped.raises, escaped.unwound,
      escaped.spares.trans (.escape rfl _ _)⟩

end Trampoline
