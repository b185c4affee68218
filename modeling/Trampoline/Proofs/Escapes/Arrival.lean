import Trampoline.Proofs.Escapes.Points

/-!
# Escapes arrive at their points

Of all tasks only the application of an escape point enters a point, and only it stops an escape. So
the points that are running are those of the calls under way, and an escape ends all calls from the
one that makes it down to the point, which returns its value.
-/

namespace Trampoline

open Exec

namespace Task

open Plan

/-- A resumption with the wrong number of values fails with an error of its own, no escape. -/
theorem resumeValues_plain {count : Nat} {args : List Value} {error : EvalError}
    (fails : resumeValues count args = .error error) : error.isEscape = false := by
  unfold resumeValues at fails
  split at fails
  · cases fails
  · split at fails
    · cases fails
    · split at fails <;> try split at fails
      all_goals
        cases fails
        try rfl

/-- The plans of all applications but those of escape points and escapes are plain. -/
theorem apply_plain (callable : Callable) (args : List Value) (kwargs : Kwargs)
    (noPoint : ∀ inner, callable ≠ .escapePoint inner) (noEscape : ∀ tag, callable ≠ .escape tag) :
    (apply callable args kwargs).plan.Plain := by
  cases callable with
  | escapePoint inner => exact absurd rfl (noPoint inner)
  | escape tag => exact absurd rfl (noEscape tag)
  | native op =>
    simp only [plan]
    cases op.arity <;> simp [EvalError.isEscape]
  | memoized inner cache =>
    simp only [plan, plain_ask_bind, plain_done_bind, plain_lift_bind, Steady.cached, true_and]
    intro _ _ hit
    cases hit <;> simp
  | continuation ref function env extent isLazy =>
    simp only [plan, plain_lift_bind, Steady.extentValid, true_and, plain_ite, plain_lift,
      Steady.fail, Steady.noKwargs]
    refine fun valid => ⟨fun _ => rfl, fun _ _ => ?_⟩
    cases resumed : resumeValues function.signature.params.length args with
    | error error => exact (plain_lift _).mpr ((Steady.fail _).mpr (resumeValues_plain resumed))
    | ok values => simp
  | _ => simp [plan]

/-- A promise whose computation is left by an escape waits again, and the escape goes on. -/
theorem force_plain (value : Value) : (force value).plan.Plain := by
  cases value with
  | promise ref =>
    simp only [plan, plain_lift_bind, Steady.read, true_and]
    intro state
    cases state with
    | pending thunk =>
      refine ⟨by simp, by simp, fun error => ?_⟩
      split
      · exact .inr ⟨fun m => ⟨(), _, rfl, rfl⟩, fun _ => .inl fun _ => rfl⟩
      · simp_all
    | _ => simp [EvalError.isEscape]
  | _ => simp [plan]

/-- A native lets no escape out but those of the handler that it calls. -/
theorem applyNative_plain (op : Native) (args : List Value) :
    (applyNative op args).plan.Plain := by
  cases op with
  | attempt =>
    simp only [plan, plain_lift_bind, Steady.callable, true_and, plain_settle, plain_guarded,
      plain_ask, plain_done, plain_pure, implies_true]
    intro thunk handler error
    by_cases escapes : error.isEscape
    · rw [if_pos escapes, if_pos escapes]
      exact .inl fun _ => rfl
    · rw [if_neg escapes]
      simp [escapes]
  | print | str | raise | assertEq | force | forceDeep => simp [plan, EvalError.isEscape]
  | _ =>
    simp only [plan]
    split
    · rename_i computes
      exact (plain_lift _).mpr (.compute computes)
    · simp

/-- A task is no application of an escape point or of an escape. -/
structure Ordinary (task : Task) : Prop where
  noPoint : ∀ inner args kwargs, task ≠ apply (.escapePoint inner) args kwargs
  noEscape : ∀ tag args kwargs, task ≠ apply (.escape tag) args kwargs

/-- Ordinary tasks have plain plans. -/
theorem Ordinary.plain {task : Task} (ordinary : task.Ordinary) : task.plan.Plain := by
  cases task with
  | apply callable args kwargs =>
    refine apply_plain callable args kwargs ?_ ?_
    · rintro inner rfl
      exact ordinary.noPoint inner args kwargs rfl
    · rintro tag rfl
      exact ordinary.noEscape tag args kwargs rfl
  | force value => exact force_plain value
  | applyNative op args => exact applyNative_plain op args
  | eval e frame =>
    cases e with
    | bind mark name bindee => cases bindee <;> simp [plan]
    | _ => simp [plan, EvalError.isEscape]
  | evalContinuation cc => cases cc <;> simp [plan]
  | operand policy => cases policy <;> simp [plan]
  | delayed e => cases e <;> simp [plan]
  | operands policy es => cases es <;> simp [plan]
  | keywords policy es => cases es <;> simp [plan]
  | evalArms arms alt => cases arms <;> cases alt <;> simp [plan]
  | evalShort op es => cases es <;> simp [plan]
  | evalItems es => cases es <;> simp [plan]
  | runThunk thunk =>
    cases thunk with
    | expr e env => simp [plan]
    | global name =>
      simp only [plan, plain_lift_bind, Steady.read, true_and]
      intro value
      split <;> simp [EvalError.isEscape]
  | forceDeep value =>
    simp only [plan, plain_ask_bind, plain_done_bind]
    intro value
    split <;> simp
  | forceAll values => cases values <;> simp [plan]
  | call callable args kwargs =>
    simp only [plan, plain_ask_bind, plain_done_bind]
    intro value
    split <;> simp
  | runJumps variant value => cases value <;> simp [plan]
  | takeStep variant ref =>
    simp only [plan, plain_lift_bind, Steady.takeJump, true_and, plain_ask_bind, plain_done_bind,
      Steady.tell]
    intro jump forced told
    cases jump.cc <;> simp
  | forceArgs args => cases args <;> simp [plan]
  | forceKwargs kwargs => cases kwargs <;> simp [plan]
  | forceKeys args =>
    cases args with
    | nil => simp [plan]
    | cons value rest =>
      simp only [plan, plain_ask_bind, plain_done_bind]
      intro value
      split <;> simp [EvalError.isEscape]
  | forceKwargKeys kwargs =>
    cases kwargs with
    | nil => simp [plan]
    | cons named rest =>
      simp only [plan, plain_ask_bind, plain_done_bind]
      intro value
      split <;> simp [EvalError.isEscape]
  | shownDeep values => cases values <;> simp [plan]
  | _ => simp [plan]

end Task

/-! ## Escape points -/

namespace Machine

/-- The machine inside a new escape point. -/
def entering (m : Machine) : Machine := { m with points := m.points.push true }

theorem entering_running (m : Machine) (tag : Nat) :
    m.entering.running tag = (m.running tag || tag = m.points.size) := by
  simp only [entering, running, Array.getD_eq_getD_getElem?, Array.getElem?_push]
  by_cases new : tag = m.points.size <;> simp [new]

/-- After a point is left, those run that did but for it. -/
theorem leavePoint_running (m : Machine) (tag target : Nat) :
    (Run.leavePoint tag m).running target = (m.running target && target ≠ tag) := by
  simp only [Run.leavePoint, running, Array.getD_eq_getD_getElem?, Array.getElem?_setIfInBounds]
  by_cases same : tag = target
  · subst same
    simp
    split <;> simp
  · simp [same, Ne.symm same]

theorem not_running_size (m : Machine) : m.running m.points.size = false := by
  simp [running]

end Machine

/-- How an escape point ends, after what is inside it has ended. An escape to it is the same as its
value returned, but that it is told. -/
def leavingPoint (tag : Nat) : Outcome Machine Value -> Outcome Machine Value
  | (.ok value, m) => (.ok value, Run.leavePoint tag m)
  | (.error (.escape target value), m) =>
    if target = tag then
      (.ok value, { Run.leavePoint tag m with trace := .escaped tag :: m.trace })
    else (.error (.escape target value), Run.leavePoint tag m)
  | (.error error, m) => (.error error, Run.leavePoint tag m)

/-- A point is applied by entering it, applying what is inside to its escape, and leaving it. -/
theorem apply_escapePoint (n : Nat) (inner : Callable) (args : List Value) (kwargs : Kwargs)
    (m : Machine) :
    apply (n + 1) (.escapePoint inner) args kwargs m =
      (apply n inner (.func (.escape m.points.size) :: args) kwargs m.entering).map
        (leavingPoint m.points.size) := by
  rw [Grows.applyPoint_eq]
  show Exec.bind Run.enterPoint _ m = _
  simp only [Exec.bind, Run.enterPoint, settle, Machine.entering]
  rcases apply n inner _ kwargs _ with _ | ⟨error | value, last⟩
  · rfl
  · cases error with
    | escape target value =>
      by_cases same : target = m.points.size
      · simp only [same, leavingPoint, Option.map]
        rfl
      · simp only [same, leavingPoint, Option.map]
        rfl
    | _ => rfl
  · rfl

variable {m : Machine} {result : Except EvalError Value}

/-- What leads to an end inside of a point leads to one outside, where its own escapes arrive. -/
theorem leavingPoint_leads {last : Machine} (leads : m.entering.Leads result last) :
    m.Leads (leavingPoint m.points.size (result, last)).1
      (leavingPoint m.points.size (result, last)).2 := by
  have points : m.SamePoints (Run.leavePoint m.points.size last) := by
    intro tag
    rw [Machine.leavePoint_running, leads.points, Machine.entering_running]
    by_cases new : tag = m.points.size
    · simp [new, Machine.not_running_size]
    · simp [new]
  rcases result with error | value
  · cases error with
    | escape target value =>
      by_cases same : target = m.points.size
      · simp only [leavingPoint, same, if_true]
        exact ⟨points.trans (.of_eq rfl), by simp⟩
      · simp only [leavingPoint, same, if_false]
        refine ⟨points, ?_⟩
        rintro tag value ⟨⟩
        have running := leads.escape target value rfl
        simpa [Machine.entering_running, same] using running
    | _ => exact ⟨points, by simp [leavingPoint]⟩
  · exact ⟨points, by simp [leavingPoint]⟩

theorem Task.run_zero (task : Task) (m : Machine) : task.run 0 m = none := by
  cases task <;> rfl

/-- A task is ordinary, enters a point, or calls an escape. -/
theorem Task.ordinary_or (task : Task) :
    task.Ordinary ∨
      (∃ inner args kwargs, task = .apply (.escapePoint inner) args kwargs) ∨
      ∃ tag args kwargs, task = .apply (.escape tag) args kwargs := by
  by_cases point : ∃ inner args kwargs, task = .apply (.escapePoint inner) args kwargs
  · exact .inr (.inl point)
  · by_cases escape : ∃ tag args kwargs, task = .apply (.escape tag) args kwargs
    · exact .inr (.inr escape)
    · exact .inl ⟨fun inner args kwargs same => point ⟨inner, args, kwargs, same⟩,
        fun tag args kwargs same => escape ⟨tag, args, kwargs, same⟩⟩

/-- An escape fails, and with itself only while its point is running. -/
theorem apply_escape_leads (n tag : Nat) (args : List Value) (kwargs : Kwargs) {m' : Machine}
    (ends : apply (n + 1) (.escape tag) args kwargs m = some (result, m')) : m.Leads result m' := by
  have opened : apply (n + 1) (.escape tag) args kwargs m =
      (if !m.running tag then Exec.fail .escapeOutsideExtent
        else noKwargs "escape continuation" kwargs >>= fun _ =>
          Exec.fail (.escape tag (.pack args)) : Run Value) m := rfl
  rw [opened] at ends
  by_cases runs : m.running tag
  · rcases kwargs with _ | ⟨⟨keyword, value⟩, rest⟩
    · simp only [runs, Bool.not_true, Bool.false_eq_true, if_false] at ends
      cases ends
      exact ⟨fun _ => rfl, by rintro tag value ⟨⟩; exact runs⟩
    · simp only [runs, Bool.not_true, Bool.false_eq_true, if_false] at ends
      cases ends
      exact ⟨fun _ => rfl, by simp⟩
  · simp only [runs, Bool.not_false, if_true] at ends
    cases ends
    exact ⟨fun _ => rfl, by simp⟩

/-- Whatever a task does, the points that are running afterwards are those that were before, and it
escapes to none but these. -/
theorem Task.leads (n : Nat) (task : Task) (m : Machine) (result : Except EvalError task.Answer)
    (m' : Machine) (ends : task.run n m = some (result, m')) : m.Leads result m' := by
  induction n generalizing task m m' with
  | zero =>
    rw [run_zero] at ends
    cases ends
  | succ n ih =>
    rcases task.ordinary_or with ordinary | ⟨inner, args, kwargs, rfl⟩ | ⟨tag, args, kwargs, rfl⟩
    · rw [run_succ] at ends
      exact ordinary.plain.leads ih ends
    · have entered := ends
      rw [run, apply_escapePoint, Option.map_eq_some_iff] at entered
      obtain ⟨⟨result', last⟩, ran, equal⟩ := entered
      have leads := leavingPoint_leads (ih (.apply inner _ kwargs) m.entering result' last ran)
      rwa [equal] at leads
    · exact apply_escape_leads n tag args kwargs ends

/-! ## Calls under way -/

namespace Call

/-- The tag of the escape point that the call applies. -/
def point? (call : Call) : Option Nat :=
  match call.task with
  | .apply (.escapePoint _) _ _ => some call.machine.points.size
  | _ => none

/-- The call applies a callable, and ends with the value. -/
def Returns (call : Call) (value : Value) : Prop :=
  match call.task with
  | .apply callable args kwargs =>
    ∃ last, apply call.fuel callable args kwargs call.machine = some (.ok value, last)
  | .call callable args kwargs =>
    ∃ last, Trampoline.call call.fuel callable args kwargs call.machine = some (.ok value, last)
  | _ => False

variable {call callee caller : Call} {tag n : Nat} {args : List Value} {kwargs : Kwargs}
  {m : Machine} {value : Value}

/-- An ordinary call enters no point. -/
theorem point?_ordinary (ordinary : call.task.Ordinary) : call.point? = none := by
  unfold point?
  split
  · rename_i same
    exact absurd same (ordinary.noPoint _ _ _)
  · rfl

/-- The point that a call enters is the next one to be numbered. -/
theorem point?_eq_some (enters : call.point? = some tag) : tag = call.machine.points.size := by
  unfold point? at enters
  split at enters
  · exact (Option.some.inj enters).symm
  · cases enters

/-- The only task of an escape point is what is inside it. -/
theorem makes_of_point {inner : Callable}
    (made : Call.Makes ⟨n, .apply (.escapePoint inner) args kwargs, m⟩ callee) :
    ∃ k, n = k + 1 ∧
      callee = ⟨k, .apply inner (.func (.escape m.points.size) :: args) kwargs, m.entering⟩ := by
  obtain ⟨fuel, task, machine⟩ := callee
  obtain ⟨same, tag, middle, entered, asks⟩ := made
  cases entered
  rcases asks with (⟨rfl, rfl⟩ | ⟨answer, middle, -, none⟩) | ⟨result, middle, -, asks⟩
  · exact ⟨fuel, same, rfl⟩
  · exact none.elim
  · -- nothing is asked for after the point was left
    rcases result with error | value
    · cases error with
      | escape target value => by_cases arrived : target = m.points.size <;> simp [arrived] at asks
      | _ => simp at asks
    · simp at asks

/-- An escape has nothing done. -/
theorem not_makes_of_escape : ¬ Call.Makes ⟨n, .apply (.escape tag) args kwargs, m⟩ callee := by
  intro made
  obtain ⟨running, middle, -, asks⟩ := (Plan.asks_lift_bind _ _).mp made.asks
  cases running <;> simp at asks

/-- A call is made with the points running that ran for its caller, and that of its caller. -/
theorem Makes.running (made : caller.Makes callee) (tag : Nat) : callee.machine.running tag = true ↔
      caller.machine.running tag = true ∨ caller.point? = some tag := by
  obtain ⟨fuel, task, m⟩ := caller
  rcases task.ordinary_or with ordinary | ⟨inner, args, kwargs, rfl⟩ | ⟨tag, args, kwargs, rfl⟩
  · rw [point?_ordinary ordinary, ordinary.plain.asks (Task.leads callee.fuel) made.asks tag]
    simp
  · obtain ⟨k, rfl, rfl⟩ := makes_of_point made
    rw [Machine.entering_running, Bool.or_eq_true, decide_eq_true_iff]
    exact or_congr Iff.rfl
      ⟨fun new => congrArg some new.symm, fun new => (Option.some.inj new).symm⟩
  · exact absurd made not_makes_of_escape

/-- An escape from a call ends its caller too, unless this is the point. -/
theorem Makes.fails (made : caller.Makes callee)
    (escapes : callee.Fails (.escape tag value)) (further : caller.point? ≠ some tag) :
    caller.Fails (.escape tag value) := by
  obtain ⟨fuel, task, m⟩ := caller
  obtain ⟨last, ends⟩ := escapes
  rcases task.ordinary_or with ordinary | ⟨inner, args, kwargs, rfl⟩ | ⟨tag, args, kwargs, rfl⟩
  · obtain ⟨last, ends⟩ := ordinary.plain.unwinds made.asks ends
    exact ⟨last, by rw [Ends, made.fuel, Task.run_succ, ends]⟩
  · obtain ⟨k, rfl, rfl⟩ := makes_of_point made
    refine ⟨Run.leavePoint m.points.size last, ?_⟩
    show apply (k + 1) (.escapePoint inner) args kwargs m = _
    have other : tag ≠ m.points.size := fun new => further (by simp [point?, new])
    rw [apply_escapePoint, show apply k inner _ kwargs m.entering = _ from ends]
    simp [leavingPoint, other]
  · exact absurd made not_makes_of_escape

/-- An escape from a call that its point made returns the value. -/
theorem Makes.returns (made : caller.Makes callee)
    (escapes : callee.Fails (.escape tag value)) (arrived : caller.point? = some tag) :
    caller.Returns value := by
  obtain ⟨fuel, task, m⟩ := caller
  obtain ⟨last, ends⟩ := escapes
  rcases task.ordinary_or with ordinary | ⟨inner, args, kwargs, rfl⟩ | ⟨tag, args, kwargs, rfl⟩
  · rw [point?_ordinary ordinary] at arrived
    cases arrived
  · obtain ⟨k, rfl, rfl⟩ := makes_of_point made
    cases arrived
    show ∃ last, apply (k + 1) (.escapePoint inner) args kwargs m = some (.ok value, last)
    rw [apply_escapePoint, show apply k inner _ kwargs m.entering = _ from ends]
    exact ⟨_, by simp only [Option.map_some, leavingPoint, if_true]; rfl⟩
  · exact absurd made not_makes_of_escape

end Call

/-! ## Stacks -/

namespace Entry

variable {entry : Entry} {n : Nat} {m : Machine}

/-- A toplevel form lets no escape out of its own. -/
theorem toplevel_plain {α : Type} (e : Expr) (next : Value -> Plan α)
    (plain : ∀ value, (next value).Plain) : (Plan.toplevel e >>= next).Plain :=
  ⟨fun _ => trivial, plain⟩

/-- Nor do toplevel forms one after another. -/
theorem toplevels_plain (top : List Toplevel) (last : Value) :
    (Plan.toplevels top last).Plain := by
  induction top generalizing last with
  | nil => exact trivial
  | cons first rest ih =>
    cases first with
    | define name bindee =>
      exact toplevel_plain bindee _ fun value => ⟨.defineToplevel name value, fun _ => ih last⟩
    | exec e => exact toplevel_plain e _ fun value answer => ih answer

/-- The calls that an entry makes begin with the points that it began with. -/
theorem Makes.samePoints {call : Call} (made : entry.Makes n m call) :
    m.SamePoints call.machine := by
  cases entry with
  | task task =>
    cases made
    exact fun _ => rfl
  | program program => exact (toplevels_plain program.top .nil).asks (Task.leads n) made.2

/-- Where no point is running, nothing ends with an escape. -/
theorem Fails.not_escape {error : EvalError} (fails : entry.Fails n m error)
    (quiet : ∀ tag, m.running tag = false) : error.isEscape = false := by
  have leads : ∃ (last : Machine), m.Leads (.error error : Except EvalError Value) last := by
    cases entry with
    | task task =>
      obtain ⟨last, ends⟩ := fails
      exact ⟨last, (Task.leads n task m _ last ends).fails⟩
    | program program =>
      obtain ⟨last, ends⟩ := fails
      rw [Program.run, ← Plan.run_toplevels] at ends
      exact ⟨last, (toplevels_plain program.top .nil).leads (Task.leads n) ends⟩
  obtain ⟨last, leads⟩ := leads
  cases error with
  | escape tag value => exact absurd ((quiet tag).symm.trans (leads.escape tag value rfl)) (by simp)
  | _ => rfl

variable {top : Call} {callers : List Call}

/-- The points that are running are those of the calls under way, each of them once. -/
theorem Stack.points (stack : entry.Stack n m (top :: callers))
    (quiet : ∀ tag, m.running tag = false) :
    (∀ tag, top.machine.running tag = true ↔ tag ∈ callers.filterMap Call.point?) ∧
      (callers.filterMap Call.point?).Nodup := by
  generalize calls : top :: callers = stacked at stack
  induction stack generalizing top callers with
  | first made =>
    cases calls
    refine ⟨fun tag => ?_, List.nodup_nil⟩
    simp [made.samePoints tag, quiet tag]
  | @next caller callee below stack made ih =>
    cases calls
    obtain ⟨running, distinct⟩ := ih rfl
    refine ⟨fun tag => ?_, ?_⟩
    · rw [made.running, running, List.filterMap_cons]
      cases caller.point? <;> simp [or_comm, eq_comm]
    · rw [List.filterMap_cons]
      split
      · exact distinct
      · rename_i tag entered
        refine List.nodup_cons.mpr ⟨fun old => ?_, distinct⟩
        -- a new point takes a tag that none has had
        rw [Call.point?_eq_some entered] at old
        exact absurd ((running _).mpr old) (by simp [Machine.not_running_size])

/-- An escape ends every call down to that of its point, and is the value of this one. -/
theorem Stack.arrives (stack : entry.Stack n m (top :: callers))
    {tag : Nat} {value : Value} (escapes : top.Fails (.escape tag value))
    (running : tag ∈ callers.filterMap Call.point?) :
    ∃ inner point outer, callers = inner ++ point :: outer ∧ point.point? = some tag ∧
      (∀ call ∈ inner, call.Fails (.escape tag value)) ∧ point.Returns value := by
  generalize calls : top :: callers = stacked at stack
  induction stack generalizing top callers with
  | first made =>
    cases calls
    cases running
  | @next caller callee below stack made ih =>
    cases calls
    by_cases arrived : caller.point? = some tag
    · exact ⟨[], caller, below, rfl, arrived, by simp, made.returns escapes arrived⟩
    · have fails := made.fails escapes arrived
      have running : tag ∈ below.filterMap Call.point? := by
        rw [List.filterMap_cons] at running
        split at running
        · exact running
        · rename_i other entered
          rcases List.mem_cons.mp running with rfl | running
          · exact absurd entered arrived
          · exact running
      obtain ⟨inner, point, outer, rfl, isPoint, unwound, returns⟩ := ih fails running rfl
      refine ⟨caller :: inner, point, outer, rfl, isPoint, ?_, returns⟩
      rintro call (_ | ⟨_, inside⟩)
      · exact fails
      · exact unwound call inside

/-- Escapes are never lost. Started where no point is running, nothing ends with an escape. Whenever
a call begins, the points that are running are those of the calls that are under way, each of them
once, and they are the same when it ends. An escape from a call ends all calls above that of its
point, and is the value of this one. -/
theorem escapes_arrive (entry : Entry) (n : Nat) (m : Machine)
    (quiet : ∀ tag, m.running tag = false) :
    (∀ error, entry.Fails n m error -> error.isEscape = false) ∧
      ∀ top callers, entry.Stack n m (top :: callers) ->
        (∀ tag, top.machine.running tag = true ↔ tag ∈ callers.filterMap Call.point?) ∧
          (callers.filterMap Call.point?).Nodup ∧
          (∀ outcome, top.Ends outcome -> top.machine.SamePoints outcome.2) ∧
          ∀ tag value, top.Fails (.escape tag value) ->
            ∃ inner point outer, callers = inner ++ point :: outer ∧ point.point? = some tag ∧
              (∀ call ∈ inner, call.Fails (.escape tag value)) ∧ point.Returns value := by
  refine ⟨fun error fails => fails.not_escape quiet, fun top callers stack => ?_⟩
  obtain ⟨running, distinct⟩ := stack.points quiet
  refine ⟨running, distinct, fun outcome ends => ?_, fun tag value escapes => ?_⟩
  · exact (Task.leads _ _ _ outcome.1 outcome.2 ends).points
  · obtain ⟨last, ends⟩ := escapes
    have entered := (Task.leads _ _ _ _ _ ends).escape tag value rfl
    exact stack.arrives ⟨last, ends⟩ ((running tag).mp entered)

end Entry

/-- An escape point around a call of the escape that has a handler for errors. -/
def handledEscape : Task := .apply (.escapePoint (.native .attempt)) [.func (.native .raise)] []

/-- The handler does not get the escape, which is the value of the point. -/
theorem handledEscape_arrives :
    (∀ tag, (Machine.start false).running tag = false) ∧
      ∃ top callers, Entry.Stack (.task handledEscape) 5 (.start false) (top :: callers) ∧
        top.Fails (.escape 0 .nil) ∧
        ∃ inner point outer, callers = inner ++ point :: outer ∧ point.point? = some 0 ∧
          (∀ call ∈ inner, call.Fails (.escape 0 .nil)) ∧ point.Returns .nil := by
  have quiet : ∀ tag, (Machine.start false).running tag = false := by
    intro tag
    simp [Machine.running, Machine.start]
  let entered := (Machine.start false).entering
  let escape : Value := .func (.escape 0)
  let args := [escape, .func (.native .raise)]
  have stack : Entry.Stack (.task handledEscape) 5 (.start false)
      [⟨1, .apply (.escape 0) [] [], entered⟩, ⟨2, .call (.escape 0) [] [], entered⟩,
        ⟨3, .applyNative .attempt args, entered⟩, ⟨4, .apply (.native .attempt) args [], entered⟩,
        ⟨5, handledEscape, .start false⟩] := by
    refine .next (.next (.next (.next (.first rfl) ?_) ?_) ?_) ?_
    · exact ⟨rfl, _, _, rfl, .inl (.inl ⟨rfl, rfl⟩)⟩
    · exact ⟨rfl, _, _, rfl, .inl ⟨rfl, rfl⟩⟩
    · exact ⟨rfl, _, _, rfl, _, _, rfl, .inl (.inl (.inl ⟨rfl, rfl⟩))⟩
    · exact ⟨rfl, .inl ⟨rfl, rfl⟩⟩
  have escapes : Call.Fails ⟨1, .apply (.escape 0) [] [], entered⟩ (.escape 0 .nil) :=
    ⟨entered, rfl⟩
  refine ⟨quiet, _, _, stack, escapes, ?_⟩
  exact ((Entry.escapes_arrive _ _ _ quiet).2 _ _ stack).2.2.2 0 .nil escapes

end Trampoline
