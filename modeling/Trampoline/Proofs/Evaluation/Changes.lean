import Trampoline.Proofs.Evaluation.Effects

/-!
# How evaluation changes the machine

Evaluation delays, captures, and enters and leaves escape points; apart from that it touches neither
promises nor extents nor points, and only the force of a promise settles one. So what holds along
these few changes holds along every task but that one, and what holds along that one too holds along
everything.
-/

namespace Trampoline

open Exec

/-- A step changes the machine so, unless it settles a promise. -/
inductive Machine.Changes : Machine -> Machine -> Prop where
  /-- Anything else is changed. -/
  | other {m m' : Machine} (promises : m'.promises = m.promises) (extents : m'.extents = m.extents)
      (stack : m'.stack = m.stack) (points : m'.points = m.points) : Changes m m'
  | delay (m : Machine) (thunk : Thunk) :
      Changes m { m with promises := m.promises.push (.pending thunk) }
  | capture (m : Machine) :
      Changes m { m with
        extents := m.extents.push true
        stack := m.stack.push m.extents.size }
  | enter (m : Machine) : Changes m { m with points := m.points.push true }
  | leave (m : Machine) (tag : Nat) : Changes m (Run.leavePoint tag m)

/-- A relation of an earlier to a later machine that holds along the steps of evaluation. -/
structure Machine.Lasting (lasts : Machine -> Machine -> Prop) : Prop where
  refl : ∀ m, lasts m m
  trans : ∀ {first second third}, lasts first second -> lasts second third -> lasts first third
  changes : ∀ {m m' : Machine}, m.Changes m' -> lasts m m'
  /-- What holds up to the end of a guarded operation holds when it is left. -/
  guarded : ∀ {α : Type} {m last : Machine} (result : Except EvalError α), lasts m last ->
    lasts m (guardedState m.stack.size (result, last))

/-! ## Steps -/

/-- A step changes the machine little by little. -/
def Exec.Gradual {α : Type} (run : Run α) : Prop :=
  ∀ m result m', run m = some (result, m') -> Relation.ReflTransGen Machine.Changes m m'

/-- All effects but the settling of a promise change the machine so. -/
theorem Effect.changes {effect : Effect} (settles : ∀ ref state, effect ≠ .setPromise ref state)
    (m : Machine) : m.Changes (effect.on m) := by
  cases effect with
  | setPromise ref state => exact absurd rfl (settles ref state)
  | newPromise thunk => exact .delay m thunk
  | capture => exact .capture m
  | enterPoint => exact .enter m
  | leavePoint tag => exact .leave m tag
  | _ => exact .other rfl rfl rfl rfl

namespace Exec.Gradual

variable {α : Type} {lasts : Machine -> Machine -> Prop}

/-- What holds along every change holds along the step. -/
theorem along (lasting : Machine.Lasting lasts) {run : Run α} (gradual : Gradual run)
    {m m' : Machine} {result : Except EvalError α} (ends : run m = some (result, m')) :
    lasts m m' := by
  have path := gradual m result m' ends
  clear ends
  induction path with
  | refl => exact lasting.refl m
  | tail _ change ih => exact lasting.trans ih (lasting.changes change)

end Exec.Gradual

/-! ## Plans -/

namespace Plan

variable {α : Type}

/-- All steps of the plan change the machine little by little. -/
def Gradual {α : Type} : Plan α -> Prop
  | done _ => True
  | step run next => run.Gradual ∧ ∀ value, (next value).Gradual
  | ask _ next => ∀ answer, (next answer).Gradual
  | guarded inner next => inner.Gradual ∧ ∀ value, (next value).Gradual
  | settle inner next => inner.Gradual ∧ ∀ result, (next result).Gradual

variable {lasts : Machine -> Machine -> Prop} {perform : (task : Task) -> Run task.Answer}
  {plan : Plan α}

/-- What holds along the tasks that a plan asks for holds along the plan. -/
theorem Gradual.along (gradual : plan.Gradual) (lasting : Machine.Lasting lasts)
    (performs : ∀ task m result m', perform task m = some (result, m') -> lasts m m')
    {m m' : Machine} {result : Except EvalError α} (ends : plan.run perform m = some (result, m')) :
    lasts m m' := by
  induction plan generalizing m m' with
  | done value =>
    cases ends
    exact lasting.refl m
  | step act next ih =>
    rcases bind_eq_some.mp ends with ⟨value, middle, ran, rest⟩ | ⟨error, last, ran, equal⟩
    · exact lasting.trans (gradual.1.along lasting ran) (ih value (gradual.2 value) rest)
    · cases equal
      exact gradual.1.along lasting ran
  | ask task next ih =>
    rcases bind_eq_some.mp ends with ⟨answer, middle, ran, rest⟩ | ⟨error, last, ran, equal⟩
    · exact lasting.trans (performs task m _ _ ran) (ih answer (gradual answer) rest)
    · cases equal
      exact performs task m _ _ ran
  | guarded inner next ihInner ih =>
    rcases bind_eq_some.mp ends with ⟨value, middle, ran, rest⟩ | ⟨error, last, ran, equal⟩
    · obtain ⟨last, inside, rfl⟩ := guarded_eq_some.mp ran
      exact lasting.trans (lasting.guarded _ (ihInner gradual.1 inside))
        (ih value (gradual.2 value) rest)
    · cases equal
      obtain ⟨last, inside, rfl⟩ := guarded_eq_some.mp ran
      exact lasting.guarded _ (ihInner gradual.1 inside)
  | settle inner next ihInner ih =>
    obtain ⟨result', middle, ran, rest⟩ := settle_eq_some.mp ends
    exact lasting.trans (ihInner gradual.1 ran) (ih result' (gradual.2 result') rest)

/-- It holds up to where the plan asks for a task. -/
theorem Gradual.asks (gradual : plan.Gradual) (lasting : Machine.Lasting lasts)
    (performs : ∀ task m result m', perform task m = some (result, m') -> lasts m m')
    {task : Task} {m later : Machine} (asks : plan.Asks perform task later m) :
    lasts m later := by
  induction plan generalizing m with
  | done value => exact asks.elim
  | step act next ih =>
    obtain ⟨value, middle, ran, rest⟩ := asks
    exact lasting.trans (gradual.1.along lasting ran) (ih value (gradual.2 value) rest)
  | ask first next ih =>
    rcases asks with ⟨-, rfl⟩ | ⟨answer, middle, ran, rest⟩
    · exact lasting.refl m
    · exact lasting.trans (performs first m _ _ ran) (ih answer (gradual answer) rest)
  | guarded inner next ihInner ih =>
    rcases asks with inside | ⟨value, middle, ran, rest⟩
    · exact ihInner gradual.1 inside
    · obtain ⟨last, inside, rfl⟩ := guarded_eq_some.mp ran
      exact lasting.trans (lasting.guarded _ (gradual.1.along lasting performs inside))
        (ih value (gradual.2 value) rest)
  | settle inner next ihInner ih =>
    rcases asks with inside | ⟨result, middle, ran, rest⟩
    · exact ihInner gradual.1 inside
    · exact lasting.trans (gradual.1.along lasting performs ran)
        (ih result (gradual.2 result) rest)

end Plan

section Does

variable {α : Type} {allows : Effect -> Prop}
  (settles : ∀ ref state, ¬allows (.setPromise ref state))
include settles

/-- A run that does no more than some effects changes the machine effect by effect. -/
theorem Exec.Does.gradual {run : Run α} (does : run.Does allows) : run.Gradual := by
  intro m result m' ends
  refine Relation.ReflTransGen.mono ?_ _ _ (does m result m' ends)
  rintro first second ⟨effect, allowed, rfl⟩
  refine effect.changes ?_ first
  rintro ref state rfl
  exact settles ref state allowed

/-- So does a plan. -/
theorem Plan.Does.gradual {plan : Plan α} (does : plan.Does allows) : plan.Gradual := by
  induction plan with
  | done value => trivial
  | step run next ih => exact ⟨does.1.gradual settles, fun value => ih value (does.2 value)⟩
  | ask task next ih => exact fun answer => ih answer (does answer)
  | guarded inner next inside ih => exact ⟨inside does.1, fun value => ih value (does.2 value)⟩
  | settle inner next inside ih => exact ⟨inside does.1, fun result => ih result (does.2 result)⟩

end Does

/-- All tasks but the forces of promises change the machine little by little. -/
theorem Task.plan_gradual {task : Task} (noForce : ∀ ref, task ≠ force (.promise ref)) :
    task.plan.Gradual :=
  task.plan_does.gradual fun ref _ settles => noForce ref settles

theorem Plan.toplevels_gradual (top : List Toplevel) (last : Value) :
    (Plan.toplevels top last).Gradual :=
  (does_toplevels top last).gradual fun _ _ => id

end Trampoline
