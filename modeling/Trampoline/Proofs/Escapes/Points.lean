import Trampoline.Proofs.Escapes.Steadiness
import Trampoline.Proofs.Evaluation.Stacks

/-!
# Running escape points

A point runs exactly as long as the application that entered it is under way, and an escape finds
its way there: whatever is under way in between ends with it.
-/

namespace Trampoline

open Exec

/-! ## Machines with the same points -/

/-- Leaving a guarded operation leaves the points as they are. -/
theorem Exec.guardedState_points {α : Type} (mark : Nat) (outcome : Outcome Machine α) :
    (guardedState mark outcome).points = outcome.2.points := by
  obtain ⟨result, m⟩ := outcome
  cases result with
  | ok value => rfl
  | error error =>
    simp only [guardedState]
    split <;> rfl

namespace Machine

/-- Whether an escape point is running. -/
def running (m : Machine) (tag : Nat) : Bool := m.points.getD tag false

/-- The same escape points are running. -/
def SamePoints (m m' : Machine) : Prop := ∀ tag, m'.running tag = m.running tag

/-- Points are the same on machines that agree on them. -/
theorem SamePoints.of_eq {m m' : Machine} (same : m'.points = m.points) : m.SamePoints m' := by
  intro tag
  rw [running, running, same]

/-- Points that stay the same twice stay the same. -/
theorem SamePoints.trans {first second third : Machine} (same : first.SamePoints second)
    (same' : second.SamePoints third) : first.SamePoints third :=
  fun tag => (same' tag).trans (same tag)

/-- From one machine to another the same points stay running, and a result that is an escape is one
to a point among them. -/
structure Leads {α : Type} (m : Machine) (result : Except EvalError α) (m' : Machine) :
    Prop where
  points : m.SamePoints m'
  escape : ∀ tag value, result = .error (.escape tag value) -> m.running tag = true

namespace Leads

variable {α β : Type} {m middle m' : Machine}

variable {result : Except EvalError α}

/-- What begins with the points of before leads to where the rest does. -/
theorem after (second : middle.Leads result m')
    (first : m.SamePoints middle) : m.Leads result m' where
  points := first.trans second.points
  escape tag value ends := (first tag).symm.trans (second.escape tag value ends)

/-- What ends with the points of after leads to where the beginning does. -/
theorem before (first : m.Leads result middle)
    (second : m'.points = middle.points) : m.Leads result m' where
  points := first.points.trans (.of_eq second)
  escape := first.escape

/-- A guarded operation leads to where what is inside does. -/
theorem guarded (leads : m.Leads result m') (mark : Nat) :
    m.Leads result (guardedState mark (result, m')) :=
  leads.before (guardedState_points mark (result, m'))

/-- An error is the same whatever value there was to be. -/
theorem fails {error : EvalError} (leads : m.Leads (.error error : Except EvalError α) m') :
    m.Leads (.error error : Except EvalError β) m' where
  points := leads.points
  escape := by
    rintro tag value ⟨⟩
    exact leads.escape tag value rfl

end Leads

end Machine

/-! ## Plans without points -/

namespace Plan

variable {α β : Type}

/-- The plan does no more than end with the error. -/
def Unwinds {α : Type} (error : EvalError) : Plan α -> Prop
  | step run next =>
    (∀ m, run m = some (.error error, m)) ∨
      (∀ m, ∃ value m', run m = some (.ok value, m') ∧ m'.points = m.points) ∧
        ∀ value, (next value).Unwinds error
  | _ => False

/-- The plan enters no point, and errors of its parts that are escapes go on as they are. -/
def Plain {α : Type} : Plan α -> Prop
  | done _ => True
  | step run next => run.Steady ∧ ∀ value, (next value).Plain
  | ask _ next => ∀ answer, (next answer).Plain
  | guarded inner next => inner.Plain ∧ ∀ value, (next value).Plain
  | settle inner next =>
    inner.Plain ∧ (∀ value, (next (.ok value)).Plain) ∧
      ∀ error,
        if error.isEscape then (next (.error error)).Unwinds error else (next (.error error)).Plain

@[simp] theorem plain_pure (value : α) : (pure value : Plan α).Plain := trivial

@[simp] theorem plain_done (value : α) : (done value).Plain := trivial

/-- A step is plain exactly if it is steady. -/
@[simp] theorem plain_lift (run : Run α) : (lift run).Plain ↔ run.Steady := by
  simp [lift, Plain]

@[simp] theorem plain_body (part : Body α) (frame : Frame) :
    (body part frame).Plain ↔ (expose part frame).Steady := plain_lift _

@[simp] theorem plain_ask (task : Task) (next : task.Answer -> Plan α) :
    (ask task next).Plain ↔ ∀ answer, (next answer).Plain := Iff.rfl

@[simp] theorem plain_done_bind (value : α) (next : α -> Plan β) :
    (done value >>= next).Plain ↔ (next value).Plain := Iff.rfl

@[simp] theorem plain_lift_bind (run : Run α) (next : α -> Plan β) :
    (lift run >>= next).Plain ↔ run.Steady ∧ ∀ value, (next value).Plain := Iff.rfl

@[simp] theorem plain_ask_bind (task : Task) (rest : task.Answer -> Plan α)
    (next : α -> Plan β) :
    (ask task rest >>= next).Plain ↔ ∀ answer, (rest answer >>= next).Plain := Iff.rfl

@[simp] theorem plain_guarded (inner : Plan β) (next : β -> Plan α) :
    (guarded inner next).Plain ↔ inner.Plain ∧ ∀ value, (next value).Plain := Iff.rfl

@[simp] theorem plain_settle (inner : Plan β) (next : Except EvalError β -> Plan α) :
    (settle inner next).Plain ↔ inner.Plain ∧ (∀ value, (next (.ok value)).Plain) ∧
      ∀ error,
        if error.isEscape then (next (.error error)).Unwinds error
        else (next (.error error)).Plain := Iff.rfl

@[simp] theorem plain_ite (test : Prop) [Decidable test] (first second : Plan α) :
    (if test then first else second).Plain ↔
      (test -> first.Plain) ∧ (¬test -> second.Plain) := by
  split <;> simp [*]

variable {plan : Plan α}

variable {error : EvalError} {task : Task} {m later : Machine}

/-- A plan that unwinds fails with the error and leaves the points as they are. -/
theorem Unwinds.run (unwinds : plan.Unwinds error)
    (perform : (task : Task) -> Run task.Answer) (m : Machine) :
    ∃ m', plan.run perform m = some (.error error, m') ∧ m'.points = m.points := by
  induction plan generalizing m with
  | step act next ih =>
    rcases unwinds with fails | ⟨moves, rest⟩
    · exact ⟨m, bind_eq_some.mpr (.inr ⟨error, m, fails m, rfl⟩), rfl⟩
    · obtain ⟨value, middle, ran, same⟩ := moves m
      obtain ⟨last, ends, same'⟩ := ih value (rest value) middle
      exact ⟨last, (bind_apply ran _).trans ends, same'.trans same⟩
  | _ => exact unwinds.elim

variable {perform : (task : Task) -> Run task.Answer}

/-- A plan that unwinds asks for no task. -/
theorem Unwinds.not_asks (unwinds : plan.Unwinds error) : ¬ plan.Asks perform task later m := by
  induction plan generalizing m with
  | step act next ih =>
    rintro ⟨value, middle, ran, asks⟩
    rcases unwinds with fails | ⟨-, rest⟩
    · rw [fails m] at ran
      cases ran
    · exact ih value (rest value) asks
  | _ => exact unwinds.elim

/-- What a plain plan does leads on if the tasks in it do. -/
theorem Plain.leads (plain : plan.Plain)
    (performs : ∀ task m result m', perform task m = some (result, m') -> m.Leads result m')
    {m' : Machine} {result : Except EvalError α} (ends : plan.run perform m = some (result, m')) :
    m.Leads result m' := by
  induction plan generalizing m m' with
  | done value =>
    cases ends
    exact ⟨fun _ => rfl, by simp⟩
  | step act next ih =>
    rcases bind_eq_some.mp ends with ⟨value, middle, ran, rest⟩ | ⟨error, last, ran, equal⟩
    · exact (ih value (plain.2 value) rest).after (.of_eq (plain.1 m _ _ ran).1)
    · cases equal
      obtain ⟨same, noEscape⟩ := plain.1 m _ _ ran
      refine ⟨.of_eq same, ?_⟩
      rintro tag value ⟨⟩
      cases noEscape _ rfl
  | ask task next ih =>
    rcases bind_eq_some.mp ends with ⟨answer, middle, ran, rest⟩ | ⟨error, last, ran, equal⟩
    · exact (ih answer (plain answer) rest).after (performs task m _ _ ran).points
    · cases equal
      exact (performs task m _ _ ran).fails
  | guarded inner next ihInner ih =>
    rcases bind_eq_some.mp ends with ⟨value, middle, ran, rest⟩ | ⟨error, last, ran, equal⟩
    · obtain ⟨last, inside, rfl⟩ := guarded_eq_some.mp ran
      have leads := (ihInner plain.1 inside).guarded m.stack.size
      exact (ih value (plain.2 value) rest).after leads.points
    · cases equal
      obtain ⟨last, inside, rfl⟩ := guarded_eq_some.mp ran
      exact ((ihInner plain.1 inside).guarded m.stack.size).fails
  | settle inner next ihInner ih =>
    obtain ⟨result', middle, ran, rest⟩ := settle_eq_some.mp ends
    have leads := ihInner plain.1 ran
    cases result' with
    | ok value => exact (ih (.ok value) (plain.2.1 value) rest).after leads.points
    | error error =>
      have after := plain.2.2 error
      split at after
      · obtain ⟨last, unwound, same⟩ := after.run perform middle
        cases unwound.symm.trans rest
        exact leads.fails.before same
      · exact (ih (.error error) after rest).after leads.points

/-- A plain plan asks for its tasks with the same points running. -/
theorem Plain.asks (plain : plan.Plain)
    (performs : ∀ task m result m', perform task m = some (result, m') -> m.Leads result m')
    (asks : plan.Asks perform task later m) : m.SamePoints later := by
  induction plan generalizing m with
  | done value => exact asks.elim
  | step act next ih =>
    obtain ⟨value, middle, ran, rest⟩ := asks
    exact Machine.SamePoints.trans (.of_eq (plain.1 m _ _ ran).1) (ih value (plain.2 value) rest)
  | ask first next ih =>
    rcases asks with ⟨-, rfl⟩ | ⟨answer, middle, ran, rest⟩
    · exact fun _ => rfl
    · exact (performs first m _ _ ran).points.trans (ih answer (plain answer) rest)
  | guarded inner next ihInner ih =>
    rcases asks with inside | ⟨value, middle, ran, rest⟩
    · exact ihInner plain.1 inside
    · obtain ⟨last, inside, rfl⟩ := guarded_eq_some.mp ran
      have leads := (plain.1.leads performs inside).guarded m.stack.size
      exact leads.points.trans (ih value (plain.2 value) rest)
  | settle inner next ihInner ih =>
    rcases asks with inside | ⟨result, middle, ran, rest⟩
    · exact ihInner plain.1 inside
    · refine (plain.1.leads performs ran).points.trans ?_
      cases result with
      | ok value => exact ih (.ok value) (plain.2.1 value) rest
      | error error =>
        have after := plain.2.2 error
        split at after
        · exact absurd rest after.not_asks
        · exact ih (.error error) after rest

/-- If a task that a plain plan asks for ends with an escape, so does the plan. -/
theorem Plain.unwinds (plain : plan.Plain) {last : Machine} {tag : Nat}
    {value : Value} (asks : plan.Asks perform task later m)
    (escapes : perform task later = some (.error (.escape tag value), last)) :
    ∃ last, plan.run perform m = some (.error (.escape tag value), last) := by
  induction plan generalizing m with
  | done value => exact asks.elim
  | step act next ih =>
    obtain ⟨value, middle, ran, rest⟩ := asks
    obtain ⟨last, ends⟩ := ih value (plain.2 value) rest
    exact ⟨last, (bind_apply ran _).trans ends⟩
  | ask first next ih =>
    rcases asks with ⟨rfl, rfl⟩ | ⟨answer, middle, ran, rest⟩
    · exact ⟨last, bind_eq_some.mpr (.inr ⟨_, last, escapes, rfl⟩)⟩
    · obtain ⟨last, ends⟩ := ih answer (plain answer) rest
      exact ⟨last, (bind_apply ran _).trans ends⟩
  | guarded inner next ihInner ih =>
    rcases asks with inside | ⟨value, middle, ran, rest⟩
    · obtain ⟨last, ends⟩ := ihInner plain.1 inside
      exact ⟨_, bind_eq_some.mpr (.inr ⟨_, _, guarded_eq_some.mpr ⟨last, ends, rfl⟩, rfl⟩)⟩
    · obtain ⟨last, ends⟩ := ih value (plain.2 value) rest
      exact ⟨last, (bind_apply ran _).trans ends⟩
  | settle inner next ihInner ih =>
    rcases asks with inside | ⟨result, middle, ran, rest⟩
    · obtain ⟨last, ends⟩ := ihInner plain.1 inside
      have after : (next (.error (.escape tag value))).Unwinds (.escape tag value) :=
        plain.2.2 (.escape tag value)
      obtain ⟨final, unwound, -⟩ := after.run perform last
      exact ⟨final, settle_eq_some.mpr ⟨_, last, ends, unwound⟩⟩
    · cases result with
      | ok value =>
        obtain ⟨last, ends⟩ := ih (.ok value) (plain.2.1 value) rest
        exact ⟨last, settle_eq_some.mpr ⟨_, middle, ran, ends⟩⟩
      | error error =>
        have after := plain.2.2 error
        split at after
        · exact absurd rest after.not_asks
        · obtain ⟨last, ends⟩ := ih (.error error) after rest
          exact ⟨last, settle_eq_some.mpr ⟨_, middle, ran, ends⟩⟩

end Plan

end Trampoline
