import Trampoline.Proofs.Promises.Forces

/-!
# The order in which calls end

Of two calls in a history that are over, one was over first. So what every effect preserves holds
from the end of the one to the end of the other.
-/

namespace Trampoline

open Exec

/-- A relation that every effect preserves, and that also holds from the end of a guarded operation
to when it is left. -/
structure Machine.Standing (keeps : Machine -> Machine -> Prop) : Prop extends
    Machine.Preserved (fun _ => True) keeps where
  leaves : ∀ {α : Type} (m : Machine) (mark : Nat) (result : Except EvalError α),
    keeps m (guardedState mark (result, m))

/-- The relation holds between the ends of the calls, in one order or the other. -/
def Call.Ordered (keeps : Machine -> Machine -> Prop) (call other : Call) : Prop :=
  ∀ outcome outcome', call.Ends outcome -> other.Ends outcome' ->
    keeps outcome.2 outcome'.2 ∨ keeps outcome'.2 outcome.2

variable {keeps : Machine -> Machine -> Prop} {call other : Call}

theorem Call.Ordered.symm (ordered : call.Ordered keeps other) : other.Ordered keeps call :=
  fun outcome outcome' ends ends' => (ordered outcome' outcome ends' ends).symm

/-- Where the relation holds between the ends of calls that began on the way from the machine to the
last one, if there is one. -/
structure Succession (keeps : Machine -> Machine -> Prop) (m : Machine) (calls : List Call)
    (last : Option Machine) : Prop where
  /-- From the beginning to the end of a call. -/
  first : ∀ call ∈ calls, ∀ outcome, call.Ends outcome -> keeps m outcome.2
  order : calls.Pairwise (Call.Ordered keeps)
  /-- From the end of a call to the last machine. -/
  last : ∀ m', last = some m' ->
    keeps m m' ∧ ∀ call ∈ calls, ∀ outcome, call.Ends outcome -> keeps outcome.2 m'

namespace Succession

variable {keeps : Machine -> Machine -> Prop} {m middle m' : Machine} {calls more : List Call}
  {last : Option Machine}

/-- Before anything has happened nothing is out of order. -/
theorem unfinished (keeps : Machine -> Machine -> Prop) (m : Machine) :
    Succession keeps m [] none where
  first _ member := absurd member List.not_mem_nil
  order := .nil
  last := nofun

/-- A step that keeps what is to be kept. -/
theorem kept (kept : keeps m m') : Succession keeps m [] (some m') where
  first _ member := absurd member List.not_mem_nil
  order := .nil
  last := by
    rintro _ ⟨⟩
    exact ⟨kept, fun _ member => absurd member List.not_mem_nil⟩

/-- What has begun without an end yet. -/
theorem cut (succession : Succession keeps m calls last) : Succession keeps m calls none where
  first := succession.first
  order := succession.order
  last := nofun

section Standing

variable (standing : Machine.Standing keeps)
include standing

theorem append (before : Succession keeps m calls (some middle))
    (after : Succession keeps middle more last) : Succession keeps m (calls ++ more) last where
  first call member outcome ends := by
    rcases List.mem_append.mp member with member | member
    · exact before.first call member outcome ends
    · exact standing.trans (before.last middle rfl).1 (after.first call member outcome ends)
  order := by
    refine List.pairwise_append.mpr ⟨before.order, after.order, ?_⟩
    intro call member other inside outcome outcome' ends ends'
    exact .inl (standing.trans ((before.last middle rfl).2 call member outcome ends)
      (after.first other inside outcome' ends'))
  last m' same := by
    obtain ⟨kept, earlier⟩ := before.last middle rfl
    obtain ⟨kept', later⟩ := after.last m' same
    refine ⟨standing.trans kept kept', fun call member outcome ends => ?_⟩
    rcases List.mem_append.mp member with member | member
    · exact standing.trans (earlier call member outcome ends) kept'
    · exact later call member outcome ends

/-- A call comes before those on its way, and ends after them. -/
theorem cons (call : Call) (inside : Succession keeps m calls last)
    (ends : ended (call.task.run call.fuel) call.machine = last) :
    Succession keeps m (call :: calls) last := by
  have isLast {outcome : Outcome Machine call.task.Answer} (closed : call.Ends outcome) :
      last = some outcome.2 := by
    rw [← ends, ended, closed]
    rfl
  constructor
  case first =>
    intro other member outcome closed
    rcases List.mem_cons.mp member with rfl | member
    · exact (inside.last _ (isLast closed)).1
    · exact inside.first other member outcome closed
  case order =>
    refine List.pairwise_cons.mpr
      ⟨fun other member outcome outcome' closed closed' => ?_, inside.order⟩
    exact .inr ((inside.last _ (isLast closed)).2 other member outcome' closed')
  case last =>
    intro m' same
    refine ⟨(inside.last m' same).1, fun other member outcome closed => ?_⟩
    rcases List.mem_cons.mp member with rfl | member
    · obtain rfl : m' = outcome.2 := Option.some.inj (same.symm.trans (isLast closed))
      exact standing.refl _
    · exact (inside.last m' same).2 other member outcome closed

variable {perform : (task : Task) -> Run task.Answer} {inside : Task -> Machine -> List Call}

/-- The calls of a plan end in some order if those of its tasks do. -/
theorem plan (performs : ∀ task m, Succession keeps m (inside task m) (ended (perform task) m))
    {α : Type} {plan : Plan α} (does : plan.Does fun _ => True) (m : Machine) :
    Succession keeps m (plan.calls perform inside m) (ended (plan.run perform) m) := by
  induction plan generalizing m with
  | done value => exact .kept (standing.refl m)
  | step act next ih =>
    simp only [Plan.calls, Plan.run, ended_bind]
    cases ran : act m with
    | none => exact .unfinished keeps m
    | some outcome =>
      obtain ⟨result, middle⟩ := outcome
      have first := kept (standing.undergoes (does.1 m result middle ran))
      cases result with
      | error error => exact first
      | ok value => exact append standing first (ih value (does.2 value) middle)
  | ask task next ih =>
    simp only [Plan.calls, Plan.run, ended_bind]
    have first := performs task m
    rw [ended] at first
    cases ran : perform task m with
    | none =>
      rw [ran] at first
      exact (List.append_nil _).symm ▸ first
    | some outcome =>
      rw [ran] at first
      obtain ⟨result, middle⟩ := outcome
      cases result with
      | error error => exact (List.append_nil _).symm ▸ first
      | ok answer => exact append standing first (ih answer (does answer) middle)
  | guarded inner next ihInner ih =>
    simp only [Plan.calls, Plan.run, ended_bind]
    have first := ihInner does.1 m
    rw [ended] at first
    cases ran : (inner.run perform).guarded m with
    | none => exact (List.append_nil _).symm ▸ first.cut
    | some outcome =>
      obtain ⟨result, middle⟩ := outcome
      obtain ⟨last, within, rfl⟩ := guarded_eq_some.mp ran
      rw [within] at first
      have leaves := kept (standing.leaves last m.stack.size result)
      have whole := append standing first leaves
      rw [List.append_nil] at whole
      cases result with
      | error error => exact (List.append_nil _).symm ▸ whole
      | ok value => exact append standing whole (ih value (does.2 value) _)
  | settle inner next ihInner ih =>
    have first := ihInner does.1 m
    rw [ended] at first
    rw [Plan.run_settle, ended_settle, Plan.calls]
    cases ran : inner.run perform m with
    | none =>
      rw [ran] at first
      exact (List.append_nil _).symm ▸ first
    | some outcome =>
      rw [ran] at first
      obtain ⟨result, middle⟩ := outcome
      exact append standing first (ih result (does.2 result) middle)

theorem task (n : Nat) (task : Task) (m : Machine) :
    Succession keeps m (task.calls n m) (ended (task.run n) m) := by
  induction n generalizing task m with
  | zero =>
    have never : ended (task.run 0) m = none := by cases task <;> rfl
    exact cons standing ⟨0, task, m⟩ (never ▸ .unfinished keeps m) rfl
  | succ n ih =>
    have inside := plan standing ih (task.plan_does.imp fun _ _ => trivial) m
    rw [← Task.run_succ] at inside
    exact cons standing ⟨n + 1, task, m⟩ inside rfl

/-- Of two calls in the history of a session, one ends first. -/
theorem history (n : Nat) (operations : List Operation) (m : Machine) :
    Succession keeps m (history n operations m)
      (ended ((Plan.session operations).run (Task.run n)) m) :=
  plan standing (task standing n) ((Plan.does_session operations).imp fun _ _ => trivial) m

end Standing

end Succession

/-- Such a relation holds between the ends of any two calls of a session, in the order in which they
ended. -/
theorem Machine.Standing.ends (standing : Machine.Standing keeps)
    {n : Nat} {operations : List Operation} {m : Machine}
    (member : call ∈ history n operations m) (member' : other ∈ history n operations m) :
    call.Ordered keeps other := by
  have order := (Succession.history standing n operations m).order
  have itself (call : Call) : call.Ordered keeps call := by
    intro outcome outcome' ends ends'
    obtain rfl : outcome = outcome' := Option.some.inj (ends.symm.trans ends')
    exact .inl (standing.refl _)
  exact List.Pairwise.forall_of_forall_of_flip (fun call _ => itself call) order
    (order.imp Call.Ordered.symm) member member'

end Trampoline
