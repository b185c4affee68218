import Trampoline.Proofs.Evaluation.Stacks
import Trampoline.Proofs.Positions.Paths

/-!
# What is evaluated of a body

The evaluations of expressions that are made on the way of a task of a running body, in the order in
which they are begun. Calls, promises and escape points evaluate in bodies of their own, so what
they evaluate is not among them. All that is evaluated is in what the task was to evaluate.
-/

namespace Trampoline

open Exec

/-! ## Tasks that are asked for -/

namespace Plan

variable {α β : Type} {kind : Task -> Prop}

/-- All tasks that the plan may ask for are of a kind. -/
def Only (kind : Task -> Prop) {α : Type} : Plan α -> Prop
  | done _ => True
  | step _ next => ∀ value, (next value).Only kind
  | ask task next => kind task ∧ ∀ answer, (next answer).Only kind
  | guarded inner next => inner.Only kind ∧ ∀ value, (next value).Only kind
  | settle inner next => inner.Only kind ∧ ∀ result, (next result).Only kind

@[simp] theorem only_pure (value : α) : (pure value : Plan α).Only kind := trivial

@[simp] theorem only_done (value : α) : (done value).Only kind := trivial

@[simp] theorem only_lift (run : Run α) : (lift run).Only kind := fun _ => trivial

/-- A step of a body asks for nothing. -/
@[simp] theorem only_body (part : Body α) (frame : Frame) : (body part frame).Only kind :=
  only_lift _

@[simp] theorem only_ask (task : Task) (next : task.Answer -> Plan α) :
    (ask task next).Only kind ↔ kind task ∧ ∀ answer, (next answer).Only kind := Iff.rfl

@[simp] theorem only_lift_bind (run : Run α) (next : α -> Plan β) :
    (lift run >>= next).Only kind ↔ ∀ value, (next value).Only kind := Iff.rfl

@[simp] theorem only_ask_bind (task : Task) (rest : task.Answer -> Plan α) (next : α -> Plan β) :
    (ask task rest >>= next).Only kind ↔
      kind task ∧ ∀ answer, (rest answer >>= next).Only kind := Iff.rfl

@[simp] theorem only_done_bind (value : α) (next : α -> Plan β) :
    (done value >>= next).Only kind ↔ (next value).Only kind := Iff.rfl

@[simp] theorem only_ite (test : Prop) [Decidable test] (first second : Plan α) :
    (if test then first else second).Only kind ↔
      (test -> first.Only kind) ∧ (¬test -> second.Only kind) := by
  split <;> simp [*]

/-- What is of a kind is of any kind that it implies. -/
theorem Only.imp {kind' : Task -> Prop} {plan : Plan α} (only : plan.Only kind)
    (implies : ∀ task, kind task -> kind' task) : plan.Only kind' := by
  induction plan with
  | done value => trivial
  | step run next ih => exact fun value => ih value (only value)
  | ask task next ih => exact ⟨implies task only.1, fun answer => ih answer (only.2 answer)⟩
  | guarded inner next ihInner ih => exact ⟨ihInner only.1, fun value => ih value (only.2 value)⟩
  | settle inner next ihInner ih => exact ⟨ihInner only.1, fun result => ih result (only.2 result)⟩

/-- What is on the way of a plan is on the way of a task that it may ask for. -/
theorem Only.calls {plan : Plan α} (only : plan.Only kind)
    {perform : (task : Task) -> Run task.Answer} {inside : Task -> Machine -> List Call}
    {m : Machine} {call : Call} (member : call ∈ plan.calls perform inside m) :
    ∃ task later, kind task ∧ call ∈ inside task later := by
  induction plan generalizing m with
  | done value => cases member
  | step run next ih =>
    rw [Plan.calls] at member
    split at member
    · exact ih _ (only _) member
    · cases member
  | ask task next ih =>
    rw [Plan.calls] at member
    rcases List.mem_append.mp member with member | member
    · exact ⟨task, m, only.1, member⟩
    · split at member
      · exact ih _ (only.2 _) member
      · cases member
  | guarded inner next ihInner ih =>
    rw [Plan.calls] at member
    rcases List.mem_append.mp member with member | member
    · exact ihInner only.1 member
    · split at member
      · exact ih _ (only.2 _) member
      · cases member
  | settle inner next ihInner ih =>
    rw [Plan.calls] at member
    rcases List.mem_append.mp member with member | member
    · exact ihInner only.1 member
    · split at member
      · exact ih _ (only.2 _) member
      · cases member

end Plan

namespace Task

open Plan

/-- Whether a task is one of a running body. -/
def isOfBody : Task -> Bool
  | eval .. | evalForced .. | evalContinuation .. | operand .. | delayed .. | operands ..
  | keywords .. | evalArms .. | evalShort .. | evalItems .. | evalLoop .. => true
  | _ => false

/-- What a task of a running body is to evaluate. -/
def exprs : Task -> List Expr
  | eval e _ | evalForced e _ | operand _ e _ | delayed e _ => [e]
  | evalContinuation cc _ => cc.toList
  | operands _ es _ | evalShort _ es _ _ | evalItems es _ _ => es
  | keywords _ kwargs _ => kwargs.map Prod.snd
  | evalArms arms alt _ => arms.flatMap (fun (test, body) => [test, body]) ++ alt.toList
  | evalLoop test body _ => [test, body]
  | _ => []

/-- What a task of a running body leaves to others to evaluate. -/
def inner : Task -> List Expr
  | eval e _ => e.children
  | task => task.exprs

/-- A task of a body asks only for what it is to evaluate, and for parts of it. -/
theorem only_inner {task : Task} (ofBody : task.isOfBody = true) :
    task.plan.Only fun asked => asked.exprs ⊆ task.inner := by
  cases task with
  | eval e frame =>
    cases e with
    | bind mark name bindee => cases bindee <;> simp [plan, exprs, inner, Expr.children]
    | jump mark func args kwargs cc =>
      obtain ⟨named, last⟩ := List.append_subset.mp
        (List.subset_cons_of_subset func (List.subset_append_right args
          (kwargs.map Prod.snd ++ cc.toList)))
      simp [plan, exprs, inner, Expr.children, named, last]
    | _ => simp [plan, exprs, inner, Expr.children]
  | evalForced e => simp [plan, exprs, inner]
  | evalContinuation cc => cases cc <;> simp [plan, exprs, inner]
  | operand policy => cases policy <;> simp [plan, exprs, inner]
  | delayed e => cases e <;> simp [plan, exprs, inner]
  | operands policy es => cases es <;> simp [plan, exprs, inner]
  | keywords policy es => cases es <;> simp [plan, exprs, inner]
  | evalArms arms alt => cases arms <;> cases alt <;> simp [plan, exprs, inner]
  | evalShort op es => cases es <;> simp [plan, exprs, inner]
  | evalItems es => cases es <;> simp [plan, exprs, inner]
  | evalLoop test body => simp [plan, exprs, inner]
  | _ => cases ofBody

/-! ## Visits -/

/-- The call of a task, if it is to evaluate an expression. -/
def evaluation (n : Nat) (m : Machine) : Task -> List Call
  | eval e frame => [⟨n, .eval e frame, m⟩]
  | _ => []

/-- The evaluations of expressions on the way of a task of a body, its own first, in the order in
which they are begun. -/
def visits : Nat -> Task -> Machine -> List Call
  | 0, task, m => task.evaluation 0 m
  | n + 1, task, m => task.evaluation (n + 1) m ++
    if task.isOfBody then task.plan.calls (Task.run n) (visits n) m else []

end Task

/-- The expression that a call evaluates. -/
def Call.expr? : Call -> Option Expr
  | ⟨_, .eval e _, _⟩ => some e
  | _ => none

/-- The expressions that calls evaluate. -/
def visited (calls : List Call) : List Expr := calls.filterMap Call.expr?

@[simp] theorem visited_append (first second : List Call) :
    visited (first ++ second) = visited first ++ visited second :=
  List.filterMap_append

/-- The first that an evaluation visits is its own expression. -/
theorem visited_eval (n : Nat) (e : Expr) (frame : Frame) (m : Machine) :
    visited ((Task.eval e frame).visits n m) =
      e :: (visited ((Task.eval e frame).visits n m)).tail := by
  cases n <;> rfl

/-- The nodes of fewer expressions are among those of more. -/
theorem nodesOfAll_subset {es more : List Expr} (subset : es ⊆ more) :
    nodesOfAll es ⊆ nodesOfAll more := by
  rw [nodesOfAll_eq_flatMap, nodesOfAll_eq_flatMap]
  intro node member
  obtain ⟨e, listed, inside⟩ := List.mem_flatMap.mp member
  exact List.mem_flatMap.mpr ⟨e, subset listed, inside⟩

namespace Task

variable {n : Nat} {m : Machine} {e : Expr} {frame : Frame}

/-- An evaluation visits its expression and then what its plan visits. -/
theorem visits_eval : (eval e frame).visits (n + 1) m =
    ⟨n + 1, .eval e frame, m⟩ :: (eval e frame).plan.calls (Task.run n) (visits n) m := rfl

/-- What is visited in what a plan asks for is in what its tasks are to evaluate. -/
theorem visited_calls {α : Type} {plan : Plan α} {es : List Expr}
    (only : plan.Only fun asked => asked.exprs ⊆ es)
    (inside : ∀ task m, visited (visits n task m) ⊆ nodesOfAll task.exprs) :
    visited (plan.calls (Task.run n) (visits n) m) ⊆ nodesOfAll es := by
  intro x member
  obtain ⟨call, listed, evaluates⟩ := List.mem_filterMap.mp member
  obtain ⟨task, later, subset, asked⟩ := only.calls listed
  exact nodesOfAll_subset subset
    (inside task later (List.mem_filterMap.mpr ⟨call, asked, evaluates⟩))

/-- What a task visits is in what it is to evaluate. -/
theorem visited_subset (n : Nat) (task : Task) (m : Machine) :
    visited (task.visits n m) ⊆ nodesOfAll task.exprs := by
  induction n generalizing task m with
  | zero =>
    cases task with
    | eval e frame => exact fun node member => mem_nodesOfAll member
    | _ => exact List.nil_subset _
  | succ n ih =>
    by_cases ofBody : task.isOfBody = true
    · have inside := visited_calls (m := m) (only_inner ofBody) ih
      cases task with
      | eval e frame =>
        simp only [exprs, nodesOfAll, List.append_nil]
        rw [visits_eval, e.nodes_parts]
        exact List.cons_subset_cons e
          (List.Subset.trans inside (nodesOfAll_subset e.children_subset_parts))
      | _ =>
        rw [visits, if_pos ofBody]
        exact inside
    · cases task with
      | eval e frame => exact absurd rfl ofBody
      | _ =>
        rw [visits, if_neg ofBody]
        exact List.nil_subset _

/-- What an evaluation visits after its own expression is in the parts of that. -/
theorem visited_tail_subset :
    (visited ((eval e frame).visits n m)).tail ⊆ nodesOfAll e.parts := by
  cases n with
  | zero => exact List.nil_subset _
  | succ n =>
    exact List.Subset.trans (visited_calls (only_inner rfl) (visited_subset n))
      (nodesOfAll_subset e.children_subset_parts)

/-- What an evaluation visits are nodes of its expression. -/
theorem visited_eval_subset : visited ((eval e frame).visits n m) ⊆ e.nodes := by
  rw [visited_eval, e.nodes_parts]
  exact List.cons_subset_cons e visited_tail_subset

end Task

end Trampoline
