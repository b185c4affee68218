import Trampoline.Proofs.Evaluation.Runs
import Trampoline.Proofs.Evaluation.Order
import Trampoline.Proofs.Positions.Reports
import Trampoline.Proofs.Positions.Visits

/-!
# The course of an evaluation

An evaluation that comes to a value passes some parts of its expression and then ends with the value
of one that the way goes on with, unless no test of a conditional without alternative holds or an
operand before the last decides a connective.
-/

namespace Trampoline

open Exec

/-- Forcing a value on a machine came to a value and a machine. -/
def ForcedTo (before after : Value × Machine) : Prop :=
  ∃ n, (Task.force before.1).run n before.2 = some (.ok after.1, after.2)

/-- Forcing what is no promise changes nothing. -/
theorem ForcedTo.eq_of_plain {before after : Value × Machine} (forced : ForcedTo before after)
    (plain : ∀ ref, before.1 ≠ .promise ref) : after = before := by
  obtain ⟨value, m⟩ := before
  obtain ⟨result, last⟩ := after
  obtain ⟨n, ran⟩ := forced
  cases n with
  | zero => cases ran
  | succ n =>
    rw [Task.run_succ] at ran
    cases value with
    | promise ref => exact absurd rfl (plain ref)
    | _ =>
      cases ran
      rfl

theorem ForcedTo.nil {before after : Value × Machine} (forced : ForcedTo before after)
    (isNil : before.1 = .nil) : after.1 = .nil := by
  have same := forced.eq_of_plain fun ref isPromise => nomatch isNil.symm.trans isPromise
  rw [same, isNil]

/-! ## Steps on the way -/

/-- A plan that begins with a task and succeeds goes on with what the task comes to. -/
theorem Plan.sub_bind_ok {n : Nat} {α : Type} {task : Task} {next : task.Answer -> Plan α}
    {m last : Machine} {value : α}
    (ran : (sub task >>= next).run (Task.run n) m = some (.ok value, last)) :
    ∃ answer middle, task.run n m = some (.ok answer, middle) ∧
      (next answer).run (Task.run n) middle = some (.ok value, last) ∧
      (sub task >>= next).calls (Task.run n) (Task.visits n) m =
        task.visits n m ++ (next answer).calls (Task.run n) (Task.visits n) middle := by
  obtain ⟨answer, middle, first, rest⟩ := bind_eq_ok.mp ran
  refine ⟨answer, middle, first, rest, ?_⟩
  rw [show (sub task >>= next) = ask task next from rfl, calls, first]

/-- A plan that ends with a task. -/
theorem Plan.sub_ok {n : Nat} {task : Task} {m last : Machine} {answer : task.Answer}
    (ran : (sub task).run (Task.run n) m = some (.ok answer, last)) :
    task.run n m = some (.ok answer, last) ∧
      (sub task).calls (Task.run n) (Task.visits n) m = task.visits n m := by
  obtain ⟨same, middle, first, rest⟩ := bind_eq_ok.mp ran
  cases rest
  refine ⟨first, ?_⟩
  rw [calls, first]
  exact List.append_nil _

namespace Task

variable {n : Nat} {m last : Machine} {frame frame' : Frame} {e : Expr} {value : Value}

theorem visits_succ {task : Task} (ofBody : task.isOfBody = true)
    (noEval : task.evaluation (n + 1) m = []) :
    task.visits (n + 1) m = task.plan.calls (Task.run n) (visits n) m := by
  rw [visits, if_pos ofBody, noEval, List.nil_append]

theorem visits_force : (force value).visits n m = [] := by
  cases n <;> rfl

/-- The first item of a block is evaluated, and then the others are. -/
theorem evalItems_cons {rest : List Expr} {before : Value}
    (ran : (evalItems (e :: rest) before frame).run n m = some (.ok (value, frame'), last)) :
    ∃ k first frame'' middle, (eval e frame).run k m = some (.ok (first, frame''), middle) ∧
      (evalItems rest first frame'').run k middle = some (.ok (value, frame'), last) ∧
      (evalItems (e :: rest) before frame).visits n m =
        (eval e frame).visits k m ++ (evalItems rest first frame'').visits k middle := by
  cases n with
  | zero => cases ran
  | succ n =>
    rw [run_succ, plan] at ran
    rw [visits_succ rfl rfl, plan]
    obtain ⟨⟨first, frame''⟩, middle, evaluated, others, visits⟩ := Plan.sub_bind_ok ran
    obtain ⟨others, inside⟩ := Plan.sub_ok others
    exact ⟨n, first, frame'', middle, evaluated, others, visits.trans (congrArg _ inside)⟩

/-- The value of an expression is forced where it is tested. -/
theorem evalForced_ok
    (ran : (evalForced e frame).run n m = some (.ok (value, frame'), last)) :
    ∃ k result middle, (eval e frame).run k m = some (.ok (result, frame'), middle) ∧
      (force result).run k middle = some (.ok value, last) ∧
      (evalForced e frame).visits n m = (eval e frame).visits k m := by
  cases n with
  | zero => cases ran
  | succ n =>
    rw [run_succ, plan] at ran
    rw [visits_succ rfl rfl, plan]
    obtain ⟨⟨result, frame''⟩, middle, evaluated, rest, visits⟩ := Plan.sub_bind_ok ran
    obtain ⟨forced, middle', forces, rest, none⟩ := Plan.sub_bind_ok rest
    cases rest
    refine ⟨n, result, middle, evaluated, forces, visits.trans ?_⟩
    rw [none, visits_force]
    exact List.append_nil _

/-- The first test decides whether its body is evaluated or the other arms are looked at. -/
theorem evalArms_cons {test body : Expr} {rest : List (Expr × Expr)} {alt : Option Expr}
    (ran : (evalArms ((test, body) :: rest) alt frame).run n m =
      some (.ok (value, frame'), last)) :
    ∃ k tested frame'' middle, (evalForced test frame).run k m =
        some (.ok (tested, frame''), middle) ∧
      ((eval body frame'').run k middle = some (.ok (value, frame'), last) ∧
          (evalArms ((test, body) :: rest) alt frame).visits n m =
            (evalForced test frame).visits k m ++ (eval body frame'').visits k middle ∨
        (evalArms rest alt frame'').run k middle = some (.ok (value, frame'), last) ∧
          (evalArms ((test, body) :: rest) alt frame).visits n m =
            (evalForced test frame).visits k m ++ (evalArms rest alt frame'').visits k middle) := by
  cases n with
  | zero => cases ran
  | succ n =>
    rw [run_succ, plan] at ran
    rw [visits_succ rfl rfl, plan]
    obtain ⟨⟨tested, frame''⟩, middle, first, others, visits⟩ := Plan.sub_bind_ok ran
    refine ⟨n, tested, frame'', middle, first, ?_⟩
    rw [visits]
    by_cases holds : tested.truthy = true
    · simp only [if_pos holds] at others ⊢
      obtain ⟨evaluated, inside⟩ := Plan.sub_ok others
      exact .inl ⟨evaluated, congrArg _ inside⟩
    · simp only [if_neg holds] at others ⊢
      obtain ⟨others, inside⟩ := Plan.sub_ok others
      exact .inr ⟨others, congrArg _ inside⟩

/-- The first operand decides or the others are looked at. -/
theorem evalShort_cons {op : Connective} {rest : List Expr} {before : Value}
    (ran : (evalShort op (e :: rest) before frame).run n m = some (.ok (value, frame'), last)) :
    ∃ k operand frame'' middle,
      (evalForced e frame).run k m = some (.ok (operand, frame''), middle) ∧
      ((operand.truthy = true ↔ op = .or) ∧ value = operand ∧ last = middle ∧
          (evalShort op (e :: rest) before frame).visits n m = (evalForced e frame).visits k m ∨
        (evalShort op rest operand frame'').run k middle = some (.ok (value, frame'), last) ∧
          (evalShort op (e :: rest) before frame).visits n m =
            (evalForced e frame).visits k m ++
              (evalShort op rest operand frame'').visits k middle) := by
  cases n with
  | zero => cases ran
  | succ n =>
    rw [run_succ, plan] at ran
    rw [visits_succ rfl rfl, plan]
    obtain ⟨⟨operand, frame''⟩, middle, first, others, visits⟩ := Plan.sub_bind_ok ran
    refine ⟨n, operand, frame'', middle, first, ?_⟩
    rw [visits]
    by_cases decides : (operand.truthy = true) = (op = .or)
    · simp only [if_pos decides] at others ⊢
      cases others
      exact .inl ⟨iff_of_eq decides, rfl, rfl, List.append_nil _⟩
    · simp only [if_neg decides] at others ⊢
      obtain ⟨others, inside⟩ := Plan.sub_ok others
      exact .inr ⟨others, congrArg _ inside⟩

/-- When no items are left, a block gives the last value without a visit. -/
theorem evalItems_nil {before : Value}
    (ran : (evalItems [] before frame).run n m = some (.ok (value, frame'), last)) :
    value = before ∧ last = m ∧ (evalItems [] before frame).visits n m = [] := by
  cases n with
  | zero => cases ran
  | succ n =>
    rw [run_succ, plan] at ran
    cases ran
    exact ⟨rfl, rfl, rfl⟩

/-- When no operands are left, a connective gives the last value without a visit. -/
theorem evalShort_nil {op : Connective} {before : Value}
    (ran : (evalShort op [] before frame).run n m = some (.ok (value, frame'), last)) :
    value = before ∧ last = m ∧ (evalShort op [] before frame).visits n m = [] := by
  cases n with
  | zero => cases ran
  | succ n =>
    rw [run_succ, plan] at ran
    cases ran
    exact ⟨rfl, rfl, rfl⟩

end Task

/-! ## What an evaluation reaches -/

/-- Some expressions were passed before an expression came to a value, and nothing was evaluated
after it. -/
def Reaches (passed : List Expr) (e : Expr) (ended : Value × Machine) (visits : List Call) : Prop :=
  ∃ before n frame m frame', visits = before ++ (Task.eval e frame).visits n m ∧
    visited before ⊆ nodesOfAll passed ∧
    (Task.eval e frame).run n m = some (.ok (ended.1, frame'), ended.2)

/-- An evaluation reaches its own expression at once. -/
theorem Reaches.here {passed : List Expr} {n : Nat} {e : Expr} {frame frame' : Frame}
    {m last : Machine} {value : Value}
    (ran : (Task.eval e frame).run n m = some (.ok (value, frame'), last)) :
    Reaches passed e (value, last) ((Task.eval e frame).visits n m) :=
  ⟨[], n, frame, m, frame', rfl, List.nil_subset _, ran⟩

/-- What is reached was visited. -/
theorem Reaches.mem_visited {passed : List Expr} {e : Expr} {ended : Value × Machine}
    {visits : List Call} (reaches : Reaches passed e ended visits) : e ∈ visited visits := by
  obtain ⟨before, n, frame, m, frame', rfl, -⟩ := reaches
  rw [visited_append, visited_eval]
  exact List.mem_append_right _ List.mem_cons_self

/-- What was evaluated before is passed as well. -/
theorem Reaches.after {passed : List Expr} {first e : Expr} {ended : Value × Machine}
    {visits : List Call} (reaches : Reaches passed e ended visits) {before : List Call}
    (inside : visited before ⊆ first.nodes) :
    Reaches (first :: passed) e ended (before ++ visits) := by
  obtain ⟨earlier, n, frame, m, frame', rfl, passes, ran⟩ := reaches
  refine ⟨before ++ earlier, n, frame, m, frame', (List.append_assoc ..).symm, ?_, ran⟩
  rw [visited_append, nodesOfAll]
  exact List.append_subset.mpr ⟨List.subset_append_of_subset_left _ inside,
    List.subset_append_of_subset_right _ passes⟩

namespace Task

variable {n : Nat} {m last : Machine} {frame frame' : Frame} {value : Value}

theorem visited_evalForced_subset {e : Expr} :
    visited ((evalForced e frame).visits n m) ⊆ e.nodes := by
  simpa [exprs, nodesOfAll] using visited_subset n (evalForced e frame) m

/-- A block comes to the value of its last item. -/
theorem evalItems_reaches {items : List Expr} {before : Value}
    (ran : (evalItems items before frame).run n m = some (.ok (value, frame'), last))
    (more : items ≠ []) : ∃ e ∈ items.getLast?,
      Reaches items.dropLast e (value, last) ((evalItems items before frame).visits n m) := by
  induction items generalizing n m frame before with
  | nil => exact absurd rfl more
  | cons e rest ih =>
    obtain ⟨k, first, frame'', middle, evaluated, others, visits⟩ := evalItems_cons ran
    rw [visits]
    cases rest with
    | nil =>
      obtain ⟨rfl, rfl, none⟩ := evalItems_nil others
      rw [none, List.append_nil]
      exact ⟨e, rfl, .here evaluated⟩
    | cons second rest =>
      obtain ⟨e', isLast, reaches⟩ := ih others (List.cons_ne_nil _ _)
      exact ⟨e', isLast, reaches.after visited_eval_subset⟩

/-- A conditional comes to the value of one of its branches, or all its tests are passed. -/
theorem evalArms_reaches {arms : List (Expr × Expr)} {alt : Option Expr}
    (ran : (evalArms arms alt frame).run n m = some (.ok (value, frame'), last)) :
    (∃ e ∈ arms.map Prod.snd ++ alt.toList,
      Reaches (arms.map Prod.fst) e (value, last) ((evalArms arms alt frame).visits n m)) ∨
    alt = none ∧ value = .nil ∧
      visited ((evalArms arms alt frame).visits n m) ⊆ nodesOfAll (arms.map Prod.fst) := by
  induction arms generalizing n m frame with
  | nil =>
    cases n with
    | zero => cases ran
    | succ n =>
      cases alt with
      | none =>
        rw [run_succ, plan] at ran
        cases ran
        exact .inr ⟨rfl, rfl, List.Subset.refl _⟩
      | some alt =>
        rw [run_succ, plan] at ran
        rw [visits_succ rfl rfl, plan]
        obtain ⟨evaluated, inside⟩ := Plan.sub_ok ran
        rw [inside]
        exact .inl ⟨alt, List.mem_cons_self, .here evaluated⟩
  | cons arm rest ih =>
    obtain ⟨test, body⟩ := arm
    obtain ⟨k, tested, frame'', middle, first, ⟨evaluated, visits⟩ | ⟨others, visits⟩⟩ :=
      evalArms_cons ran
    · rw [visits]
      refine .inl ⟨body, List.mem_cons_self, ?_⟩
      exact (Reaches.here evaluated).after visited_evalForced_subset
    · rw [visits]
      rcases ih others with ⟨e, isEnd, reaches⟩ | ⟨noAlt, isNil, passes⟩
      · refine .inl ⟨e, List.mem_cons_of_mem _ isEnd, ?_⟩
        exact reaches.after visited_evalForced_subset
      · refine .inr ⟨noAlt, isNil, ?_⟩
        rw [visited_append]
        exact List.append_subset.mpr
          ⟨List.subset_append_of_subset_left _ visited_evalForced_subset,
            List.subset_append_of_subset_right _ passes⟩

/-- A connective comes to the forced value of its last operand, or of one before that decided. -/
theorem evalShort_reaches {op : Connective} {operands : List Expr} {before : Value}
    (ran : (evalShort op operands before frame).run n m = some (.ok (value, frame'), last))
    (more : operands ≠ []) : ∃ passed e after result, operands = passed ++ e :: after ∧
      ForcedTo result (value, last) ∧ (after ≠ [] -> (value.truthy = true ↔ op = .or)) ∧
      Reaches passed e result ((evalShort op operands before frame).visits n m) := by
  induction operands generalizing n m frame before with
  | nil => exact absurd rfl more
  | cons e rest ih =>
    obtain ⟨k, operand, frame'', middle, first, goesOn⟩ := evalShort_cons ran
    obtain ⟨k', result, middle', evaluated, forced, inside⟩ := evalForced_ok first
    rcases goesOn with ⟨decides, rfl, rfl, visits⟩ | ⟨others, visits⟩
    · rw [visits, inside]
      exact ⟨[], e, rest, (result, middle'), rfl, ⟨_, forced⟩, fun _ => decides, .here evaluated⟩
    · rw [visits]
      cases rest with
      | nil =>
        obtain ⟨rfl, rfl, none⟩ := evalShort_nil others
        rw [none, List.append_nil, inside]
        exact ⟨[], e, [], (result, middle'), rfl, ⟨_, forced⟩, nofun, .here evaluated⟩
      | cons second rest =>
        obtain ⟨passed, e', after, result', same, forced, decides, reaches⟩ :=
          ih others (List.cons_ne_nil _ _)
        exact ⟨e :: passed, e', after, result', congrArg _ same, forced, decides,
          reaches.after visited_evalForced_subset⟩

end Task

/-! ## Courses -/

/-- How an evaluation comes to its value, by what is evaluated after its own expression. -/
inductive Course (inner : List Call) (ended : Value × Machine) : Expr -> Prop
  /-- The way ends with the expression. -/
  | leaf {e : Expr} (noEnds : e.ends = []) (whole : e.returns = [.returns e]) : Course inner ended e
  /-- The way ends with an empty block. -/
  | block (mark : Mark) (isNil : ended.1 = .nil) : Course inner ended (.seq mark [])
  /-- The way goes on. -/
  | branch {e last : Expr} (noShort : ∀ mark op operands, e ≠ .short mark op operands)
    (isEnd : last ∈ e.ends) (reaches : Reaches e.passed last ended inner) : Course inner ended e
  /-- No test of a conditional without alternative holds. -/
  | unmatched (mark : Mark) {arms : List (Expr × Expr)} (isNil : ended.1 = .nil)
    (passes : visited inner ⊆ nodesOfAll (arms.map Prod.fst)) :
    Course inner ended (.cond mark arms none)
  /-- The way ends with the forced value of an operand, which is the last one or decides. -/
  | operand (mark : Mark) {op : Connective} {passed after : List Expr} {e : Expr}
    {result : Value × Machine} (forced : ForcedTo result ended)
    (decides : after ≠ [] -> (ended.1.truthy = true ↔ op = .or))
    (reaches : Reaches passed e result inner) :
    Course inner ended (.short mark op (passed ++ e :: after))

/-- Every evaluation that comes to a value takes one of these courses. -/
theorem Task.eval_course {n : Nat} {e : Expr} {frame frame' : Frame} {m last : Machine}
    {value : Value} (ran : (eval e frame).run n m = some (.ok (value, frame'), last)) :
    ∃ inner, (eval e frame).visits n m = ⟨n, .eval e frame, m⟩ :: inner ∧
      Course inner (value, last) e := by
  cases n with
  | zero => cases ran
  | succ n =>
    refine ⟨_, visits_eval, ?_⟩
    rw [run_succ] at ran
    cases e with
    | seq mark items =>
      rw [plan] at ran ⊢
      obtain ⟨⟨value', frame''⟩, middle, ofItems, rest, visits⟩ := Plan.sub_bind_ok ran
      cases rest
      rw [visits, show Plan.calls _ _ _ _ = [] from rfl, List.append_nil]
      by_cases more : items = []
      · subst more
        exact .block mark (evalItems_nil ofItems).1
      · obtain ⟨e, isLast, reaches⟩ := evalItems_reaches ofItems more
        exact .branch nofun (Option.mem_toList.mpr isLast) reaches
    | cond mark arms alt =>
      rw [plan] at ran ⊢
      obtain ⟨ofArms, visits⟩ := Plan.sub_ok ran
      rw [visits]
      rcases evalArms_reaches ofArms with ⟨e, isEnd, reaches⟩ | ⟨rfl, isNil, passes⟩
      · exact .branch nofun isEnd reaches
      · exact .unmatched mark isNil passes
    | short mark op operands =>
      rw [plan] at ran ⊢
      obtain ⟨ofOperands, visits⟩ := Plan.sub_ok ran
      rw [visits]
      by_cases more : operands = []
      · subst more
        exact .leaf rfl (by rw [Expr.returns])
      · obtain ⟨passed, e, after, result, rfl, forced, decides, reaches⟩ :=
          evalShort_reaches ofOperands more
        exact .operand mark forced decides reaches
    | _ => exact .leaf rfl rfl

end Trampoline
