import Trampoline.Proofs.Evaluation.Stacks

/-!
# Contracts of tasks

A contract says what each task may rely on and what it answers, and what holds of the machine all
the while. What holds may speak of something that no machine keeps, a ghost. If the plan of every
task meets the contract, given that the tasks it asks for do, then every task does.
-/

namespace Trampoline

open Exec

/-- What tasks rely on and what they keep to. -/
structure Contract (Ghost : Type) where
  /-- What holds of the machine. -/
  holds : Ghost -> Machine -> Prop
  /-- The errors that there may be, and what is left then. -/
  fails : EvalError -> Ghost -> Prop
  /-- What a task relies on. -/
  asks : Task -> Ghost -> Prop
  /-- What a task answers. -/
  answers : (task : Task) -> task.Answer -> Ghost -> Prop
  /-- What holds does not hang on the extents of continuations. -/
  unwinds : ∀ ghost m extents stack, holds ghost m ->
    holds ghost { m with extents := extents, stack := stack }

variable {Ghost : Type} {contract : Contract Ghost} {ghost : Ghost} {α β : Type}

namespace Contract

/-- How a computation may end. -/
def Admits (contract : Contract Ghost) (post : α -> Ghost -> Prop) (outcome : Outcome Machine α) :
    Prop :=
  match outcome with
  | (.ok value, m) => ∃ ghost, post value ghost ∧ contract.holds ghost m
  | (.error error, m) => ∃ ghost, contract.fails error ghost ∧ contract.holds ghost m

/-- Leaving a guarded operation keeps what the contract holds. -/
theorem holds_guardedState {m : Machine} (holds : contract.holds ghost m) (mark : Nat)
    (result : Except EvalError α) : contract.holds ghost (guardedState mark (result, m)) := by
  cases result with
  | ok value => exact contract.unwinds ghost m _ _ holds
  | error error =>
    simp only [guardedState]
    split
    · exact contract.unwinds ghost m _ _ holds
    · exact contract.unwinds ghost m _ _ holds

/-- An outcome that the contract admits is admitted when a guarded operation is left. -/
theorem Admits.guarded {post : α -> Ghost -> Prop} {result : Except EvalError α} {m : Machine}
    (admits : contract.Admits post (result, m)) (mark : Nat) :
    contract.Admits post (result, guardedState mark (result, m)) := by
  cases result with
  | ok value =>
    obtain ⟨ghost, holds, kept⟩ := admits
    exact ⟨ghost, holds, holds_guardedState kept mark _⟩
  | error error =>
    obtain ⟨ghost, fails, kept⟩ := admits
    exact ⟨ghost, fails, holds_guardedState kept mark (.error error : Except EvalError α)⟩

end Contract

/-- From where the contract holds, the computation ends as the contract admits. -/
def Exec.Ensures (contract : Contract Ghost) (ghost : Ghost) (run : Run α)
    (post : α -> Ghost -> Prop) : Prop :=
  ∀ m outcome, contract.holds ghost m -> run m = some outcome -> contract.Admits post outcome

namespace Exec.Ensures

variable {post : α -> Ghost -> Prop}

/-- A value ensures what is known of it. -/
theorem pure {value : α} (holds : post value ghost) :
    Ensures contract ghost (pure value) post := by
  rintro m _ kept ⟨⟩
  exact ⟨ghost, holds, kept⟩

theorem fail {error : EvalError} (fails : contract.fails error ghost) :
    Ensures contract ghost (fail error) post := by
  rintro m _ kept ⟨⟩
  exact ⟨ghost, fails, kept⟩

/-- The second step begins with what the first one ensures. -/
theorem bind {mid : α -> Ghost -> Prop} {post : β -> Ghost -> Prop} {first : Run α}
    {next : α -> Run β} (ensures : Ensures contract ghost first mid)
    (after : ∀ value ghost', mid value ghost' -> Ensures contract ghost' (next value) post) :
    Ensures contract ghost (first >>= next) post := by
  intro m outcome kept ends
  rcases bind_eq_some.mp ends with ⟨value, middle, ran, rest⟩ | ⟨error, last, ran, rfl⟩
  · obtain ⟨ghost', holds, kept'⟩ := ensures m _ kept ran
    exact after value ghost' holds middle outcome kept' rest
  · exact ensures m _ kept ran

theorem ite {test : Prop} [Decidable test] {first second : Run α}
    (ensures : test -> Ensures contract ghost first post)
    (ensures' : ¬test -> Ensures contract ghost second post) :
    Ensures contract ghost (if test then first else second) post := by
  split
  · exact ensures ‹_›
  · exact ensures' ‹_›

theorem guarded {run : Run α} (ensures : Ensures contract ghost run post) :
    Ensures contract ghost run.guarded post := by
  rintro m ⟨result, m'⟩ kept ends
  obtain ⟨last, ran, rfl⟩ := guarded_eq_some.mp ends
  exact (ensures m _ kept ran).guarded m.stack.size

theorem imp {weaker : α -> Ghost -> Prop} {run : Run α} (ensures : Ensures contract ghost run post)
    (implies : ∀ value ghost', post value ghost' -> weaker value ghost') :
    Ensures contract ghost run weaker := by
  rintro m ⟨error | value, last⟩ kept ends
  · exact ensures m _ kept ends
  · obtain ⟨ghost', holds, kept'⟩ := ensures m _ kept ends
    exact ⟨ghost', implies value ghost' holds, kept'⟩

/-- A step that always succeeds. -/
theorem of_moves {run : Run α} (moves : ∀ m, contract.holds ghost m -> ∃ value m',
    run m = some (.ok value, m') ∧ ∃ ghost', post value ghost' ∧ contract.holds ghost' m') :
    Ensures contract ghost run post := by
  intro m outcome kept ends
  obtain ⟨value, m', ran, ghost', holds, kept'⟩ := moves m kept
  cases ran.symm.trans ends
  exact ⟨ghost', holds, kept'⟩

end Exec.Ensures

namespace Plan

/-- Following the plan keeps to the contract, if the tasks in it do. -/
def Meets (contract : Contract Ghost) {α : Type} : Plan α -> Ghost -> (α -> Ghost -> Prop) -> Prop
  | done value, ghost, post => post value ghost
  | step run next, ghost, post => ∃ mid, Ensures contract ghost run mid ∧
      ∀ value ghost', mid value ghost' -> (next value).Meets contract ghost' post
  | ask task next, ghost, post => contract.asks task ghost ∧
      ∀ answer ghost', contract.answers task answer ghost' ->
        (next answer).Meets contract ghost' post
  | guarded inner next, ghost, post => ∃ mid, inner.Meets contract ghost mid ∧
      ∀ value ghost', mid value ghost' -> (next value).Meets contract ghost' post
  | settle inner next, ghost, post => ∃ mid, inner.Meets contract ghost mid ∧
      (∀ value ghost', mid value ghost' -> (next (.ok value)).Meets contract ghost' post) ∧
      ∀ error ghost', contract.fails error ghost' ->
        (next (.error error)).Meets contract ghost' post

namespace Meets

variable {post : α -> Ghost -> Prop} {plan : Plan α}

theorem lift {run : Run α} (ensures : Ensures contract ghost run post) :
    (lift run).Meets contract ghost post :=
  ⟨post, ensures, fun _ _ holds => holds⟩

/-- A plan that begins with a step goes on from what the step ensures. -/
theorem step {mid : α -> Ghost -> Prop} {post : β -> Ghost -> Prop} {run : Run α}
    {next : α -> Plan β} (ensures : Ensures contract ghost run mid)
    (after : ∀ value ghost', mid value ghost' -> (next value).Meets contract ghost' post) :
    (Plan.lift run >>= next).Meets contract ghost post :=
  ⟨mid, ensures, after⟩

theorem ask {task : Task} {next : task.Answer -> Plan α} (asks : contract.asks task ghost)
    (after : ∀ answer ghost', contract.answers task answer ghost' ->
      (next answer).Meets contract ghost' post) :
    (sub task >>= next).Meets contract ghost post :=
  ⟨asks, after⟩

theorem sub {task : Task} {post : task.Answer -> Ghost -> Prop} (asks : contract.asks task ghost)
    (after : ∀ answer ghost', contract.answers task answer ghost' -> post answer ghost') :
    (sub task).Meets contract ghost post :=
  ⟨asks, after⟩

theorem ite {test : Prop} [Decidable test] {first second : Plan α}
    (meets : test -> first.Meets contract ghost post)
    (meets' : ¬test -> second.Meets contract ghost post) :
    (if test then first else second).Meets contract ghost post := by
  split
  · exact meets ‹_›
  · exact meets' ‹_›

variable {perform : (task : Task) -> Run task.Answer}

/-- What a plan does keeps to the contract if the tasks in it do. -/
theorem run (meets : plan.Meets contract ghost post)
    (performs : ∀ task ghost, contract.asks task ghost ->
      Ensures contract ghost (perform task) (contract.answers task)) :
    Ensures contract ghost (plan.run perform) post := by
  induction plan generalizing ghost with
  | done value => exact .pure meets
  | step act next ih =>
    obtain ⟨mid, ensures, after⟩ := meets
    exact ensures.bind fun value ghost' holds => ih value (after value ghost' holds)
  | ask task next ih =>
    obtain ⟨asks, after⟩ := meets
    exact (performs task ghost asks).bind fun answer ghost' holds =>
      ih answer (after answer ghost' holds)
  | guarded inner next ihInner ih =>
    obtain ⟨mid, inside, after⟩ := meets
    exact (ihInner inside).guarded.bind fun value ghost' holds =>
      ih value (after value ghost' holds)
  | settle inner next ihInner ih =>
    obtain ⟨mid, inside, afterOk, afterError⟩ := meets
    intro m outcome kept ends
    obtain ⟨result, middle, ran, rest⟩ := settle_eq_some.mp ends
    cases result with
    | ok value =>
      obtain ⟨ghost', holds, kept'⟩ := ihInner inside m _ kept ran
      exact ih _ (afterOk value ghost' holds) middle outcome kept' rest
    | error error =>
      obtain ⟨ghost', fails, kept'⟩ := ihInner inside m _ kept ran
      exact ih _ (afterError error ghost' fails) middle outcome kept' rest

/-- A plan asks for its tasks where they can rely on the contract. -/
theorem asks (meets : plan.Meets contract ghost post)
    (performs : ∀ task ghost, contract.asks task ghost ->
      Ensures contract ghost (perform task) (contract.answers task))
    {task : Task} {m later : Machine} (kept : contract.holds ghost m)
    (asks : plan.Asks perform task later m) :
    ∃ ghost', contract.asks task ghost' ∧ contract.holds ghost' later := by
  induction plan generalizing ghost m with
  | done value => exact asks.elim
  | step act next ih =>
    obtain ⟨mid, ensures, after⟩ := meets
    obtain ⟨value, middle, ran, rest⟩ := asks
    obtain ⟨ghost', holds, kept'⟩ := ensures m _ kept ran
    exact ih value (after value ghost' holds) kept' rest
  | ask first next ih =>
    obtain ⟨relies, after⟩ := meets
    rcases asks with ⟨rfl, rfl⟩ | ⟨answer, middle, ran, rest⟩
    · exact ⟨ghost, relies, kept⟩
    · obtain ⟨ghost', holds, kept'⟩ := performs first ghost relies m _ kept ran
      exact ih answer (after answer ghost' holds) kept' rest
  | guarded inner next ihInner ih =>
    obtain ⟨mid, inside, after⟩ := meets
    rcases asks with within | ⟨value, middle, ran, rest⟩
    · exact ihInner inside kept within
    · obtain ⟨ghost', holds, kept'⟩ := (inside.run performs).guarded m _ kept ran
      exact ih value (after value ghost' holds) kept' rest
  | settle inner next ihInner ih =>
    obtain ⟨mid, inside, afterOk, afterError⟩ := meets
    rcases asks with within | ⟨result, middle, ran, rest⟩
    · exact ihInner inside kept within
    · cases result with
      | ok value =>
        obtain ⟨ghost', holds, kept'⟩ := inside.run performs m _ kept ran
        exact ih _ (afterOk value ghost' holds) kept' rest
      | error error =>
        obtain ⟨ghost', fails, kept'⟩ := inside.run performs m _ kept ran
        exact ih _ (afterError error ghost' fails) kept' rest

end Meets

end Plan

/-! ## Contracts that are kept -/

/-- The plan of every task meets the contract. -/
def Contract.Kept (contract : Contract Ghost) : Prop :=
  ∀ task ghost, contract.asks task ghost -> task.plan.Meets contract ghost (contract.answers task)

namespace Contract.Kept

/-- A contract that every plan meets is kept by every task, whatever fuel it has. -/
theorem task (kept : contract.Kept) (n : Nat) (task : Task) (ghost : Ghost)
    (asks : contract.asks task ghost) :
    Ensures contract ghost (task.run n) (contract.answers task) := by
  induction n generalizing task ghost with
  | zero =>
    intro m outcome _ ends
    cases task <;> cases ends
  | succ n ih =>
    rw [Task.run_succ]
    exact (kept task ghost asks).run ih

/-- Calls under way can rely on the contract. -/
theorem stack (kept : contract.Kept) {entry : Entry} {n : Nat} {m : Machine}
    (first : ∀ call, entry.Makes n m call ->
      ∃ ghost, contract.asks call.task ghost ∧ contract.holds ghost call.machine)
    {top : Call} {callers : List Call} (stack : entry.Stack n m (top :: callers)) :
    ∃ ghost, contract.asks top.task ghost ∧ contract.holds ghost top.machine := by
  generalize calls : top :: callers = stacked at stack
  induction stack generalizing top callers with
  | first made =>
    cases calls
    exact first _ made
  | next below made ih =>
    cases calls
    obtain ⟨ghost, asks, holds⟩ := ih rfl
    exact (kept _ ghost asks).asks (kept.task _) holds made.asks

end Contract.Kept

end Trampoline
