import Trampoline.Proofs.Evaluation.Stacks

/-!
# Disciplines of tasks

A discipline says what holds of the machine all the while and how it may go on, and what tasks rely
on and answer on the machine as it is by then. What was known of a machine is known of those that it
leads to, so a plan keeps what it knows while it has other tasks done. If the plan of every task
observes the discipline, given that the tasks it asks for do, then every task does.
-/

namespace Trampoline

open Exec

/-- What tasks rely on and what they keep to, from one machine to a later one. -/
structure Discipline where
  /-- What holds of the machine. -/
  holds : Machine -> Prop
  /-- How the machine may go on. -/
  leads : Machine -> Machine -> Prop
  /-- The errors that there may be. -/
  fails : EvalError -> Machine -> Prop
  /-- What a task relies on. -/
  asks : Task -> Machine -> Prop
  /-- What a task answers. -/
  answers : (task : Task) -> task.Answer -> Machine -> Prop
  refl : ∀ m, leads m m
  trans : ∀ {first second third}, leads first second -> leads second third -> leads first third
  fails_leads : ∀ {error m m'}, leads m m' -> fails error m -> fails error m'
  /-- Nothing hangs on the extents of continuations. -/
  unwinds : ∀ m extents stack, holds m -> holds { m with extents := extents, stack := stack }
  leads_unwinds : ∀ m extents stack, leads m { m with extents := extents, stack := stack }

variable {discipline : Discipline} {α β : Type} {m m' : Machine}

namespace Discipline

/-- The machine is a later one on which all still holds. -/
structure Reaches (discipline : Discipline) (m m' : Machine) : Prop where
  leads : discipline.leads m m'
  holds : discipline.holds m'

variable {middle : Machine}

theorem Reaches.trans (first : discipline.Reaches m middle)
    (second : discipline.Reaches middle m') : discipline.Reaches m m' :=
  ⟨discipline.trans first.leads second.leads, second.holds⟩

/-- How a computation from the machine may end. -/
structure Admits (discipline : Discipline) (m : Machine) (post : α -> Machine -> Prop)
    (outcome : Outcome Machine α) : Prop where
  reaches : discipline.Reaches m outcome.2
  ends : match outcome.1 with
    | .ok value => post value outcome.2
    | .error error => discipline.fails error outcome.2

/-- What is admitted later on is admitted from the beginning. -/
theorem Reaches.admits (reaches : discipline.Reaches m middle)
    {post : α -> Machine -> Prop} {outcome : Outcome Machine α}
    (admits : discipline.Admits middle post outcome) : discipline.Admits m post outcome :=
  ⟨reaches.trans admits.reaches, admits.ends⟩

/-- Leaving a guarded operation is a step that the discipline allows. -/
theorem reaches_guardedState (holds : discipline.holds m) (mark : Nat)
    (result : Except EvalError α) : discipline.Reaches m (guardedState mark (result, m)) := by
  cases result with
  | ok value => exact ⟨discipline.leads_unwinds m _ _, discipline.unwinds m _ _ holds⟩
  | error error =>
    simp only [guardedState]
    split
    · exact ⟨discipline.leads_unwinds m _ _, discipline.unwinds m _ _ holds⟩
    · exact ⟨discipline.leads_unwinds m _ _, discipline.unwinds m _ _ holds⟩

end Discipline

/-- From the machine, the computation ends as the discipline admits. -/
def Exec.Observes (discipline : Discipline) (m : Machine) (run : Run α)
    (post : α -> Machine -> Prop) : Prop :=
  ∀ outcome, run m = some outcome -> discipline.Admits m post outcome

/-- The tasks are done as the discipline says. -/
def Discipline.Performs (discipline : Discipline) (perform : (task : Task) -> Run task.Answer) :
    Prop :=
  ∀ task m, discipline.holds m -> discipline.asks task m ->
    Exec.Observes discipline m (perform task) (discipline.answers task)

namespace Exec.Observes

variable {post : α -> Machine -> Prop}

variable {value : α} {first : Run α}

theorem pure (holds : discipline.holds m) (known : post value m) :
    Observes discipline m (pure value) post := by
  rintro _ ⟨⟩
  exact ⟨⟨discipline.refl m, holds⟩, known⟩

theorem fail {error : EvalError} (holds : discipline.holds m) (known : discipline.fails error m) :
    Observes discipline m (fail error) post := by
  rintro _ ⟨⟩
  exact ⟨⟨discipline.refl m, holds⟩, known⟩

theorem read (holds : discipline.holds m) (view : Machine -> α) :
    Observes discipline m (read view) fun answer m' => answer = view m ∧ m' = m := by
  rintro _ ⟨⟩
  exact ⟨⟨discipline.refl m, holds⟩, rfl, rfl⟩

/-- The second step begins where the first one led. -/
theorem bind {mid : α -> Machine -> Prop} {post : β -> Machine -> Prop}
    {next : α -> Run β} (observes : Observes discipline m first mid)
    (after : ∀ value m', discipline.Reaches m m' -> mid value m' ->
      Observes discipline m' (next value) post) :
    Observes discipline m (first >>= next) post := by
  intro outcome ends
  rcases bind_eq_some.mp ends with ⟨value, middle, ran, rest⟩ | ⟨error, last, ran, rfl⟩
  · have admits := observes _ ran
    exact admits.reaches.admits (after value middle admits.reaches admits.ends outcome rest)
  · have admits := observes _ ran
    exact ⟨admits.reaches, admits.ends⟩

/-- A guarded run observes the discipline up to its end, and then leaves. -/
theorem guarded {run : Run α} (observes : Observes discipline m run post) :
    Observes discipline m run.guarded fun value m' =>
      ∃ last, discipline.Reaches m last ∧ post value last ∧ discipline.Reaches last m' := by
  rintro ⟨result, m'⟩ ends
  obtain ⟨last, ran, rfl⟩ := guarded_eq_some.mp ends
  have admits := observes _ ran
  have leaves := Discipline.reaches_guardedState admits.reaches.holds m.stack.size result
  cases result with
  | ok value => exact ⟨admits.reaches.trans leaves, last, admits.reaches, admits.ends, leaves⟩
  | error error =>
    exact ⟨admits.reaches.trans leaves, discipline.fails_leads leaves.leads admits.ends⟩

/-- What is known of the answer may be weakened. -/
theorem imp {weaker : α -> Machine -> Prop} {run : Run α}
    (observes : Observes discipline m run post)
    (implies : ∀ value m', discipline.Reaches m m' -> post value m' -> weaker value m') :
    Observes discipline m run weaker := by
  rintro ⟨error | value, last⟩ ends
  · have admits := observes _ ends
    exact ⟨admits.reaches, admits.ends⟩
  · have admits := observes _ ends
    exact ⟨admits.reaches, implies value last admits.reaches admits.ends⟩

theorem ite {test : Prop} [Decidable test] {second : Run α}
    (observes : test -> Observes discipline m first post)
    (observes' : ¬test -> Observes discipline m second post) :
    Observes discipline m (if test then first else second) post := by
  split
  · exact observes ‹_›
  · exact observes' ‹_›

/-- A step that succeeds. -/
theorem of_eq {run : Run α} (ran : run m = some (.ok value, m'))
    (reaches : discipline.Reaches m m') (known : post value m') :
    Observes discipline m run post := by
  intro outcome ends
  cases ran.symm.trans ends
  exact ⟨reaches, known⟩

end Exec.Observes

namespace Plan

/-- Following the plan from the machine observes the discipline, if the tasks in it do. -/
def Observes (discipline : Discipline) {α : Type} : Plan α -> Machine ->
    (α -> Machine -> Prop) -> Prop
  | done value, m, post => post value m
  | step run next, m, post => ∃ mid, Exec.Observes discipline m run mid ∧
      ∀ value m', discipline.Reaches m m' -> mid value m' ->
        (next value).Observes discipline m' post
  | ask task next, m, post => discipline.asks task m ∧
      ∀ answer m', discipline.Reaches m m' -> discipline.answers task answer m' ->
        (next answer).Observes discipline m' post
  | guarded inner next, m, post => ∃ mid, inner.Observes discipline m mid ∧
      ∀ value last m', discipline.Reaches m last -> mid value last -> discipline.Reaches last m' ->
        (next value).Observes discipline m' post
  | settle inner next, m, post => ∃ mid, inner.Observes discipline m mid ∧
      (∀ value m', discipline.Reaches m m' -> mid value m' ->
        (next (.ok value)).Observes discipline m' post) ∧
      ∀ error m', discipline.Reaches m m' -> discipline.fails error m' ->
        (next (.error error)).Observes discipline m' post

namespace Observes

variable {post : α -> Machine -> Prop} {plan : Plan α}

theorem lift {run : Run α} (observes : Exec.Observes discipline m run post) :
    (lift run).Observes discipline m post :=
  ⟨post, observes, fun _ _ _ known => known⟩

/-- A plan that begins with a step goes on from where the step led. -/
theorem step {mid : α -> Machine -> Prop} {post : β -> Machine -> Prop} {run : Run α}
    {next : α -> Plan β} (observes : Exec.Observes discipline m run mid)
    (after : ∀ value m', discipline.Reaches m m' -> mid value m' ->
      (next value).Observes discipline m' post) :
    (Plan.lift run >>= next).Observes discipline m post :=
  ⟨mid, observes, after⟩

variable {task : Task}

theorem ask {next : task.Answer -> Plan α} (asks : discipline.asks task m)
    (after : ∀ answer m', discipline.Reaches m m' -> discipline.answers task answer m' ->
      (next answer).Observes discipline m' post) :
    (sub task >>= next).Observes discipline m post :=
  ⟨asks, after⟩

theorem sub {post : task.Answer -> Machine -> Prop} (asks : discipline.asks task m)
    (after : ∀ answer m', discipline.Reaches m m' -> discipline.answers task answer m' ->
      post answer m') :
    (sub task).Observes discipline m post :=
  ⟨asks, after⟩

theorem ite {test : Prop} [Decidable test] {first second : Plan α}
    (observes : test -> first.Observes discipline m post)
    (observes' : ¬test -> second.Observes discipline m post) :
    (if test then first else second).Observes discipline m post := by
  split
  · exact observes ‹_›
  · exact observes' ‹_›

variable {perform : (task : Task) -> Run task.Answer}

/-- What a plan does observes the discipline if the tasks in it do. -/
theorem run (observes : plan.Observes discipline m post) (holds : discipline.holds m)
    (performs : discipline.Performs perform) :
    Exec.Observes discipline m (plan.run perform) post := by
  induction plan generalizing m with
  | done value => exact .pure holds observes
  | step act next ih =>
    obtain ⟨mid, first, after⟩ := observes
    exact first.bind fun value m' reaches known =>
      ih value (after value m' reaches known) reaches.holds
  | ask task next ih =>
    obtain ⟨asks, after⟩ := observes
    exact (performs task m holds asks).bind fun answer m' reaches known =>
      ih answer (after answer m' reaches known) reaches.holds
  | guarded inner next ihInner ih =>
    obtain ⟨mid, inside, after⟩ := observes
    refine (ihInner inside holds).guarded.bind ?_
    rintro value m' - ⟨last, reaches, known, leaves⟩
    exact ih value (after value last m' reaches known leaves) leaves.holds
  | settle inner next ihInner ih =>
    obtain ⟨mid, inside, afterOk, afterError⟩ := observes
    intro outcome ends
    obtain ⟨result, middle, ran, rest⟩ := settle_eq_some.mp ends
    have admits := ihInner inside holds _ ran
    cases result with
    | ok value =>
      have goes := ih _ (afterOk value middle admits.reaches admits.ends) admits.reaches.holds
      exact admits.reaches.admits (goes outcome rest)
    | error error =>
      have goes := ih _ (afterError error middle admits.reaches admits.ends) admits.reaches.holds
      exact admits.reaches.admits (goes outcome rest)

/-- A plan asks for its tasks where they can rely on the discipline. -/
theorem asks (observes : plan.Observes discipline m post) (holds : discipline.holds m)
    (performs : discipline.Performs perform) {later : Machine}
    (asks : plan.Asks perform task later m) :
    discipline.asks task later ∧ discipline.Reaches m later := by
  induction plan generalizing m with
  | done value => exact asks.elim
  | step act next ih =>
    obtain ⟨mid, first, after⟩ := observes
    obtain ⟨value, middle, ran, rest⟩ := asks
    have admits := first _ ran
    obtain ⟨relies, reaches⟩ :=
      ih value (after value middle admits.reaches admits.ends) admits.reaches.holds rest
    exact ⟨relies, admits.reaches.trans reaches⟩
  | ask first next ih =>
    obtain ⟨relies, after⟩ := observes
    rcases asks with ⟨rfl, rfl⟩ | ⟨answer, middle, ran, rest⟩
    · exact ⟨relies, discipline.refl m, holds⟩
    · have admits := performs first m holds relies _ ran
      obtain ⟨relies, reaches⟩ :=
        ih answer (after answer middle admits.reaches admits.ends) admits.reaches.holds rest
      exact ⟨relies, admits.reaches.trans reaches⟩
  | guarded inner next ihInner ih =>
    obtain ⟨mid, inside, after⟩ := observes
    rcases asks with within | ⟨value, middle, ran, rest⟩
    · exact ihInner inside holds within
    · have admits := (inside.run holds performs).guarded _ ran
      obtain ⟨last, first, known, leaves⟩ := admits.ends
      obtain ⟨relies, reaches⟩ :=
        ih value (after value last _ first known leaves) leaves.holds rest
      exact ⟨relies, admits.reaches.trans reaches⟩
  | settle inner next ihInner ih =>
    obtain ⟨mid, inside, afterOk, afterError⟩ := observes
    rcases asks with within | ⟨result, middle, ran, rest⟩
    · exact ihInner inside holds within
    · have admits := inside.run holds performs _ ran
      cases result with
      | ok value =>
        obtain ⟨relies, reaches⟩ :=
          ih _ (afterOk value middle admits.reaches admits.ends) admits.reaches.holds rest
        exact ⟨relies, admits.reaches.trans reaches⟩
      | error error =>
        obtain ⟨relies, reaches⟩ :=
          ih _ (afterError error middle admits.reaches admits.ends) admits.reaches.holds rest
        exact ⟨relies, admits.reaches.trans reaches⟩

end Observes

end Plan

/-! ## Disciplines that are kept -/

/-- If every task is done as the discipline says whenever those that it asks for are, then all
are. -/
theorem Discipline.performs_of_step
    (step : ∀ n, discipline.Performs (Task.run n) -> ∀ task m, discipline.holds m ->
      discipline.asks task m ->
        Exec.Observes discipline m (task.run (n + 1)) (discipline.answers task)) (n : Nat) :
    discipline.Performs (Task.run n) := by
  induction n with
  | zero =>
    intro task m _ _ outcome ends
    cases task <;> cases ends
  | succ n ih => exact step n ih

/-- The plan of every task observes the discipline. -/
def Discipline.Kept (discipline : Discipline) : Prop :=
  ∀ task m, discipline.holds m -> discipline.asks task m ->
    task.plan.Observes discipline m (discipline.answers task)

namespace Discipline.Kept

/-- A discipline that every plan observes is observed by every task, whatever fuel it has. -/
theorem performs (kept : discipline.Kept) (n : Nat) : discipline.Performs (Task.run n) := by
  refine Discipline.performs_of_step (fun n ih task m holds asks => ?_) n
  rw [Task.run_succ]
  exact (kept task m holds asks).run holds ih

/-- Calls under way can rely on the discipline. -/
theorem stack (kept : discipline.Kept) {entry : Entry} {n : Nat} {m : Machine}
    (first : ∀ call, entry.Makes n m call ->
      discipline.asks call.task call.machine ∧ discipline.holds call.machine)
    {top : Call} {callers : List Call} (stack : entry.Stack n m (top :: callers)) :
    discipline.asks top.task top.machine ∧ discipline.holds top.machine := by
  generalize calls : top :: callers = stacked at stack
  induction stack generalizing top callers with
  | first made =>
    cases calls
    exact first _ made
  | next below made ih =>
    cases calls
    obtain ⟨relies, holds⟩ := ih rfl
    have asked := (kept _ _ holds relies).asks holds (kept.performs _) made.asks
    exact ⟨asked.1, asked.2.holds⟩

end Discipline.Kept

end Trampoline
