import Mathlib.Data.List.Nodup
import Trampoline.Proofs.Evaluation.Runs
import Trampoline.Proofs.Promises.Forces
import Trampoline.Proofs.Syntax.Source
import Trampoline.Transform.Program

/-!
# Promises in sessions

Whatever a host does with a machine, and however its operations end, a promise is settled at most
once and then keeps its value, a force that fails can be tried again, and nothing is being forced
but by a force that is under way.

When a task is over, so are all calls on its way, and a promise that has its value by then had it
before or got it from one of them. So if no run of a thunk fails, a promise that gets its value
while a task is done has its thunk run once.
-/

namespace Trampoline

/-! ## Promises and sessions -/

section Sessions

open Exec

/-! ## Sessions -/

theorem Unfolding.tasks (n : Nat) : Unfolding (Task.run n) (Task.calls n) := by
  induction n with
  | zero => exact .zero
  | succ n ih => exact ih.succ

theorem Plan.session_gradual (operations : List Operation) :
    (Plan.session operations).Gradual :=
  (does_session operations).gradual fun _ _ => id

/-- No promise is settled twice in calls that unfold. -/
theorem Unfolds.once {m : Machine} {calls : List Call} {ended : Option Machine}
    (unfolds : Unfolds m calls ended) : (calls.filterMap Call.settles?).Nodup := by
  refine List.pairwise_filterMap.mpr (unfolds.order.imp fun precedes ref settles other again => ?_)
  obtain ⟨-, ⟨thunk, waits⟩, -⟩ := Call.settles?_eq_some.mp again
  rintro rfl
  exact precedes.settles ref settles thunk waits

theorem history_unfolds (n : Nat) (operations : List Operation) (m : Machine) :
    Unfolds m (history n operations m) (ended ((Plan.session operations).run (Task.run n)) m) :=
  (Unfolding.tasks n).plan (Plan.session_gradual operations) m

/-! ## Promises that are being forced -/

namespace Machine

variable {m m' : Machine} {ref : Nat}

/-- What is being forced when a task is over was being forced when it began. -/
theorem Settles.was_forcing (settles : m.Settles m') (inside : ref < m'.promises.size)
    (forcing : m'.promise ref = .forcing) :
    ref < m.promises.size ∧ m.promise ref = .forcing := by
  by_cases known : ref < m.promises.size
  · refine ⟨known, ?_⟩
    have becomes := settles.known ref known
    rw [forcing] at becomes
    generalize m.promise ref = state at becomes
    cases becomes
    rfl
  · exact absurd forcing (settles.new ref (Nat.le_of_not_lt known) inside)

end Machine

/-- The force of a promise that waits asks for its thunk when it has begun. -/
theorem Plan.asks_force {perform : (task : Task) -> Run task.Answer} {m later : Machine} {ref : Nat}
    {task : Task} (asks : (Task.force (.promise ref)).plan.Asks perform task later m) :
    ∃ thunk, m.promise ref = .pending thunk ∧
      (computing thunk).Asks perform task later (m.beginForce ref) := by
  rw [Task.plan] at asks
  obtain ⟨state, middle, reads, asks⟩ := (asks_lift_bind _ _).mp asks
  obtain ⟨known, rfl⟩ : m.promise ref = state ∧ m = middle := by
    cases reads
    exact ⟨rfl, rfl⟩
  cases state with
  | forced value => exact asks.elim
  | forcing => exact absurd asks (not_asks_lift _)
  | pending thunk =>
    refine ⟨thunk, known, ?_⟩
    rcases asks with ⟨_, _, ⟨⟩, _, _, ⟨⟩, asks⟩ | ⟨result, last, -, asks⟩
    · exact asks
    · cases result with
      | ok value =>
        obtain ⟨_, _, _, asks⟩ := asks
        exact asks.elim
      | error error =>
        obtain ⟨_, _, _, asks⟩ := asks
        exact absurd asks (not_asks_lift _)

/-- A force that fails leaves the promise waiting as before, or found it being forced. -/
theorem force_fails {n : Nat} {m m' : Machine} {ref : Nat} {error : EvalError}
    (fails : Trampoline.force n (.promise ref) m = some (.error error, m')) :
    (∃ thunk, m.promise ref = .pending thunk ∧ m'.promise ref = .pending thunk) ∨
      m.promise ref = .forcing := by
  cases n with
  | zero => cases fails
  | succ n =>
    cases state : m.promise ref with
    | pending thunk =>
      change (Task.force (.promise ref)).run (n + 1) m = _ at fails
      rw [Task.run_succ] at fails
      obtain ⟨last, -, -, -, again⟩ := (Unfolding.tasks n).settles_force state fails
      exact .inl ⟨thunk, rfl, again⟩
    | forcing => exact .inr rfl
    | forced value => cases (force_forced state).symm.trans fails

/-- A promise that is being forced when a call begins was so before, or its force makes the call. -/
theorem Call.Makes.was_forcing {caller callee : Call} (made : caller.Makes callee) {ref : Nat}
    (inside : ref < callee.machine.promises.size)
    (forcing : callee.machine.promise ref = .forcing) :
    (ref < caller.machine.promises.size ∧ caller.machine.promise ref = .forcing) ∨
      caller.task = .force (.promise ref) ∧
        ∃ thunk, caller.machine.promise ref = .pending thunk := by
  have performs := (Unfolding.tasks callee.fuel).settles
  by_cases forces : ∃ other, caller.task = .force (.promise other)
  · obtain ⟨fuel, task, m⟩ := caller
    obtain ⟨other, rfl⟩ := forces
    obtain ⟨thunk, waits, asks⟩ := Plan.asks_force made.asks
    have settles := (Plan.computing_gradual thunk).asks Machine.Settles.lasting performs asks
    obtain ⟨known, begun⟩ := settles.was_forcing inside forcing
    by_cases same : ref = other
    · subst same
      exact .inr ⟨rfl, thunk, waits⟩
    · rw [Machine.promise_beginForce_of_ne same] at begun
      exact .inl ⟨by simpa [Machine.beginForce] using known, begun⟩
  · have gradual := Task.plan_gradual fun other same => forces ⟨other, same⟩
    have settles := gradual.asks Machine.Settles.lasting performs made.asks
    exact .inl (settles.was_forcing inside forcing)

/-- Whatever is being forced is forced by a call under way, or was being forced in the beginning. -/
theorem Plan.Stack.forcing {α : Type} {plan : Plan α} (gradual : plan.Gradual) {n : Nat}
    {m : Machine} {top : Call} {callers : List Call} (stack : plan.Stack n m (top :: callers))
    {ref : Nat} (inside : ref < top.machine.promises.size)
    (forcing : top.machine.promise ref = .forcing) :
    (ref < m.promises.size ∧ m.promise ref = .forcing) ∨
      ∃ call ∈ callers, call.task = .force (.promise ref) ∧
        ∃ thunk, call.machine.promise ref = .pending thunk := by
  generalize calls : top :: callers = stacked at stack
  induction stack generalizing top callers with
  | @first call fuel asks =>
    cases calls
    have performs := (Unfolding.tasks n).settles
    have settles := gradual.asks Machine.Settles.lasting performs asks
    exact .inl (settles.was_forcing inside forcing)
  | next below made ih =>
    cases calls
    rcases made.was_forcing inside forcing with ⟨inside, forcing⟩ | forces
    · rcases ih inside forcing rfl with before | ⟨call, member, forces⟩
      · exact .inl before
      · exact .inr ⟨call, List.mem_cons_of_mem _ member, forces⟩
    · exact .inr ⟨_, List.mem_cons_self, forces⟩

/-! ## What a host can rely on -/

/-- How promises fare when a host has the machine do the operations. -/
structure Machine.KeepsPromises (m : Machine) (n : Nat) (operations : List Operation) : Prop where
  /-- A force that finds a promise waiting, and succeeds, is the only one that ever does. -/
  once : ((history n operations m).filterMap Call.settles?).Nodup
  /-- A value that a promise has is no promise, and stays. -/
  resolved : ∀ call ∈ history n operations m, call.machine.Resolved
  remembers : (history n operations m).Pairwise fun call later =>
    call.machine.Remembers later.machine
  last : ∀ m', m.Reaches n operations m' ->
    m'.Resolved ∧ ∀ call ∈ history n operations m, call.machine.Remembers m'
  /-- A force that fails leaves its promise waiting with the thunk it had, unless the promise was
  being forced already. -/
  retried : ∀ call ∈ history n operations m, ∀ ref, call.task = .force (.promise ref) ->
    ∀ error m', Trampoline.force call.fuel (.promise ref) call.machine = some (.error error, m') ->
      (∃ thunk, call.machine.promise ref = .pending thunk ∧ m'.promise ref = .pending thunk) ∨
        call.machine.promise ref = .forcing
  /-- The force of a promise that is being forced already fails and changes nothing. -/
  recursive : ∀ fuel later ref, later.promise ref = .forcing ->
    Trampoline.force (fuel + 1) (.promise ref) later = some (.error .recursiveForce, later)
  /-- When a call begins, and when it is over, each promise that is being forced is so by a call
  that is under way. -/
  forcing : ∀ top callers, (Plan.session operations).Stack n m (top :: callers) ->
    ∀ later, (later = top.machine ∨ ∃ result, top.Ends (result, later)) ->
      ∀ ref < later.promises.size, later.promise ref = .forcing ->
        ∃ call ∈ callers, call.task = .force (.promise ref)
  /-- When all is over, no promise is being forced. -/
  idle : ∀ m', m.Reaches n operations m' -> ∀ ref < m'.promises.size, m'.promise ref ≠ .forcing

/-- On a new machine, whatever is done with it, promises are settled once at most, keep their values
and can be forced again after a failure. -/
theorem Machine.promises_settle (errors : EvalError -> Bool) (closedOutput : Bool) (n : Nat)
    (operations : List Operation) :
    (startLetting errors closedOutput).KeepsPromises n operations := by
  have unfolds := history_unfolds n operations (startLetting errors closedOutput)
  have empty : (startLetting errors closedOutput).promises.size = 0 := rfl
  have resolved : (startLetting errors closedOutput).Resolved := by
    intro ref value forced
    have inside := lt_of_promise forced nofun
    rw [empty] at inside
    exact absurd inside (Nat.not_lt_zero ref)
  have ends {m' : Machine} (reaches : (startLetting errors closedOutput).Reaches n operations m') :=
    unfolds.after m' (by rw [ended, reaches]; rfl)
  constructor
  case once => exact unfolds.once
  case resolved => exact fun call member => (unfolds.during call member).resolved resolved
  case remembers => exact unfolds.order.imp Call.Precedes.remembers
  case last =>
    intro m' reaches
    obtain ⟨settles, leave⟩ := ends reaches
    exact ⟨settles.resolved resolved, fun call member => (leave call member).remembers⟩
  case retried => exact fun call _ ref _ error m' fails => force_fails fails
  case recursive => exact fun fuel later ref forcing => force_forcing forcing
  case forcing =>
    intro top callers stack later time ref inside forcing
    have begun : ref < top.machine.promises.size ∧ top.machine.promise ref = .forcing := by
      rcases time with rfl | ⟨result, ended⟩
      · exact ⟨inside, forcing⟩
      · exact ((Unfolding.tasks _).settles _ _ _ _ ended).was_forcing inside forcing
    rcases stack.forcing (Plan.session_gradual operations) begun.1 begun.2 with
      ⟨known, -⟩ | ⟨call, member, forces, -⟩
    · exact absurd known (Nat.not_lt_zero ref)
    · exact ⟨call, member, forces⟩
  case idle =>
    intro m' reaches ref inside forcing
    obtain ⟨known, -⟩ := (ends reaches).1.was_forcing inside forcing
    exact absurd known (Nat.not_lt_zero ref)

/-- A thunk that comes to a promise which can not be forced at first. -/
def retriedThunk : String :=
  "(define n 0)
  (defn inner () (set! n (+ n 1)) (if (= n 1) (raise \"first\") 42))
  (defn outer () (print \"ran\") p)"

/-- How a host forces it twice. -/
def retriedThunk.operations (program : Program) : List Operation :=
  [.run program, .delay (.global "inner"), .define "p" (.promise 0), .delay (.global "outer"),
    .task (.force (.promise 1)), .task (.force (.promise 1))]

/-- The thunk has run to its end twice. -/
theorem retriedThunk_completesTwice : ∃ transformed,
    (Program.ofText retriedThunk).transform .default [] = .ok transformed ∧
      ¬ ((history 20 (retriedThunk.operations transformed.program) (.start false)).filterMap
        Call.completes?).Nodup := by
  have completes : ((Program.ofText retriedThunk).transform .default []).toOption.map
      (fun transformed => (history 20 (retriedThunk.operations transformed.program)
        (.start false)).filterMap Call.completes?) = some [1, 1, 0] := by
    rw [Program.ofText, retriedThunk, Program.parse_ofList]
    decide +kernel
  cases succeeds : (Program.ofText retriedThunk).transform .default [] with
  | error error => simp [succeeds, Except.toOption] at completes
  | ok transformed =>
    simp only [succeeds, Except.toOption, Option.map_some, Option.some.injEq] at completes
    refine ⟨transformed, rfl, ?_⟩
    rw [completes]
    decide

end Sessions

/-! ## How often a thunk runs -/

section Settlements

open Exec

/-- The call runs the thunk of the promise. -/
def Call.runs (ref : Nat) (call : Call) : Bool :=
  match call.task, call.machine.promise ref with
  | .force (.promise other), .pending _ => other = ref
  | _, _ => false

/-- A call runs the thunk of a promise if it forces one that waits. -/
theorem Call.runs_eq_true {ref : Nat} {call : Call} : call.runs ref = true ↔
    call.task = .force (.promise ref) ∧ ∃ thunk, call.machine.promise ref = .pending thunk := by
  unfold runs
  split
  · rename_i other thunk task pending
    simp [task, pending]
  · rename_i different
    simp only [Bool.false_eq_true, false_iff, not_and]
    rintro task ⟨thunk, pending⟩
    exact different ref thunk task pending

/-- A call settles a promise if it runs the thunk and succeeds. -/
theorem Call.settles?_eq_some_iff {ref : Nat} {call : Call} : call.settles? = some ref ↔
    call.runs ref = true ∧ ∃ value last,
      Trampoline.force call.fuel (.promise ref) call.machine = some (.ok value, last) := by
  rw [settles?_eq_some, runs_eq_true, and_assoc]

/-- The calls are over when the last machine is reached, and account for the values that promises
got on the way to it. -/
structure Accounts (m : Machine) (calls : List Call) (last : Machine) : Prop where
  ended : ∀ call ∈ calls, ∃ outcome, call.Ends outcome
  settled : ∀ ref value, last.promise ref = .forced value ->
    m.promise ref = .forced value ∨ ∃ call ∈ calls, call.settles? = some ref

namespace Accounts

variable {m middle last : Machine} {calls more : List Call}

theorem idle (remembers : last.Remembers m) : Accounts m [] last where
  ended _ member := absurd member List.not_mem_nil
  settled ref value forced := .inl (remembers ref value forced)

theorem append (first : Accounts m calls middle) (second : Accounts middle more last) :
    Accounts m (calls ++ more) last where
  ended call member := (List.mem_append.mp member).elim (first.ended call) (second.ended call)
  settled ref value forced := by
    rcases second.settled ref value forced with before | ⟨call, member, settles⟩
    · rcases first.settled ref value before with before | ⟨call, member, settles⟩
      · exact .inl before
      · exact .inr ⟨call, List.mem_append_left _ member, settles⟩
    · exact .inr ⟨call, List.mem_append_right _ member, settles⟩

theorem ending (accounts : Accounts m calls middle) (remembers : last.Remembers middle) :
    Accounts m calls last :=
  calls.append_nil ▸ accounts.append (.idle remembers)

/-- What `guarded` disposes of at the end has nothing to do with promises. -/
theorem remembers_guardedState {α : Type} (mark : Nat) (result : Except EvalError α) (m : Machine) :
    (guardedState mark (result, m)).Remembers m := by
  intro ref value forced
  rwa [Machine.promise_congr] at forced
  cases result with
  | ok value => rfl
  | error error =>
    simp only [Exec.guardedState]
    split <;> rfl

/-- Nothing but a force gives a promise its value. -/
theorem lasting : Machine.Lasting fun m m' => m'.Remembers m where
  refl _ _ _ := id
  trans first second := second.trans first
  changes := by
    intro m m' changes ref value forced
    cases changes with
    | other promises => exact (Machine.promise_congr promises ref).symm.trans forced
    | delay thunk =>
      simp only [Machine.promise, Array.getD_eq_getD_getElem?, Array.getElem?_push] at forced ⊢
      split at forced
      · cases forced
      · exact forced
    | capture | enter | leave => exact forced
  guarded result remembers := (remembers_guardedState _ result _).trans remembers

/-- A call that is over, before those on its way. -/
theorem cons {call : Call} (inside : Accounts m calls last) (ended : ∃ outcome, call.Ends outcome) :
    Accounts m (call :: calls) last where
  ended := List.forall_mem_cons.mpr ⟨ended, inside.ended⟩
  settled ref value forced := by
    refine (inside.settled ref value forced).imp_right fun ⟨call, member, settles⟩ => ?_
    exact ⟨call, List.mem_cons_of_mem _ member, settles⟩

variable {perform : (task : Task) -> Run task.Answer} {inside : Task -> Machine -> List Call}

/-- The calls of a plan account for values if those of its tasks do. -/
theorem plan (performs : ∀ task m result m', perform task m = some (result, m') ->
      Accounts m (inside task m) m') {α : Type} {plan : Plan α} (gradual : plan.Gradual)
    {m m' : Machine} {result : Except EvalError α} (ends : plan.run perform m = some (result, m')) :
    Accounts m (plan.calls perform inside m) m' := by
  induction plan generalizing m m' with
  | done value =>
    cases ends
    exact .idle (lasting.refl m)
  | step act next ih =>
    rcases bind_eq_some.mp ends with ⟨value, middle, ran, rest⟩ | ⟨error, last, ran, equal⟩
    · rw [Plan.calls, ran]
      exact (idle (gradual.1.along lasting ran)).append (ih value (gradual.2 value) rest)
    · cases equal
      rw [Plan.calls, ran]
      exact .idle (gradual.1.along lasting ran)
  | ask task next ih =>
    rcases bind_eq_some.mp ends with ⟨answer, middle, ran, rest⟩ | ⟨error, last, ran, equal⟩
    · rw [Plan.calls, ran]
      exact (performs task m _ _ ran).append (ih answer (gradual answer) rest)
    · cases equal
      rw [Plan.calls, ran, List.append_nil]
      exact performs task m _ _ ran
  | guarded inner next ihInner ih =>
    rcases bind_eq_some.mp ends with ⟨value, middle, ran, rest⟩ | ⟨error, last, ran, equal⟩
    · obtain ⟨last, within, rfl⟩ := guarded_eq_some.mp ran
      rw [Plan.calls, ran]
      exact ((ihInner gradual.1 within).ending (remembers_guardedState _ _ _)).append
        (ih value (gradual.2 value) rest)
    · cases equal
      obtain ⟨last, within, rfl⟩ := guarded_eq_some.mp ran
      rw [Plan.calls, ran, List.append_nil]
      exact (ihInner gradual.1 within).ending (remembers_guardedState _ _ _)
  | settle inner next ihInner ih =>
    obtain ⟨result', middle, ran, rest⟩ := settle_eq_some.mp ends
    rw [Plan.calls, ran]
    exact (ihInner gradual.1 ran).append (ih result' (gradual.2 result') rest)

/-- A force that runs a thunk accounts for the value that it gets. -/
theorem force_succ {n : Nat}
    (performs : ∀ (task : Task) m result m', task.run n m = some (result, m') ->
      Accounts m (task.calls n m) m') {m m' : Machine} {ref : Nat} {thunk : Thunk}
    {result : Except EvalError Value} (pending : m.promise ref = .pending thunk)
    (ends : (Task.force (.promise ref)).run (n + 1) m = some (result, m')) :
    Accounts m (Task.calls (n + 1) (.force (.promise ref)) m) m' := by
  have whole := ends
  rw [Task.run_succ, Plan.run_force pending] at ends
  rw [Task.calls, Plan.calls_force pending]
  cases ran : (Plan.computing thunk).run (Task.run n) (m.beginForce ref) with
  | none => simp [ran] at ends
  | some outcome =>
    obtain ⟨computed, last⟩ := outcome
    have inside := plan performs (Plan.computing_gradual thunk) ran
    obtain ⟨state, rfl⟩ : ∃ state, m' = last.withPromise ref state := by
      rw [ran] at ends
      cases computed <;> cases ends <;> exact ⟨_, rfl⟩
    refine ⟨List.forall_mem_cons.mpr ⟨⟨_, whole⟩, inside.ended⟩, fun other value forced => ?_⟩
    · by_cases same : other = ref
      · subst same
        refine .inr ⟨_, List.mem_cons_self, Call.settles?_eq_some.mpr ⟨rfl, ⟨thunk, pending⟩, ?_⟩⟩
        rw [Task.run_succ] at whole
        obtain ⟨-, -, -, -, settled⟩ := (Unfolding.tasks n).settles_force pending whole
        cases result with
        | ok value =>
          rw [← Task.run_succ] at whole
          exact ⟨value, _, whole⟩
        | error error => cases settled.symm.trans forced
      · rw [Machine.promise_withPromise_of_ne same] at forced
        rcases inside.settled other value forced with before | ⟨call, member, settles⟩
        · exact .inl ((Machine.promise_beginForce_of_ne same).symm.trans before)
        · exact .inr ⟨call, List.mem_cons_of_mem _ member, settles⟩

/-- Every task that ends accounts for the values that promises got. -/
theorem tasks (n : Nat) (task : Task) (m : Machine) (result : Except EvalError task.Answer)
    (m' : Machine) (ends : task.run n m = some (result, m')) : Accounts m (task.calls n m) m' := by
  induction n generalizing task m m' with
  | zero => cases task <;> cases ends
  | succ n ih =>
    by_cases forces : ∃ ref, task = .force (.promise ref)
    · obtain ⟨ref, rfl⟩ := forces
      by_cases waits : ∃ thunk, m.promise ref = .pending thunk
      · obtain ⟨thunk, pending⟩ := waits
        exact force_succ ih pending ends
      · have idle : ∀ thunk, m.promise ref ≠ .pending thunk := fun thunk pending =>
          waits ⟨thunk, pending⟩
        obtain rfl : m' = m := by
          cases state : m.promise ref with
          | pending thunk => exact absurd state (idle thunk)
          | forcing => cases (force_forcing state).symm.trans ends; rfl
          | forced value => cases (force_forced state).symm.trans ends; rfl
        rw [Task.calls_idle idle]
        exact (Accounts.idle (lasting.refl m')).cons ⟨_, ends⟩
    · have gradual := Task.plan_gradual fun ref same => forces ⟨ref, same⟩
      exact (plan ih gradual (task.run_succ n ▸ ends)).cons ⟨_, ends⟩

end Accounts

/-- A promise that gets its value while a task is done has its thunk run once, if no run of it
fails. -/
theorem Task.runs_once {n ref : Nat} {task : Task} {m m' : Machine}
    {result : Except EvalError task.Answer} {value : Value}
    (ends : task.run n m = some (result, m')) (waits : m.promise ref ≠ .forced value)
    (forced : m'.promise ref = .forced value)
    (succeed : ∀ call ∈ task.calls n m, call.runs ref = true -> ∀ error, ¬ call.Fails error) :
    (task.calls n m).countP (Call.runs ref) = 1 := by
  have accounts := Accounts.tasks n task m result m' ends
  have once : ((task.calls n m).filterMap Call.settles?).Nodup :=
    ((Unfolding.tasks n).unfolds task m).once
  have same : (task.calls n m).countP (Call.runs ref) =
      (task.calls n m).countP fun call => call.settles? == some ref := by
    refine List.countP_congr fun call member => ?_
    rw [beq_iff_eq, Call.settles?_eq_some_iff]
    refine ⟨fun runs => ⟨runs, ?_⟩, And.left⟩
    obtain ⟨task, -⟩ := Call.runs_eq_true.mp runs
    obtain ⟨⟨result, last⟩, ended⟩ := accounts.ended call member
    have succeeds := succeed call member runs
    obtain ⟨fuel, _, machine⟩ := call
    cases task
    cases result with
    | ok value => exact ⟨value, last, ended⟩
    | error error => exact absurd ⟨last, ended⟩ (succeeds error)
  rw [same, ← List.count_filterMap]
  rcases accounts.settled ref value forced with before | ⟨call, member, settles⟩
  · exact absurd before waits
  · exact List.count_eq_one_of_mem once (List.mem_filterMap.mpr ⟨call, member, settles⟩)

end Settlements

end Trampoline
