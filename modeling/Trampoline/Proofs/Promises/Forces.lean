import Trampoline.Proofs.Promises.States

/-!
# Forces in the order of time

What has been evaluated so far is a list of calls. A force that succeeds comes after all calls of
its thunk and before everything that finds the promise with its value. So in such a list no promise
is forced from waiting to its value twice.
-/

namespace Trampoline

open Exec

namespace Call

/-- The promise that waits when the call begins, and has its value when the call is over. -/
def settles? : Call -> Option Nat
  | ⟨n, .force (.promise ref), m⟩ =>
    match m.promise ref, Trampoline.force n (.promise ref) m with
    | .pending _, some (.ok _, _) => some ref
    | _, _ => none
  | _ => none

/-- The promise whose thunk the call runs until it has a value, which may be a promise to be forced
in turn. -/
def completes? : Call -> Option Nat
  | ⟨n + 1, .force (.promise ref), m⟩ =>
    match m.promise ref with
    | .pending thunk =>
      match Trampoline.runThunk n thunk (m.beginForce ref) with
      | some (.ok _, _) => some ref
      | _ => none
    | _ => none
  | _ => none

/-- A later call remembers the values of promises and never finds a promise waiting that the earlier
one was to settle. -/
structure Precedes (call later : Call) : Prop where
  remembers : call.machine.Remembers later.machine
  settles : ∀ ref, call.settles? = some ref -> ∀ thunk, later.machine.promise ref ≠ .pending thunk

/-- Later the values of promises are remembered, among them the one that the call was to settle. -/
structure Leaves (call : Call) (later : Machine) : Prop where
  remembers : call.machine.Remembers later
  settles : ∀ ref, call.settles? = some ref -> ∃ value, later.promise ref = .forced value

/-- A call settles a promise if it forces one that waits and comes to a value. -/
theorem settles?_eq_some {call : Call} {ref : Nat} : call.settles? = some ref ↔
    call.task = .force (.promise ref) ∧ (∃ thunk, call.machine.promise ref = .pending thunk) ∧
      ∃ value last, Trampoline.force call.fuel (.promise ref) call.machine =
        some (.ok value, last) := by
  unfold settles?
  split
  · split
    · rename_i n other m _ thunk value last pending ends
      simp only [Option.some.injEq, Task.force.injEq, Value.promise.injEq]
      constructor
      · rintro rfl
        exact ⟨rfl, ⟨thunk, pending⟩, value, last, ends⟩
      · exact fun known => known.1
    · rename_i n other m fails
      simp only [reduceCtorEq, Task.force.injEq, Value.promise.injEq, false_iff, not_and]
      rintro rfl ⟨thunk, pending⟩ ⟨value, last, ends⟩
      exact fails thunk value last pending ends
  · rename_i different
    simp only [reduceCtorEq, false_iff, not_and]
    intro task
    obtain ⟨n, other, m⟩ := call
    exact absurd (congrArg (Call.mk n · m) task) (different n ref m)

end Call

/-- The calls were begun in this order from the machine on, and ended with the one there is now, if
they have ended. -/
structure Unfolds (m : Machine) (calls : List Call) (ended : Option Machine) : Prop where
  during : ∀ call ∈ calls, m.Sustains call.machine
  order : calls.Pairwise Call.Precedes
  after : ∀ last, ended = some last -> m.Settles last ∧ ∀ call ∈ calls, call.Leaves last

namespace Unfolds

variable {m middle last : Machine} {calls more : List Call} {ended : Option Machine}

theorem unfinished (m : Machine) : Unfolds m [] none where
  during _ member := absurd member List.not_mem_nil
  order := .nil
  after := nofun

/-- Without calls it is enough that promises are settled. -/
theorem settled (settles : m.Settles last) : Unfolds m [] (some last) where
  during _ member := absurd member List.not_mem_nil
  order := .nil
  after := by
    rintro _ ⟨⟩
    exact ⟨settles, fun _ member => absurd member List.not_mem_nil⟩

theorem append (first : Unfolds m calls (some middle)) (second : Unfolds middle more ended) :
    Unfolds m (calls ++ more) ended where
  during call member := by
    obtain ⟨settles, -⟩ := first.after middle rfl
    rcases List.mem_append.mp member with member | member
    · exact first.during call member
    · exact settles.sustains.trans (second.during call member)
  order := by
    refine List.pairwise_append.mpr ⟨first.order, second.order, fun call member later inside => ?_⟩
    have leaves := (first.after middle rfl).2 call member
    have sustains := second.during later inside
    refine ⟨leaves.remembers.trans sustains.remembers, fun ref settles thunk pending => ?_⟩
    obtain ⟨value, forced⟩ := leaves.settles ref settles
    cases (sustains.forced ref value forced).symm.trans pending
  after last ends := by
    obtain ⟨settles, leave⟩ := first.after middle rfl
    obtain ⟨settles', leave'⟩ := second.after last ends
    have remembers := settles'.sustains.remembers
    refine ⟨settles.trans settles', fun call member => ?_⟩
    rcases List.mem_append.mp member with member | member
    · refine ⟨(leave call member).remembers.trans remembers, fun ref settled => ?_⟩
      obtain ⟨value, forced⟩ := (leave call member).settles ref settled
      exact ⟨value, remembers ref value forced⟩
    · exact leave' call member

/-- What has begun without an end yet. -/
theorem cut (unfolds : Unfolds m calls ended) : Unfolds m calls none where
  during := unfolds.during
  order := unfolds.order
  after := nofun

theorem step (settles : m.Settles middle) (rest : Unfolds middle calls ended) :
    Unfolds m calls ended :=
  (settled settles).append rest

theorem ending (unfolds : Unfolds m calls (some middle)) (settles : middle.Settles last) :
    Unfolds m calls (some last) :=
  calls.append_nil ▸ unfolds.append (settled settles)

/-- A call that settles nothing before those on its way. -/
theorem cons {n : Nat} {task : Task} (unfolds : Unfolds m calls ended)
    (settles : Call.settles? ⟨n, task, m⟩ = none) : Unfolds m (⟨n, task, m⟩ :: calls) ended where
  during later member := by
    rcases List.mem_cons.mp member with rfl | member
    · exact (Machine.Settles.refl _).sustains
    · exact unfolds.during later member
  order := by
    refine List.pairwise_cons.mpr ⟨fun later member => ?_, unfolds.order⟩
    refine ⟨(unfolds.during later member).remembers, fun ref settled => ?_⟩
    cases settles.symm.trans settled
  after last ends := by
    obtain ⟨leads, leave⟩ := unfolds.after last ends
    refine ⟨leads, fun later member => ?_⟩
    rcases List.mem_cons.mp member with rfl | member
    · refine ⟨leads.sustains.remembers, fun ref settled => ?_⟩
      cases settles.symm.trans settled
    · exact leave later member

end Unfolds

/-! ## Plans -/

section Plans

variable {perform : (task : Task) -> Run task.Answer} {inside : Task -> Machine -> List Call}

/-- The machine that a computation ends with, if it ends. -/
def Exec.ended {α : Type} (run : Run α) (m : Machine) : Option Machine := (run m).map Prod.snd

/-- A computation of two parts ends with the second, or with an error of the first. -/
theorem Exec.ended_bind {α β : Type} (first : Run α) (next : α -> Run β) (m : Machine) :
    ended (first >>= next) m =
      match first m with
      | none => none
      | some (.error _, m) => some m
      | some (.ok value, m) => ended (next value) m := by
  show (Exec.bind first next m).map Prod.snd = _
  unfold Exec.bind
  rcases first m with _ | ⟨_ | _, _⟩ <;> rfl

/-- A computation that settles a result ends with what is done about it. -/
theorem Exec.ended_settle {α β : Type} (first : Run α) (next : Except EvalError α -> Run β)
    (m : Machine) : ended (Exec.settle first next) m =
      match first m with
      | none => none
      | some (result, m) => ended (next result) m := by
  simp only [ended, Exec.settle]
  rcases first m with _ | ⟨result, middle⟩ <;> rfl

/-- The calls of tasks unfold, and forces answer no promises. -/
structure Unfolding (perform : (task : Task) -> Run task.Answer)
    (inside : Task -> Machine -> List Call) : Prop where
  unfolds : ∀ task m, Unfolds m (inside task m) (ended (perform task) m)
  resolves : ∀ value m forced m', m.Resolved ->
    perform (.force value) m = some (.ok forced, m') -> forced.isPromise = false

namespace Unfolding

/-- Tasks whose calls unfold settle promises. -/
theorem settles (unfolding : Unfolding perform inside) (task : Task) (m : Machine)
    (result : Except EvalError task.Answer) (m' : Machine)
    (ends : perform task m = some (result, m')) : m.Settles m' := by
  have last : ended (perform task) m = some m' := by
    rw [ended, ends]
    rfl
  exact ((unfolding.unfolds task m).after m' last).1

/-- The calls of a plan unfold if those of its tasks do. -/
theorem plan (unfolding : Unfolding perform inside) {α : Type} {plan : Plan α}
    (gradual : plan.Gradual) (m : Machine) :
    Unfolds m (plan.calls perform inside m) (ended (plan.run perform) m) := by
  have lasting := Machine.Settles.lasting
  induction plan generalizing m with
  | done value => exact .settled (.refl m)
  | step act next ih =>
    simp only [Plan.calls, Plan.run, ended_bind]
    cases ran : act m with
    | none => exact .unfinished m
    | some outcome =>
      obtain ⟨result, middle⟩ := outcome
      have settles : m.Settles middle := gradual.1.along lasting ran
      cases result with
      | error error => exact .settled settles
      | ok value => exact .step settles (ih value (gradual.2 value) middle)
  | ask task next ih =>
    simp only [Plan.calls, Plan.run, ended_bind]
    have unfolds := unfolding.unfolds task m
    rw [ended] at unfolds
    cases ran : perform task m with
    | none =>
      rw [ran] at unfolds
      exact (List.append_nil _).symm ▸ unfolds
    | some outcome =>
      rw [ran] at unfolds
      obtain ⟨result, middle⟩ := outcome
      cases result with
      | error error => exact (List.append_nil _).symm ▸ unfolds
      | ok answer => exact unfolds.append (ih answer (gradual answer) middle)
  | guarded inner next ihInner ih =>
    simp only [Plan.calls, Plan.run, ended_bind]
    have unfolds := ihInner gradual.1 m
    rw [ended] at unfolds
    cases ran : (inner.run perform).guarded m with
    | none => exact (List.append_nil _).symm ▸ unfolds.cut
    | some outcome =>
      obtain ⟨result, middle⟩ := outcome
      obtain ⟨last, within, rfl⟩ := guarded_eq_some.mp ran
      rw [within] at unfolds
      have whole := unfolds.ending (.guardedState m.stack.size result last)
      cases result with
      | error error => exact (List.append_nil _).symm ▸ whole
      | ok value => exact whole.append (ih value (gradual.2 value) _)
  | settle inner next ihInner ih =>
    have unfolds := ihInner gradual.1 m
    rw [ended] at unfolds
    rw [Plan.run_settle, ended_settle, Plan.calls]
    cases ran : inner.run perform m with
    | none =>
      rw [ran] at unfolds
      exact (List.append_nil _).symm ▸ unfolds
    | some outcome =>
      rw [ran] at unfolds
      obtain ⟨result, middle⟩ := outcome
      exact unfolds.append (ih result (gradual.2 result) middle)

end Unfolding

/-- How the value of a thunk is computed once its force has begun. -/
def Plan.computing (thunk : Thunk) : Plan Value :=
  ask (.runThunk thunk) fun value => sub (.force value)

/-- What a force does with what it has computed. -/
def Plan.finishing (ref : Nat) (thunk : Thunk) : Except EvalError Value -> Plan Value
  | .ok value => step (Run.setPromise ref (.forced value)) fun _ => done value
  | .error error => step (Run.setPromise ref (.pending thunk)) fun _ => lift (Exec.fail error)

/-- What a force does once it has read the state of the promise. -/
def Plan.forcing (ref : Nat) : Promise -> Plan Value
  | .forced value => done value
  | .forcing => lift (Exec.fail .recursiveForce)
  | .pending thunk =>
    settle (step (Run.setPromise ref .forcing) fun _ => step (Run.tell .forcing) fun _ =>
      computing thunk) (finishing ref thunk)

/-- A force reads the state of the promise first. -/
theorem Plan.force_eq (ref : Nat) :
    (Task.force (.promise ref)).plan = step (read (·.promise ref)) (forcing ref) := by
  have reads : (Task.force (.promise ref)).plan = step (read (·.promise ref)) _ := rfl
  refine reads.trans (congrArg _ (funext fun state => ?_))
  cases state with
  | pending thunk =>
    refine congrArg (settle _) (funext fun result => ?_)
    cases result <;> rfl
  | _ => rfl

theorem Plan.computing_gradual (thunk : Thunk) : (computing thunk).Gradual :=
  fun _ _ => trivial

theorem Plan.calls_finishing (ref : Nat) (thunk : Thunk) (result : Except EvalError Value)
    (m : Machine) : (finishing ref thunk result).calls perform inside m = [] := by
  cases result <;> rfl

section Pending

variable {m : Machine} {ref : Nat} {thunk : Thunk} (pending : m.promise ref = .pending thunk)
include pending

/-- The calls of a force are those that compute the value. -/
theorem Plan.calls_force : (Task.force (.promise ref)).plan.calls perform inside m =
    (computing thunk).calls perform inside (m.beginForce ref) := by
  rw [force_eq]
  change (forcing ref (m.promise ref)).calls perform inside m = _
  rw [pending, forcing]
  have begins : Plan.calls perform inside (step (Run.setPromise ref .forcing) fun _ =>
      step (Run.tell .forcing) fun _ => computing thunk) m =
        (computing thunk).calls perform inside (m.beginForce ref) := rfl
  rw [calls, begins]
  split
  · rw [calls_finishing, List.append_nil]
  · exact List.append_nil _

/-- A force marks its promise, computes the value, and stores it or puts the thunk back. -/
theorem Plan.run_force : (Task.force (.promise ref)).plan.run perform m =
    match (computing thunk).run perform (m.beginForce ref) with
    | none => none
    | some (.ok value, last) => some (.ok value, last.withPromise ref (.forced value))
    | some (.error error, last) => some (.error error, last.withPromise ref (.pending thunk)) := by
  rw [force_eq]
  change (forcing ref (m.promise ref)).run perform m = _
  rw [pending, forcing]
  have begins : Plan.run perform (step (Run.setPromise ref .forcing) fun _ =>
      step (Run.tell .forcing) fun _ => computing thunk) m =
        (computing thunk).run perform (m.beginForce ref) := rfl
  rw [run_settle, Exec.settle, begins]
  rcases (computing thunk).run perform (m.beginForce ref) with _ | ⟨_ | value, last⟩ <;> rfl

end Pending

namespace Unfolding

variable (unfolding : Unfolding perform inside)
include unfolding

/-- What a thunk is computed to is no promise. -/
theorem computed {m last : Machine} {thunk : Thunk} {value : Value} (resolved : m.Resolved)
    (ends : (Plan.computing thunk).run perform m = some (.ok value, last)) :
    value.isPromise = false := by
  obtain ⟨first, middle, ran, rest⟩ := bind_eq_ok.mp ends
  obtain ⟨forced, _, forces, ⟨⟩⟩ := bind_eq_ok.mp rest
  exact unfolding.resolves first middle value last
    ((unfolding.settles _ _ _ _ ran).resolved resolved) forces

/-- A force that ends leaves its promise with the value, or pending as before. -/
theorem settles_force {m m' : Machine} {ref : Nat} {thunk : Thunk} {result : Except EvalError Value}
    (pending : m.promise ref = .pending thunk)
    (ends : (Task.force (.promise ref)).plan.run perform m = some (result, m')) :
    ∃ last, (Plan.computing thunk).run perform (m.beginForce ref) = some (result, last) ∧
      m.Settles m' ∧ last.Remembers m' ∧ match result with
        | .ok value => m'.promise ref = .forced value
        | .error _ => m'.promise ref = .pending thunk := by
  have lasting := Machine.Settles.lasting
  rw [Plan.run_force pending] at ends
  cases ran : (Plan.computing thunk).run perform (m.beginForce ref) with
  | none => simp [ran] at ends
  | some outcome =>
    obtain ⟨computed, last⟩ := outcome
    have settles : (m.beginForce ref).Settles last :=
      (Plan.computing_gradual thunk).along lasting unfolding.settles ran
    have inside : ref < last.promises.size := by
      refine Nat.lt_of_lt_of_le (Machine.inside_of_pending pending) ?_
      simpa [Machine.beginForce] using settles.size
    rw [ran] at ends
    cases computed with
    | error error =>
      obtain ⟨rfl, rfl⟩ := Prod.mk.inj (Option.some.inj ends)
      exact ⟨last, rfl, settles.endForce pending (.same _) (by rintro - _ ⟨⟩),
        settles.remembers_endForce pending, Machine.promise_withPromise inside⟩
    | ok value =>
      obtain ⟨rfl, rfl⟩ := Prod.mk.inj (Option.some.inj ends)
      refine ⟨last, rfl, settles.endForce pending (.settled thunk value) ?_,
        settles.remembers_endForce pending, Machine.promise_withPromise inside⟩
      rintro resolved _ ⟨⟩
      exact unfolding.computed ((Machine.sustains_beginForce pending).resolved resolved) ran

end Unfolding

end Plans

/-! ## Tasks -/

section Idle

variable {n : Nat} {m : Machine} {ref : Nat} {value : Value}

/-- A promise with its value answers it. -/
theorem force_forced (forced : m.promise ref = .forced value) :
    Trampoline.force (n + 1) (.promise ref) m = some (.ok value, m) := by
  rw [Grows.force_promise]
  simp [forced]

/-- A promise that is being forced can not be forced again. -/
theorem force_forcing (forcing : m.promise ref = .forcing) :
    Trampoline.force (n + 1) (.promise ref) m = some (.error .recursiveForce, m) := by
  rw [Grows.force_promise]
  simp [forcing]

/-- The force of a promise that does not wait makes no calls. -/
theorem Task.calls_idle (idle : ∀ thunk, m.promise ref ≠ .pending thunk) :
    Task.calls (n + 1) (.force (.promise ref)) m = [⟨n + 1, .force (.promise ref), m⟩] := by
  rw [Task.calls, Plan.force_eq]
  change _ :: (Plan.forcing ref (m.promise ref)).calls _ _ m = _
  cases state : m.promise ref with
  | pending thunk => exact absurd state (idle thunk)
  | _ => rfl

end Idle

theorem Unfolding.zero : Unfolding (Task.run 0) (Task.calls 0) where
  unfolds task m := by
    have nothing : ended (task.run 0) m = none := by cases task <;> rfl
    rw [nothing]
    refine Unfolds.cons (.unfinished m) ?_
    rw [Option.eq_none_iff_forall_ne_some]
    intro ref settles
    obtain ⟨-, -, value, last, ends⟩ := Call.settles?_eq_some.mp settles
    cases ends
  resolves := nofun

section Fuel

variable {n : Nat} (unfolding : Unfolding (Task.run n) (Task.calls n))
include unfolding

/-- A force of a waiting promise settles it, if it succeeds; meanwhile it does not wait. -/
theorem Unfolding.force_succ {m : Machine} {ref : Nat} {thunk : Thunk}
    (pending : m.promise ref = .pending thunk) :
    Unfolds m (Task.calls (n + 1) (.force (.promise ref)) m)
      (ended ((Task.force (.promise ref)).run (n + 1)) m) := by
  have unfolds := unfolding.plan (Plan.computing_gradual thunk) (m.beginForce ref)
  have sustains := Machine.sustains_beginForce pending
  have known : ref < (m.beginForce ref).promises.size := by
    simpa [Machine.beginForce] using Machine.inside_of_pending pending
  rw [Task.calls, Plan.calls_force pending, Task.run_succ]
  refine ⟨fun call member => ?_, List.pairwise_cons.mpr ⟨fun call member => ?_, unfolds.order⟩, ?_⟩
  · rcases List.mem_cons.mp member with rfl | member
    · exact (Machine.Settles.refl _).sustains
    · exact sustains.trans (unfolds.during call member)
  · have later := unfolds.during call member
    refine ⟨(sustains.trans later).remembers, fun other settles thunk' waits => ?_⟩
    obtain ⟨task, -⟩ := Call.settles?_eq_some.mp settles
    cases task
    have still := later.forcing ref known (Machine.promise_beginForce pending)
    cases still.symm.trans waits
  · intro m' ends
    obtain ⟨⟨result, _⟩, ran, rfl⟩ := Option.map_eq_some_iff.mp ends
    obtain ⟨last, computes, settles, remembers, forced⟩ := unfolding.settles_force pending ran
    have leave := (unfolds.after last (by rw [ended, computes]; rfl)).2
    refine ⟨settles, fun call member => ?_⟩
    rcases List.mem_cons.mp member with rfl | member
    · refine ⟨settles.sustains.remembers, fun other settled => ?_⟩
      obtain ⟨task, -, value, final, succeeds⟩ := Call.settles?_eq_some.mp settled
      cases task
      change (Task.force (.promise ref)).run (n + 1) m = _ at succeeds
      rw [Task.run_succ] at succeeds
      cases ran.symm.trans succeeds
      exact ⟨value, forced⟩
    · refine ⟨(leave call member).remembers.trans remembers, fun other settled => ?_⟩
      obtain ⟨value, was⟩ := (leave call member).settles other settled
      exact ⟨value, remembers other value was⟩

theorem Unfolding.succ : Unfolding (Task.run (n + 1)) (Task.calls (n + 1)) where
  unfolds task m := by
    have plain (gradual : task.plan.Gradual)
        (settles : Call.settles? ⟨n + 1, task, m⟩ = none) :
        Unfolds m (Task.calls (n + 1) task m) (ended (task.run (n + 1)) m) := by
      rw [Task.calls, Task.run_succ]
      exact Unfolds.cons (unfolding.plan gradual m) settles
    by_cases forces : ∃ ref, task = .force (.promise ref)
    · obtain ⟨ref, rfl⟩ := forces
      cases state : m.promise ref with
      | pending thunk => exact unfolding.force_succ state
      | forcing =>
        have idle : ∀ thunk, m.promise ref ≠ .pending thunk := by simp [state]
        have ends : ended ((Task.force (.promise ref)).run (n + 1)) m = some m := by
          rw [ended, Task.run, force_forcing state]
          rfl
        rw [Task.calls_idle idle, ends]
        exact Unfolds.cons (.settled (.refl m)) (by simp [Call.settles?, state])
      | forced value =>
        have idle : ∀ thunk, m.promise ref ≠ .pending thunk := by simp [state]
        have ends : ended ((Task.force (.promise ref)).run (n + 1)) m = some m := by
          rw [ended, Task.run, force_forced state]
          rfl
        rw [Task.calls_idle idle, ends]
        exact Unfolds.cons (.settled (.refl m)) (by simp [Call.settles?, state])
    · refine plain (Task.plan_gradual fun ref same => forces ⟨ref, same⟩) ?_
      rw [Option.eq_none_iff_forall_ne_some]
      intro ref settles
      exact forces ⟨ref, (Call.settles?_eq_some.mp settles).1⟩
  resolves value m forced m' resolved ends := by
    cases value with
    | promise ref =>
      cases state : m.promise ref with
      | pending thunk =>
        rw [Task.run_succ] at ends
        obtain ⟨last, computes, -⟩ := unfolding.settles_force state ends
        exact unfolding.computed ((Machine.sustains_beginForce state).resolved resolved) computes
      | forcing => cases (force_forcing state).symm.trans ends
      | forced =>
        cases (force_forced state).symm.trans ends
        exact resolved ref _ state
    | _ =>
      cases ends
      rfl

end Fuel

end Trampoline
