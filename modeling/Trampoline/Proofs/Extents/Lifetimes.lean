import Trampoline.Proofs.Escapes.Arrival
import Trampoline.Proofs.Extents.Failures
import Trampoline.Proofs.Promises.Sessions

/-!
# How long continuations live

A session in the order of time: calls begin, and guarded operations come to their ends. Whether a
continuation can be resumed is decided once for all by the first guarded operation around its
capture to be left. If that was inside of the call that captured, and ended well, then no error
afterwards makes a difference. But what the first activation of a call captures, before its
trampoline has begun, is within the guarded operation around the call, whose failure invalidates it
although the call has returned.
-/

namespace Trampoline

open Exec

/-! ## Moments -/

/-- What happens on the way of an evaluation. -/
inductive Moment where
  | begun (call : Call)
  | left (guard : Guard)

namespace Moment

/-- The guarded operation that is left. -/
def guard? : Moment -> Option Guard
  | begun _ => none
  | left guard => some guard

/-- The guarded operations that are left, in the order of their ends. -/
def guards (moments : List Moment) : List Guard := moments.filterMap guard?

@[simp] theorem guards_nil : guards [] = [] := rfl

@[simp] theorem guards_append (moments more : List Moment) :
    guards (moments ++ more) = guards moments ++ guards more :=
  List.filterMap_append

@[simp] theorem guards_begun (call : Call) (moments : List Moment) :
    guards (.begun call :: moments) = guards moments := rfl

@[simp] theorem guards_left (guard : Guard) (moments : List Moment) :
    guards (.left guard :: moments) = guard :: guards moments := rfl

end Moment

/-- What happens on the way of a plan; `inside` is what happens on that of a task, which begins with
itself. -/
def Plan.timeline {α : Type} (perform : (task : Task) -> Run task.Answer)
    (inside : Task -> Machine -> List Moment) : Plan α -> Machine -> List Moment
  | done _, _ => []
  | step run next, m =>
    match run m with
    | some (.ok value, m) => (next value).timeline perform inside m
    | _ => []
  | ask task next, m => inside task m ++
    match perform task m with
    | some (.ok answer, m) => (next answer).timeline perform inside m
    | _ => []
  | guarded inner next, m => inner.timeline perform inside m ++
    match inner.run perform m with
    | none => []
    | some (result, last) => .left (.ofEnd m result last) ::
      match result with
      | .ok value =>
        (next value).timeline perform inside (guardedState m.stack.size (result, last))
      | .error _ => []
  | settle inner next, m => inner.timeline perform inside m ++
    match inner.run perform m with
    | some (result, m) => (next result).timeline perform inside m
    | none => []

/-- What happens on the way of a task. -/
def Task.timeline : Nat -> Task -> Machine -> List Moment
  | 0, task, m => [.begun ⟨0, task, m⟩]
  | n + 1, task, m =>
    .begun ⟨n + 1, task, m⟩ :: task.plan.timeline (Task.run n) (Task.timeline n) m

/-- What happens on the way of a call. -/
def Call.timeline (call : Call) : List Moment := call.task.timeline call.fuel call.machine

/-- What happens in a session from a machine on, with an amount of fuel for each operation. -/
def timeline (n : Nat) (operations : List Operation) (m : Machine) : List Moment :=
  (Plan.session operations).timeline (Task.run n) (Task.timeline n) m

/-! ## What becomes of extents in time -/

/-- First all that happens on the way of the call, and then what finds at least the extents that
there were when the call ended. -/
def Call.Leads (call : Call) (moments : List Moment) (ended : Option Machine) : Prop :=
  ∃ since, moments = call.timeline ++ since ∧ ∀ result last, call.Ends (result, last) ->
    (∀ later, .begun later ∈ since -> last.extents.size ≤ later.machine.extents.size) ∧
      ∀ m', ended = some m' -> last.extents.size ≤ m'.extents.size

/-- Whenever a call begins, and when all is over, extents are as the guarded operations that were
left by then have made them. -/
structure Proceeds (m : Machine) (moments : List Moment) (ended : Option Machine) : Prop where
  during : ∀ since later rest, moments = since ++ .begun later :: rest ->
    m.Disposes (Moment.guards since) later.machine
  order : ∀ since call rest, moments = since ++ .begun call :: rest ->
    call.Leads (.begun call :: rest) ended
  after : ∀ last, ended = some last -> m.Disposes (Moment.guards moments) last

namespace Proceeds

variable {m middle last : Machine} {moments more : List Moment} {ended : Option Machine}

/-- Before anything has begun there is nothing to tell. -/
theorem unfinished (m : Machine) : Proceeds m [] none where
  during since later rest passed := by simp at passed
  order since call rest passed := by simp at passed
  after := nofun

/-- An end without a guarded operation in between. -/
theorem disposed (disposes : m.Disposes [] last) : Proceeds m [] (some last) where
  during since later rest passed := by simp at passed
  order since call rest passed := by simp at passed
  after := by
    rintro _ ⟨⟩
    exact disposes

/-- All calls find at least the extents that there were in the beginning. -/
theorem size (proceeds : Proceeds m moments ended) {later : Call}
    (member : .begun later ∈ moments) : m.extents.size ≤ later.machine.extents.size := by
  obtain ⟨since, rest, passed⟩ := List.append_of_mem member
  exact (proceeds.during since later rest passed).size

/-- A call is among the moments before some point or among those after it. -/
theorem split_begun {call : Call} {since rest : List Moment}
    (passed : moments ++ more = since ++ .begun call :: rest) :
    (∃ between, moments = since ++ .begun call :: between ∧ rest = between ++ more) ∨
      ∃ between, since = moments ++ between ∧ more = between ++ .begun call :: rest := by
  rcases List.append_eq_append_iff.mp passed with ⟨between, rfl, split⟩ | ⟨between, rfl, split⟩
  · exact .inr ⟨between, rfl, split⟩
  · rcases List.cons_eq_append_iff.mp split with ⟨rfl, rfl⟩ | ⟨between, rfl, rfl⟩
    · exact .inr ⟨[], by simp, rfl⟩
    · exact .inl ⟨between, rfl, rfl⟩

theorem append (first : Proceeds m moments (some middle)) (second : Proceeds middle more ended) :
    Proceeds m (moments ++ more) ended where
  during since later rest passed := by
    rcases split_begun passed with ⟨between, split, -⟩ | ⟨between, rfl, split⟩
    · exact first.during since later between split
    · rw [Moment.guards_append]
      exact (first.after middle rfl).trans (second.during between later rest split)
  order since call rest passed := by
    rcases split_begun passed with ⟨between, split, rfl⟩ | ⟨between, rfl, split⟩
    · obtain ⟨further, own, finds⟩ := first.order since call between split
      refine ⟨further ++ more, by rw [← List.cons_append, own, List.append_assoc], ?_⟩
      intro result last ends
      obtain ⟨found, left⟩ := finds result last ends
      have grown := left middle rfl
      refine ⟨fun later member => ?_, fun m' ended => ?_⟩
      · rcases List.mem_append.mp member with member | member
        · exact found later member
        · exact Nat.le_trans grown (second.size member)
      · exact Nat.le_trans grown (second.after m' ended).size
    · exact second.order between call rest split
  after last ends := by
    rw [Moment.guards_append]
    exact (first.after middle rfl).trans (second.after last ends)

theorem step (disposes : m.Disposes [] middle) (rest : Proceeds middle moments ended) :
    Proceeds m moments ended :=
  (disposed disposes).append rest

theorem ending (proceeds : Proceeds m moments (some middle)) (disposes : middle.Disposes [] last) :
    Proceeds m moments (some last) :=
  moments.append_nil ▸ proceeds.append (disposed disposes)

/-- A call and what happens on its way. -/
theorem cons (call : Call) (proceeds : Proceeds call.machine moments ended)
    (own : call.timeline = .begun call :: moments)
    (ends : Exec.ended (call.task.run call.fuel) call.machine = ended) :
    Proceeds call.machine (.begun call :: moments) ended where
  during since later rest passed := by
    rcases List.cons_eq_append_iff.mp passed with ⟨rfl, split⟩ | ⟨since, rfl, split⟩
    · cases split
      exact .refl _
    · exact proceeds.during since later rest split
  order since other rest passed := by
    rcases List.cons_eq_append_iff.mp passed with ⟨rfl, split⟩ | ⟨since, rfl, split⟩
    · cases split
      refine ⟨[], by rw [own, List.append_nil], fun result last ended => ⟨by simp, ?_⟩⟩
      intro m' found
      rw [← ends, Exec.ended, show call.task.run call.fuel call.machine = _ from ended] at found
      cases found
      exact Nat.le_refl _
    · exact proceeds.order since other rest split
  after := proceeds.after

/-- A guarded operation that is left. -/
theorem guarded {α : Type} (proceeds : Proceeds m moments (some last))
    (result : Except EvalError α) : Proceeds m (moments ++ [.left (.ofEnd m result last)])
      (some (guardedState m.stack.size (result, last))) where
  during since later rest passed := by
    rcases split_begun passed with ⟨between, split, -⟩ | ⟨between, -, split⟩
    · exact proceeds.during since later between split
    · rcases List.cons_eq_append_iff.mp split with ⟨-, split⟩ | ⟨_, -, split⟩ <;> simp at split
  order since call rest passed := by
    rcases split_begun passed with ⟨between, split, rfl⟩ | ⟨between, -, split⟩
    · obtain ⟨further, own, finds⟩ := proceeds.order since call between split
      refine ⟨further ++ [_], by rw [← List.cons_append, own, List.append_assoc], ?_⟩
      intro result' last' ends
      obtain ⟨found, left⟩ := finds result' last' ends
      refine ⟨by simpa using found, ?_⟩
      rintro _ ⟨⟩
      rw [Machine.Disposes.size_guardedState]
      exact left last rfl
    · rcases List.cons_eq_append_iff.mp split with ⟨-, split⟩ | ⟨_, -, split⟩ <;> simp at split
  after := by
    rintro _ ⟨⟩
    rw [Moment.guards_append]
    exact (proceeds.after last rfl).guarded result

end Proceeds

/-! ## Plans and tasks -/

section Plans

variable {perform : (task : Task) -> Run task.Answer} {inside : Task -> Machine -> List Moment}

/-- A plan proceeds as its tasks do. -/
theorem Plan.Gradual.proceeds {α : Type} {plan : Plan α} (gradual : plan.Gradual)
    (performs : ∀ task m, Proceeds m (inside task m) (ended (perform task) m)) (m : Machine) :
    Proceeds m (plan.timeline perform inside m) (ended (plan.run perform) m) := by
  induction plan generalizing m with
  | done value => exact .disposed (.refl m)
  | step act next ih =>
    simp only [Plan.timeline, Plan.run, ended_bind]
    cases ran : act m with
    | none => exact .unfinished m
    | some outcome =>
      obtain ⟨result, middle⟩ := outcome
      have disposes := gradual.1.disposes ran
      cases result with
      | error error => exact .disposed disposes
      | ok value => exact .step disposes (ih value (gradual.2 value) middle)
  | ask task next ih =>
    simp only [Plan.timeline, Plan.run, ended_bind]
    have proceeds := performs task m
    rw [ended] at proceeds
    cases ran : perform task m with
    | none =>
      rw [ran] at proceeds
      exact (List.append_nil _).symm ▸ proceeds
    | some outcome =>
      rw [ran] at proceeds
      obtain ⟨result, middle⟩ := outcome
      cases result with
      | error error => exact (List.append_nil _).symm ▸ proceeds
      | ok answer => exact proceeds.append (ih answer (gradual answer) middle)
  | guarded inner next ihInner ih =>
    simp only [Plan.timeline, Plan.run, ended_bind, guarded_eq_around, around, id]
    have proceeds := ihInner gradual.1 m
    rw [ended] at proceeds
    cases ran : inner.run perform m with
    | none =>
      rw [ran] at proceeds
      exact (List.append_nil _).symm ▸ proceeds
    | some outcome =>
      rw [ran] at proceeds
      obtain ⟨result, last⟩ := outcome
      have whole := proceeds.guarded result
      cases result with
      | error error => exact whole
      | ok value =>
        have rest := ih value (gradual.2 value) (guardedState m.stack.size (.ok value, last))
        have both := whole.append rest
        rw [List.append_assoc] at both
        exact both
  | settle inner next ihInner ih =>
    have proceeds := ihInner gradual.1 m
    rw [ended] at proceeds
    rw [Plan.run_settle, ended_settle, Plan.timeline]
    cases ran : inner.run perform m with
    | none =>
      rw [ran] at proceeds
      exact (List.append_nil _).symm ▸ proceeds
    | some outcome =>
      rw [ran] at proceeds
      obtain ⟨result, middle⟩ := outcome
      exact proceeds.append (ih result (gradual.2 result) middle)

variable {m : Machine} {ref : Nat}

/-- A force takes the moments of its thunk. -/
theorem Plan.timeline_force {thunk : Thunk} (pending : m.promise ref = .pending thunk) :
    (Task.force (.promise ref)).plan.timeline perform inside m =
      (computing thunk).timeline perform inside (m.beginForce ref) := by
  rw [force_eq]
  change (forcing ref (m.promise ref)).timeline perform inside m = _
  rw [pending, forcing]
  have begins : Plan.timeline perform inside (step (Run.setPromise ref .forcing) fun _ =>
      step (Run.tell .forcing) fun _ => computing thunk) m =
        (computing thunk).timeline perform inside (m.beginForce ref) := rfl
  have finishes (result : Except EvalError Value) (m : Machine) :
      (finishing ref thunk result).timeline perform inside m = [] := by
    cases result <;> rfl
  rw [timeline, begins]
  split
  · rw [finishes, List.append_nil]
  · exact List.append_nil _

/-- Nothing happens on the way of the force of a promise that does not wait. -/
theorem Plan.timeline_idle (idle : ∀ thunk, m.promise ref ≠ .pending thunk) :
    (Task.force (.promise ref)).plan.timeline perform inside m = [] := by
  rw [force_eq]
  change (forcing ref (m.promise ref)).timeline perform inside m = []
  cases state : m.promise ref with
  | pending thunk => exact absurd state (idle thunk)
  | _ => rfl

/-- A force proceeds as its thunk does. -/
theorem Plan.proceeds_force
    (performs : ∀ task m, Proceeds m (inside task m) (ended (perform task) m)) (m : Machine)
    (ref : Nat) : Proceeds m ((Task.force (.promise ref)).plan.timeline perform inside m)
      (ended ((Task.force (.promise ref)).plan.run perform) m) := by
  by_cases waits : ∃ thunk, m.promise ref = .pending thunk
  · obtain ⟨thunk, pending⟩ := waits
    rw [timeline_force pending, ended, run_force pending]
    have begins : m.Disposes [] (m.beginForce ref) := .of_eq rfl rfl
    have computes := (computing_gradual thunk).proceeds performs (m.beginForce ref)
    rw [ended] at computes
    have proceeds := Proceeds.step begins computes
    cases ran : (computing thunk).run perform (m.beginForce ref) with
    | none =>
      rw [ran] at proceeds
      exact proceeds
    | some outcome =>
      rw [ran] at proceeds
      obtain ⟨_ | _, last⟩ := outcome <;> exact proceeds.ending (.of_eq rfl rfl)
  · have idle : ∀ thunk, m.promise ref ≠ .pending thunk := fun thunk state => waits ⟨thunk, state⟩
    rw [timeline_idle idle, ended]
    cases ran : (Task.force (.promise ref)).plan.run perform m with
    | none => exact .unfinished m
    | some outcome =>
      have same : m = outcome.2 := run_idle idle ran
      exact .disposed (.of_eq (by rw [← same]) (by rw [← same]))

end Plans

/-- Every task proceeds from one moment to the next. -/
theorem Task.proceeds (n : Nat) (task : Task) (m : Machine) :
    Proceeds m (task.timeline n m) (ended (task.run n) m) := by
  induction n generalizing task m with
  | zero =>
    have never : ended (task.run 0) m = none := by rw [ended, run_zero]; rfl
    rw [never]
    exact Proceeds.cons ⟨0, task, m⟩ (.unfinished m) rfl never
  | succ n ih =>
    rw [run_succ]
    have ends : ended (task.run (n + 1)) m = ended (task.plan.run (run n)) m := by rw [run_succ]
    by_cases forces : ∃ ref, task = .force (.promise ref)
    · obtain ⟨ref, rfl⟩ := forces
      exact Proceeds.cons ⟨n + 1, _, m⟩ (Plan.proceeds_force ih m ref) rfl ends
    · have gradual := plan_gradual fun ref same => forces ⟨ref, same⟩
      exact Proceeds.cons ⟨n + 1, task, m⟩ (gradual.proceeds ih m) rfl ends

theorem timeline_proceeds (n : Nat) (operations : List Operation) (m : Machine) :
    Proceeds m (timeline n operations m)
      (ended ((Plan.session operations).run (Task.run n)) m) :=
  (Plan.session_gradual operations).proceeds (Task.proceeds n) m

/-! ## Continuations in time -/

/-- The first guarded operation around the capture to be left. -/
def Guard.around? (guards : List Guard) (extent : Nat) : Option Guard :=
  guards.find? (·.captures extent)

/-- On the way of the call the guarded operation around the capture was left, and had not failed. -/
def Call.Releases (call : Call) (extent : Nat) : Prop :=
  ∃ guard, Guard.around? (Moment.guards call.timeline) extent = some guard ∧ guard.failed = false

/-- The guarded operation around the capture was left, and had failed. -/
def Moment.Spoil (moments : List Moment) (extent : Nat) : Prop :=
  ∃ guard, Guard.around? (guards moments) extent = some guard ∧ guard.failed = true

/-- What is done when a continuation is resumed: the rest of its body. -/
def resumption (n : Nat) (function : Function) (env : Env) (isLazy : Bool) (args : List Value)
    (kwargs : Kwargs) : Run Value := do
  noKwargs "continuation" kwargs
  match resumeValues function.signature.params.length args with
  | .error error => Exec.fail error
  | .ok values => do
    let scope ← bindValues function.signature.params values env
    Body.run (eval n function.body) ⟨scope, isLazy, none⟩

/-- Continuations of the extent can be resumed. -/
def Machine.Accepts (m : Machine) (extent : Nat) : Prop :=
  ∀ n ref function env isLazy args kwargs,
    Trampoline.apply (n + 1) (.continuation ref function env extent isLazy) args kwargs m =
      resumption n function env isLazy args kwargs m

variable {m : Machine} {extent n i j : Nat} {operations : List Operation} {since : List Moment}
  {call later : Call}

/-- A continuation whose extent is valid accepts calls. -/
theorem Machine.Accepts.of_valid (valid : m.valid extent = true) : m.Accepts extent := by
  intro n ref function env isLazy args kwargs
  rw [Trampoline.apply]
  show Exec.bind (Run.extentValid extent) _ m = _
  rw [Exec.bind]
  show (if !m.valid extent then Exec.fail .continuationInvalidated else _ : Run Value) m = _
  rw [valid]
  rfl

/-- The first moment of a call is its beginning. -/
theorem Call.timeline_eq (call : Call) : ∃ inside, call.timeline = .begun call :: inside := by
  obtain ⟨_ | n, task, m⟩ := call
  · exact ⟨[], rfl⟩
  · exact ⟨_, rfl⟩

/-- The first guarded operation to be left around a capture that a call made decides, from the end
of the call on, whether the extent is valid. -/
theorem timeline_valid {before rest : List Moment} {result : Except EvalError call.task.Answer}
    {last : Machine} (passed : timeline n operations m =
      before ++ (call.timeline ++ (since ++ .begun later :: rest)))
    (ends : call.Ends (result, last)) (captured : call.machine.Captures last extent) :
    later.machine.valid extent =
      !(Guard.around? (Moment.guards (call.timeline ++ since)) extent).any Guard.failed := by
  have proceeds := timeline_proceeds n operations m
  obtain ⟨inside, own⟩ := call.timeline_eq
  have start : m.Disposes (Moment.guards before) call.machine :=
    proceeds.during before call _ (by rw [passed, own, List.cons_append])
  have now : m.Disposes (Moment.guards (before ++ (call.timeline ++ since))) later.machine :=
    proceeds.during _ later rest (by rw [passed]; simp only [List.append_assoc])
  have grown : last.extents.size ≤ later.machine.extents.size := by
    obtain ⟨further, split, finds⟩ :=
      proceeds.order before call _ (by rw [passed, own, List.cons_append])
    rw [← List.cons_append, ← own] at split
    refine (finds result last ends).1 later ?_
    rw [← List.append_cancel_left split]
    simp
  -- what was left before the call began is around none of its captures
  have outside : (Moment.guards before).find? (·.captures extent) = none :=
    start.find_eq_none (.inr captured.1)
  rw [now.new extent (Nat.le_trans start.size captured.1) (Nat.lt_of_lt_of_le captured.2 grown),
    Moment.guards_append, List.find?_append, outside, Option.none_or]
  rfl

/-- A continuation whose capture was inside of a guarded operation of a call, such as its
trampoline, that ended well, can be resumed for ever after the call has ended, whatever fails then.
More generally it can be resumed as long as the first guarded operation around its capture to be
left has not failed, and no longer. -/
theorem Machine.continuations_live (m : Machine) (n : Nat) (operations : List Operation)
    (before since rest : List Moment) (call later : Call) (answer : call.task.Answer)
    (last : Machine) (extent : Nat)
    (passed : timeline n operations m =
      before ++ (call.timeline ++ (since ++ .begun later :: rest)))
    (returned : call.Ends (.ok answer, last)) (captured : call.machine.Captures last extent) :
    (call.Releases extent -> later.machine.Accepts extent) ∧
      (¬Moment.Spoil (call.timeline ++ since) extent -> later.machine.Accepts extent) ∧
      (Moment.Spoil (call.timeline ++ since) extent -> later.machine.Refuses extent) := by
  have valid := timeline_valid passed returned captured
  have lives (sound : ¬Moment.Spoil (call.timeline ++ since) extent) :
      later.machine.Accepts extent := by
    refine .of_valid ?_
    rw [valid, Bool.not_eq_true', ← Bool.not_eq_true, Option.any_eq_true]
    exact sound
  refine ⟨?_, lives, fun spoilt => .of_invalid ?_⟩
  · -- the operation that was left within the call stays the first one
    rintro ⟨guard, around, succeeded⟩
    refine lives ?_
    rintro ⟨other, around', failed⟩
    rw [Moment.guards_append, Guard.around?, List.find?_append, ← Guard.around?, around] at around'
    cases around'
    cases succeeded.symm.trans failed
  · rw [valid, (Option.any_eq_true _ _).mpr spoilt]
    rfl

/-! ## A continuation after an error -/

/-- The calls that are begun at two moments, and what happens from the end of the first one to the
beginning of the second. -/
def Moment.between? (moments : List Moment) (i j : Nat) : Option (Call × List Moment × Call) :=
  match moments[i]?, moments[j]? with
  | some (.begun call), some (.begun later) =>
    let ended := i + call.timeline.length
    if ended ≤ j then some (call, (moments.drop ended).take (j - ended), later) else none
  | _, _ => none

/-- A list of moments is cut at each of them. -/
theorem Moment.split_at {moments : List Moment} {moment : Moment}
    (at' : moments[i]? = some moment) :
    moments = moments.take i ++ moment :: moments.drop (i + 1) := by
  obtain ⟨inside, rfl⟩ := List.getElem?_eq_some_iff.mp at'
  rw [← List.drop_eq_getElem_cons inside, List.take_append_drop]

/-- A call that was found lies in the timeline, and another one begins after it. -/
theorem Moment.between?_split
    (found : between? (timeline n operations m) i j = some (call, since, later)) :
    ∃ before rest, timeline n operations m =
      before ++ (call.timeline ++ (since ++ .begun later :: rest)) := by
  unfold between? at found
  split at found
  · rename_i first second begins begins'
    simp only [Option.ite_none_right_eq_some, Option.some.injEq, Prod.mk.injEq] at found
    obtain ⟨apart, rfl, rfl, rfl⟩ := found
    have start := split_at begins
    obtain ⟨further, own, -⟩ := (timeline_proceeds n operations m).order _ _ _ start
    rw [own] at start
    have short : ((timeline n operations m).take i).length = i := by
      rw [List.length_take]
      exact Nat.min_eq_left (Nat.le_of_lt (List.getElem?_eq_some_iff.mp begins).1)
    -- what is left after the end of the first call
    have left : (timeline n operations m).drop (i + first.timeline.length) = further := by
      rw [start, ← List.drop_drop, List.drop_left' short, List.drop_left]
    have next : further[j - (i + first.timeline.length)]? = some (.begun second) := by
      rw [← left, List.getElem?_drop, Nat.add_sub_cancel' apart, begins']
    rw [left]
    exact ⟨_, _, start.trans (congrArg _ (congrArg _ (split_at next)))⟩
  · cases found

namespace Task

/-- The function that the task applies with its trampoline. -/
def applied? : Task -> Option String
  | .apply (.trampolined (.contEnabled (.closure _ function _)) _) _ _ => function.signature.name
  | _ => none

/-- The extent of the continuation that the task resumes. -/
def resumed? : Task -> Option Nat
  | .apply (.continuation _ _ _ extent _) _ _ => some extent
  | _ => none

end Task

instance (m m' : Machine) (extent : Nat) : Decidable (m.Captures m' extent) :=
  inferInstanceAs (Decidable (_ ∧ _))

/-- The text is run on a new machine, and two of the calls are asked about. -/
def Program.callsThen (source : String) (i j : Nat)
    (asked : Transformed -> Call -> List Moment -> Call -> Bool) : Bool :=
  ((Program.ofText source).transform .default ["ec"]).toOption.any fun transformed =>
    (Moment.between? (timeline 40 [.run transformed.program] (.start false)) i j).any
      fun (call, since, later) => asked transformed call since later

/-- A function that captures, called by another with a jump, and resumed after an error. -/
def jumpedCapture : String :=
  "(define k nil)
  (continuations
    (defn h () (set! k cc) 1)
    (defn g () (capture (r) (h)) (print r) r)
    (defn f () (g)))
  (try (fn () (print (f)) (raise \"x\")) (fn (m) (print m)))
  (k 2)"

/-- The same where the function is called at once. -/
def directCapture : String :=
  "(define k nil)
  (continuations
    (defn h () (set! k cc) 1)
    (defn g () (capture (r) (h)) (print r) r))
  (try (fn () (print (g)) (raise \"x\")) (fn (m) (print m)))
  (k 2)"

/-- A checked run has such a call and a later one. -/
theorem Program.callsThen_split {source : String}
    {asked : Transformed -> Call -> List Moment -> Call -> Bool}
    (holds : Program.callsThen source i j asked = true) :
    ∃ transformed before call since later rest,
      (Program.ofText source).transform .default ["ec"] = .ok transformed ∧
        timeline 40 [.run transformed.program] (.start false) =
          before ++ (call.timeline ++ (since ++ .begun later :: rest)) ∧
        asked transformed call since later = true := by
  unfold Program.callsThen at holds
  cases succeeds : (Program.ofText source).transform .default ["ec"] with
  | error error => simp [succeeds, Except.toOption] at holds
  | ok transformed =>
    simp only [succeeds, Except.toOption, Option.any_some] at holds
    obtain ⟨⟨call, since, later⟩, found, holds⟩ := (Option.any_eq_true _ _).mp holds
    obtain ⟨before, rest, split⟩ := Moment.between?_split found
    exact ⟨transformed, before, call, since, later, rest, rfl, split, holds⟩

/-- The call has a value, and the extent was captured meanwhile. -/
def Call.returnsWith (call : Call) (extent : Nat) : Bool :=
  match call.task.run call.fuel call.machine with
  | some (.ok _, last) => decide (call.machine.Captures last extent)
  | _ => false

/-- A checked call has captured the extent when it returns. -/
theorem Call.returnsWith_captures (returns : call.returnsWith extent = true) :
    ∃ answer last, call.Ends (.ok answer, last) ∧ call.machine.Captures last extent := by
  unfold returnsWith at returns
  split at returns
  · rename_i answer last ends
    exact ⟨answer, last, ends, of_decide_eq_true returns⟩
  · cases returns

/-- The continuation is resumed after an error was raised outside of the call that captured it. -/
theorem jumpedCapture_lives : ∃ (transformed : Transformed) (before : List Moment) (call : Call)
    (since : List Moment) (later : Call) (rest : List Moment) (answer : call.task.Answer)
    (last : Machine),
    (Program.ofText jumpedCapture).transform .default ["ec"] = .ok transformed ∧
      timeline 40 [.run transformed.program] (.start false) =
        before ++ (call.timeline ++ (since ++ .begun later :: rest)) ∧
      call.task.applied? = some "f" ∧ call.Ends (.ok answer, last) ∧
      call.machine.Captures last 0 ∧ (∃ guard ∈ Moment.guards since, guard.failed = true) ∧
      later.task.resumed? = some 0 ∧ later.machine.Accepts 0 := by
  have holds : Program.callsThen jumpedCapture 38 191 (fun _ call since later =>
      decide (call.task.applied? = some "f") && call.returnsWith 0 &&
        (Moment.guards since).any Guard.failed && decide (later.task.resumed? = some 0) &&
        (Guard.around? (Moment.guards call.timeline) 0).any fun guard => !guard.failed) = true := by
    rw [Program.callsThen, Program.ofText, jumpedCapture, Program.parse_ofList]
    decide +kernel
  obtain ⟨transformed, before, call, since, later, rest, succeeds, split, asked⟩ :=
    Program.callsThen_split holds
  simp only [Bool.and_eq_true, decide_eq_true_eq, List.any_eq_true, Option.any_eq_true,
    Bool.not_eq_true'] at asked
  obtain ⟨⟨⟨⟨applies, returns⟩, fails⟩, resumes⟩, releases⟩ := asked
  obtain ⟨answer, last, ends, captured⟩ := Call.returnsWith_captures returns
  refine ⟨transformed, before, call, since, later, rest, answer, last, succeeds, split, applies,
    ends, captured, fails, resumes, ?_⟩
  exact (Machine.continuations_live _ 40 _ before since rest call later answer last 0 split ends
    captured).1 releases

/-- The program ends on the refusal of a continuation. -/
def Program.endsRefused (program : Program) : Bool :=
  match program.run 40 (.start false) with
  | some (.error .continuationInvalidated, _) => true
  | _ => false

/-- A checked program ends because a continuation refuses. -/
theorem Program.endsRefused_ends {program : Program} (refused : program.endsRefused = true) :
    ∃ m, program.EndsOn (.start false) (.error .continuationInvalidated, m) := by
  unfold Program.endsRefused at refused
  split at refused
  · rename_i m ran
    exact ⟨m, 40, ran⟩
  · cases refused

/-- The call that captures the continuation has returned when the error is raised, and yet the
continuation is refused. -/
theorem directCapture_refused : ∃ (transformed : Transformed) (before : List Moment) (call : Call)
    (since : List Moment) (later : Call) (rest : List Moment) (answer : call.task.Answer)
    (last m : Machine),
    (Program.ofText directCapture).transform .default ["ec"] = .ok transformed ∧
      timeline 40 [.run transformed.program] (.start false) =
        before ++ (call.timeline ++ (since ++ .begun later :: rest)) ∧
      call.task.applied? = some "g" ∧ call.Ends (.ok answer, last) ∧
      call.machine.Captures last 0 ∧ later.task.resumed? = some 0 ∧ later.machine.Refuses 0 ∧
      transformed.program.EndsOn (.start false) (.error .continuationInvalidated, m) := by
  have holds : Program.callsThen directCapture 36 171 (fun transformed call since later =>
      decide (call.task.applied? = some "g") && call.returnsWith 0 &&
        decide (later.task.resumed? = some 0) && !later.machine.valid 0 &&
        transformed.program.endsRefused) = true := by
    rw [Program.callsThen, Program.ofText, directCapture, Program.parse_ofList]
    decide +kernel
  obtain ⟨transformed, before, call, since, later, rest, succeeds, split, asked⟩ :=
    Program.callsThen_split holds
  simp only [Bool.and_eq_true, decide_eq_true_eq, Bool.not_eq_true'] at asked
  obtain ⟨⟨⟨⟨applies, returns⟩, resumes⟩, invalid⟩, fails⟩ := asked
  obtain ⟨answer, last, ends, captured⟩ := Call.returnsWith_captures returns
  obtain ⟨m, refused⟩ := Program.endsRefused_ends fails
  exact ⟨transformed, before, call, since, later, rest, answer, last, m, succeeds, split, applies,
    ends, captured, resumes, .of_invalid invalid, refused⟩

end Trampoline
