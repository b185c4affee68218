import Trampoline.Proofs.Promises.Forces

/-!
# Guarded operations

An activation that captures has an extent, which says whether its continuations can be resumed. It
stays on the stack until the innermost guarded operation around the capture is over: if that
operation failed, the extent becomes invalid, and if it has a value or was left by an escape, the
extent is let go as it is. Nothing else ever changes an extent.
-/

namespace Trampoline

open Exec

/-- A guarded operation that is over. -/
structure Guard where
  /-- The extent that was next when it began. -/
  first : Nat
  /-- The extent that was next when it was over. -/
  last : Nat
  /-- It ended with an error that is no escape. -/
  failed : Bool

/-- The operation ended with an error that is no escape. -/
def Exec.isFailure {α : Type} : Except EvalError α -> Bool
  | .ok _ => false
  | .error error => !error.isEscape

namespace Guard

/-- A guarded operation from one machine to another. -/
def ofEnd {α : Type} (m : Machine) (result : Except EvalError α) (last : Machine) : Guard :=
  ⟨m.extents.size, last.extents.size, isFailure result⟩

/-- The extent is from within the operation. -/
def captures (guard : Guard) (extent : Nat) : Bool :=
  decide (guard.first ≤ extent) && decide (extent < guard.last)

@[simp] theorem captures_iff {guard : Guard} {extent : Nat} :
    guard.captures extent = true ↔ guard.first ≤ extent ∧ extent < guard.last := by
  simp [captures]

end Guard

/-- The guarded operations on the way of a plan that are over, in the order of their ends; `inside`
are those of a task. -/
def Plan.guards {α : Type} (perform : (task : Task) -> Run task.Answer)
    (inside : Task -> Machine -> List Guard) : Plan α -> Machine -> List Guard
  | done _, _ => []
  | step run next, m =>
    match run m with
    | some (.ok value, m) => (next value).guards perform inside m
    | _ => []
  | ask task next, m => inside task m ++
    match perform task m with
    | some (.ok answer, m) => (next answer).guards perform inside m
    | _ => []
  | guarded inner next, m => inner.guards perform inside m ++
    match inner.run perform m with
    | none => []
    | some (result, last) => .ofEnd m result last ::
      match result with
      | .ok value => (next value).guards perform inside (guardedState m.stack.size (result, last))
      | .error _ => []
  | settle inner next, m => inner.guards perform inside m ++
    match inner.run perform m with
    | some (result, m) => (next result).guards perform inside m
    | none => []

/-- The guarded operations on the way of a task that are over. -/
def Task.guards : Nat -> Task -> Machine -> List Guard
  | 0, _, _ => []
  | n + 1, task, m => task.plan.guards (Task.run n) (Task.guards n) m

namespace Machine

/-- The continuations of an extent can be resumed. -/
def valid (m : Machine) (extent : Nat) : Bool := m.extents.getD extent false

/-- What becomes of extents while these guarded operations come to their ends. -/
structure Disposes (m : Machine) (past : List Guard) (m' : Machine) : Prop where
  size : m.extents.size ≤ m'.extents.size
  inside : ∀ guard ∈ past, m.extents.size ≤ guard.first ∧ guard.last ≤ m'.extents.size
  /-- Extents that were there before stay as they are. -/
  old : ∀ extent < m.extents.size, m'.valid extent = m.valid extent
  /-- On the stack remain those that were there and those from outside of all the operations. -/
  stack : ∃ loose, m'.stack.toList = m.stack.toList ++ loose ∧ ∀ extent, extent ∈ loose ↔
    m.extents.size ≤ extent ∧ extent < m'.extents.size ∧
      ∀ guard ∈ past, guard.captures extent = false
  /-- A new extent is invalid exactly if the first operation around it that was over failed. -/
  new : ∀ extent, m.extents.size ≤ extent -> extent < m'.extents.size ->
    m'.valid extent = !(past.find? (·.captures extent)).any Guard.failed

variable {m middle m' last : Machine} {past more : List Guard} {extent : Nat}

theorem valid_congr (same : m'.extents = m.extents) (extent : Nat) :
    m'.valid extent = m.valid extent := by
  rw [valid, valid, same]

namespace Disposes

theorem of_eq (extents : m'.extents = m.extents) (stack : m'.stack = m.stack) :
    m.Disposes [] m' where
  size := Nat.le_of_eq (congrArg Array.size extents).symm
  inside _ member := absurd member List.not_mem_nil
  old extent _ := valid_congr extents extent
  stack := by
    refine ⟨[], by simp [stack], fun extent => ?_⟩
    rw [extents]
    simp only [List.not_mem_nil, false_iff]
    omega
  new extent outside inside := by
    rw [extents] at inside
    omega

theorem refl (m : Machine) : m.Disposes [] m := .of_eq rfl rfl

/-- An extent that was there before, or is not there after, was captured in no guarded operation
since. -/
theorem find_eq_none (disposes : m.Disposes past m')
    (outside : extent < m.extents.size ∨ m'.extents.size ≤ extent) :
    past.find? (·.captures extent) = none := by
  refine List.find?_eq_none.mpr fun guard member captured => ?_
  have bounds := disposes.inside guard member
  have inside := Guard.captures_iff.mp captured
  omega

/-- No guarded operation since captured an extent that was there before or is not there after. -/
theorem not_captures (disposes : m.Disposes past m')
    (outside : extent < m.extents.size ∨ m'.extents.size ≤ extent) (guard : Guard)
    (member : guard ∈ past) : guard.captures extent = false := by
  rw [← Bool.not_eq_true]
  exact List.find?_eq_none.mp (disposes.find_eq_none outside) guard member

/-- An extent that was captured in guarded operations, all of which failed, is invalid. -/
theorem invalid (disposes : m.Disposes past m')
    (covers : ∃ guard ∈ past, guard.captures extent = true)
    (held : ∀ guard ∈ past, guard.captures extent = true -> guard.failed = true) :
    m'.valid extent = false := by
  obtain ⟨first, found⟩ := Option.isSome_iff_exists.mp (List.find?_isSome.mpr covers)
  have member := List.mem_of_find?_eq_some found
  have captured : first.captures extent = true :=
    List.find?_some (p := fun guard : Guard => guard.captures extent) found
  have bounds := disposes.inside first member
  have inside := Guard.captures_iff.mp captured
  rw [disposes.new extent (by omega) (by omega), found, Option.any_some,
    held first member captured]
  rfl

/-- An extent that was captured outside of all guarded operations is valid. -/
theorem valid_of_loose (disposes : m.Disposes past m') (new : m.extents.size ≤ extent)
    (inside : extent < m'.extents.size) (free : ∀ guard ∈ past, guard.captures extent = false) :
    m'.valid extent = true := by
  have none : past.find? (·.captures extent) = none :=
    List.find?_eq_none.mpr fun guard member captured => by
      cases (free guard member).symm.trans captured
  rw [disposes.new extent new inside, none]
  rfl

theorem trans (first : m.Disposes past middle) (second : middle.Disposes more m') :
    m.Disposes (past ++ more) m' where
  size := Nat.le_trans first.size second.size
  inside guard member := by
    have before := first.size
    have after := second.size
    rcases List.mem_append.mp member with member | member
    · have bounds := first.inside guard member
      omega
    · have bounds := second.inside guard member
      omega
  old extent known := by
    have known' : extent < middle.extents.size := Nat.lt_of_lt_of_le known first.size
    exact (second.old extent known').trans (first.old extent known)
  stack := by
    obtain ⟨loose, stacked, isLoose⟩ := first.stack
    obtain ⟨loose', stacked', isLoose'⟩ := second.stack
    refine ⟨loose ++ loose', by rw [stacked', stacked, List.append_assoc], fun extent => ?_⟩
    have before := first.size
    have after := second.size
    rw [List.mem_append, isLoose, isLoose', List.forall_mem_append]
    constructor
    · rintro (⟨new, inside, free⟩ | ⟨new, inside, free⟩)
      · exact ⟨new, by omega, free, second.not_captures (.inl inside)⟩
      · exact ⟨by omega, inside, first.not_captures (.inr new), free⟩
    · rintro ⟨new, inside, free, free'⟩
      by_cases known : extent < middle.extents.size
      · exact .inl ⟨new, known, free⟩
      · exact .inr ⟨by omega, inside, free'⟩
  new extent new inside := by
    rw [List.find?_append]
    by_cases known : extent < middle.extents.size
    · rw [second.find_eq_none (.inl known), Option.or_none, second.old extent known]
      exact first.new extent new known
    · rw [first.find_eq_none (.inr (Nat.le_of_not_lt known)), Option.none_or]
      exact second.new extent (Nat.le_of_not_lt known) inside

theorem capture (m : Machine) : m.Disposes [] { m with
    extents := m.extents.push true
    stack := m.stack.push m.extents.size } where
  size := by simp
  inside _ member := absurd member List.not_mem_nil
  old extent known := by
    simp [valid, Array.getD_eq_getD_getElem?, Array.getElem?_push, Nat.ne_of_lt known]
  stack := by
    refine ⟨[m.extents.size], by simp, fun extent => ?_⟩
    simp only [List.mem_singleton, Array.size_push, List.not_mem_nil, false_implies, implies_true,
      and_true]
    omega
  new extent new inside := by
    have last : extent = m.extents.size := by
      simp only [Array.size_push] at inside
      omega
    simp [valid, Array.getD_eq_getD_getElem?, last]

/-- Effects dispose of nothing. -/
theorem changes (changes : m.Changes m') : m.Disposes [] m' := by
  cases changes with
  | other _ extents stack => exact .of_eq extents stack
  | capture => exact .capture m
  | delay | enter | leave => exact .of_eq rfl rfl

/-! ### The end of a guarded operation -/

/-- After some extents are invalidated those are valid that were and are none of them. -/
theorem getD_invalidate (refs : List Nat) (extents : Array Bool) (extent : Nat) :
    (refs.foldl (fun extents ref => extents.setIfInBounds ref false) extents).getD extent false =
      (extents.getD extent false && !refs.contains extent) := by
  induction refs generalizing extents with
  | nil => simp
  | cons ref rest ih =>
    rw [List.foldl_cons, ih, List.contains_cons, Bool.not_or, ← Bool.and_assoc]
    congr 1
    by_cases same : extent = ref
    · subst same
      simp [Array.getD_eq_getD_getElem?, Array.getElem?_setIfInBounds]
      split <;> rfl
    · simp [Array.getD_eq_getD_getElem?, Array.getElem?_setIfInBounds_ne (Ne.symm same), same]

/-- Invalidating extents makes no new ones. -/
theorem size_invalidate (refs : List Nat) (extents : Array Bool) :
    (refs.foldl (fun extents ref => extents.setIfInBounds ref false) extents).size =
      extents.size := by
  induction refs generalizing extents with
  | nil => rfl
  | cons ref rest ih => rw [List.foldl_cons, ih, Array.size_setIfInBounds]

variable {α : Type}

/-- Leaving a guarded operation makes no extents. -/
theorem size_guardedState (mark : Nat) (result : Except EvalError α) (m : Machine) :
    (guardedState mark (result, m)).extents.size = m.extents.size := by
  unfold guardedState
  split
  · rfl
  · split
    · rfl
    · exact size_invalidate _ _

/-- Leaving a guarded operation cuts the stack back to where it began. -/
theorem stack_guardedState (mark : Nat) (result : Except EvalError α) (m : Machine) :
    (guardedState mark (result, m)).stack.toList = m.stack.toList.take mark := by
  have shrunk (stack : Array Nat) : (stack.shrink mark).toList = stack.toList.take mark := by
    simp
  unfold guardedState
  split
  · exact shrunk m.stack
  · split
    · exact shrunk m.stack
    · exact shrunk m.stack

/-- Leaving a guarded operation invalidates what was captured inside, if it failed. -/
theorem valid_guardedState (mark : Nat) (result : Except EvalError α) (m : Machine)
    (extent : Nat) : (guardedState mark (result, m)).valid extent =
      (m.valid extent && !(isFailure result && (m.stack.toList.drop mark).contains extent)) := by
  unfold guardedState
  cases result with
  | ok value => simp [isFailure, valid, unwindTo]
  | error error =>
    by_cases escapes : error.isEscape
    · simp [isFailure, escapes, valid, unwindTo]
    · simp only [escapes, isFailure, valid, unwindTo, invalidateFrom, Bool.not_false, Bool.true_and]
      exact getD_invalidate _ _ _

/-- When a guarded operation is over, all extents that came on the stack within it are off. -/
theorem guarded (disposes : m.Disposes past last) (result : Except EvalError α) :
    m.Disposes (past ++ [.ofEnd m result last]) (guardedState m.stack.size (result, last)) := by
  obtain ⟨loose, stacked, isLoose⟩ := disposes.stack
  have grown := disposes.size
  have size := size_guardedState m.stack.size result last
  have dropped : last.stack.toList.drop m.stack.size = loose := by
    rw [stacked, ← Array.length_toList, List.drop_left]
  have kept : (guardedState m.stack.size (result, last)).stack.toList = m.stack.toList := by
    rw [stack_guardedState, stacked, ← Array.length_toList, List.take_left]
  have valid := valid_guardedState m.stack.size result last
  rw [dropped] at valid
  constructor
  case size => omega
  case inside =>
    intro guard member
    rw [size]
    rcases List.mem_append.mp member with member | member
    · exact disposes.inside guard member
    · rw [List.mem_singleton.mp member]
      exact ⟨Nat.le_refl _, Nat.le_refl _⟩
  case old =>
    intro extent known
    have notLoose : loose.contains extent = false := by
      rw [← Bool.not_eq_true, List.contains_iff_mem, isLoose]
      omega
    rw [valid, notLoose, Bool.and_false, Bool.not_false, Bool.and_true]
    exact disposes.old extent known
  case stack =>
    refine ⟨[], by rw [kept, List.append_nil], fun extent => ?_⟩
    simp only [List.not_mem_nil, false_iff, size]
    rintro ⟨new, inside, free⟩
    have captured : (Guard.ofEnd m result last).captures extent = true :=
      Guard.captures_iff.mpr ⟨new, inside⟩
    cases captured.symm.trans (free _ (List.mem_append_right _ (List.mem_singleton_self _)))
  case new =>
    intro extent new inside
    rw [size] at inside
    have captured : (Guard.ofEnd m result last).captures extent = true :=
      Guard.captures_iff.mpr ⟨new, inside⟩
    rw [valid, disposes.new extent new inside, List.find?_append]
    cases found : past.find? (·.captures extent) with
    | some guard =>
      have notLoose : extent ∉ loose := by
        rw [isLoose]
        rintro ⟨-, -, free⟩
        have captures : guard.captures extent = true :=
          List.find?_some (p := fun guard : Guard => guard.captures extent) found
        cases (free guard (List.mem_of_find?_eq_some found)).symm.trans captures
      simp [notLoose]
    | none =>
      have isNew : extent ∈ loose := by
        rw [isLoose]
        refine ⟨new, inside, fun guard member => ?_⟩
        rw [← Bool.not_eq_true]
        exact List.find?_eq_none.mp found guard member
      have only : [Guard.ofEnd m result last].find? (·.captures extent) =
          some (.ofEnd m result last) := by
        simp [captured]
      rw [only]
      simp [isNew, Guard.ofEnd]

end Disposes

end Machine

/-! ## Plans and tasks -/

/-- A run whose effects are told one by one disposes of nothing. -/
theorem Exec.Gradual.disposes {α : Type} {run : Run α} (gradual : Gradual run) {m m' : Machine}
    {result : Except EvalError α} (ends : run m = some (result, m')) : m.Disposes [] m' := by
  have path := gradual m result m' ends
  clear ends
  induction path with
  | refl => exact .refl m
  | tail _ change ih => exact ih.trans (.changes change)

section Plans

variable {perform : (task : Task) -> Run task.Answer} {inside : Task -> Machine -> List Guard}

variable {m m' : Machine} {ref : Nat} {result : Except EvalError Value}

/-- A plan disposes of extents as the guarded operations of its tasks do. -/
theorem Plan.Gradual.disposes {α : Type} {plan : Plan α} (gradual : plan.Gradual)
    (performs : ∀ task m result m', perform task m = some (result, m') ->
      m.Disposes (inside task m) m')
    {result : Except EvalError α} (ends : plan.run perform m = some (result, m')) :
    m.Disposes (plan.guards perform inside m) m' := by
  induction plan generalizing m m' with
  | done value =>
    cases ends
    exact .refl m
  | step act next ih =>
    rcases bind_eq_some.mp ends with ⟨value, middle, ran, rest⟩ | ⟨error, last, ran, equal⟩
    · rw [Plan.guards, ran]
      exact (gradual.1.disposes ran).trans (ih value (gradual.2 value) rest)
    · cases equal
      rw [Plan.guards, ran]
      exact gradual.1.disposes ran
  | ask task next ih =>
    rcases bind_eq_some.mp ends with ⟨answer, middle, ran, rest⟩ | ⟨error, last, ran, equal⟩
    · rw [Plan.guards, ran]
      exact (performs task m _ _ ran).trans (ih answer (gradual answer) rest)
    · cases equal
      rw [Plan.guards, ran, List.append_nil]
      exact performs task m _ _ ran
  | guarded inner next ihInner ih =>
    rcases bind_eq_some.mp ends with ⟨value, middle, ran, rest⟩ | ⟨error, _, ran, equal⟩
    · obtain ⟨last, within, rfl⟩ := guarded_eq_some.mp ran
      have inner := (ihInner gradual.1 within).guarded (.ok value)
      have whole := inner.trans (ih value (gradual.2 value) rest)
      rw [List.append_assoc] at whole
      rw [Plan.guards, within]
      exact whole
    · cases equal
      obtain ⟨last, within, rfl⟩ := guarded_eq_some.mp ran
      rw [Plan.guards, within]
      exact (ihInner gradual.1 within).guarded _
  | settle inner next ihInner ih =>
    obtain ⟨result', middle, ran, rest⟩ := settle_eq_some.mp ends
    rw [Plan.guards, ran]
    exact (ihInner gradual.1 ran).trans (ih result' (gradual.2 result') rest)

section Pending

variable {m : Machine} {ref : Nat} {thunk : Thunk} (pending : m.promise ref = .pending thunk)
include pending

/-- A force guards what its thunk does. -/
theorem Plan.guards_force : (Task.force (.promise ref)).plan.guards perform inside m =
    (computing thunk).guards perform inside (m.beginForce ref) := by
  rw [force_eq]
  change (forcing ref (m.promise ref)).guards perform inside m = _
  rw [pending, forcing]
  have begins : Plan.guards perform inside (step (Run.setPromise ref .forcing) fun _ =>
      step (Run.tell .forcing) fun _ => computing thunk) m =
        (computing thunk).guards perform inside (m.beginForce ref) := rfl
  have finishes (result : Except EvalError Value) (m : Machine) :
      (finishing ref thunk result).guards perform inside m = [] := by
    cases result <;> rfl
  rw [guards, begins]
  split
  · rw [finishes, List.append_nil]
  · exact List.append_nil _

end Pending

/-- The force of a promise that does not wait makes no guarded operations. -/
theorem Plan.guards_idle (idle : ∀ thunk, m.promise ref ≠ .pending thunk) :
    (Task.force (.promise ref)).plan.guards perform inside m = [] := by
  rw [force_eq]
  change (forcing ref (m.promise ref)).guards perform inside m = []
  cases state : m.promise ref with
  | pending thunk => exact absurd state (idle thunk)
  | _ => rfl

/-- Such a force changes nothing. -/
theorem Plan.run_idle (idle : ∀ thunk, m.promise ref ≠ .pending thunk)
    (ends : (Task.force (.promise ref)).plan.run perform m = some (result, m')) : m = m' := by
  rw [force_eq] at ends
  change (forcing ref (m.promise ref)).run perform m = _ at ends
  cases state : m.promise ref with
  | pending thunk => exact absurd state (idle thunk)
  | _ =>
    rw [state] at ends
    cases ends
    rfl

/-- A force disposes of extents as its thunk does. -/
theorem Plan.disposes_force
    (performs : ∀ task m result m', perform task m = some (result, m') ->
      m.Disposes (inside task m) m')
    (ends : (Task.force (.promise ref)).plan.run perform m = some (result, m')) :
    m.Disposes ((Task.force (.promise ref)).plan.guards perform inside m) m' := by
  by_cases waits : ∃ thunk, m.promise ref = .pending thunk
  · obtain ⟨thunk, pending⟩ := waits
    rw [run_force pending] at ends
    rw [guards_force pending]
    cases ran : (computing thunk).run perform (m.beginForce ref) with
    | none => simp [ran] at ends
    | some outcome =>
      obtain ⟨computed, last⟩ := outcome
      have begins : m.Disposes [] (m.beginForce ref) := .of_eq rfl rfl
      have computes := begins.trans ((computing_gradual thunk).disposes performs ran)
      have finishes : last.Disposes [] m' := by
        rw [ran] at ends
        cases computed with
        | error error =>
          cases ends
          exact .of_eq rfl rfl
        | ok value =>
          cases ends
          exact .of_eq rfl rfl
      simpa using computes.trans finishes
  · have idle : ∀ thunk, m.promise ref ≠ .pending thunk := fun thunk state => waits ⟨thunk, state⟩
    have same : m = m' := run_idle idle ends
    rw [guards_idle idle, same]
    exact .refl m'

end Plans

/-- What becomes of extents while a task is done. -/
theorem Task.disposes (n : Nat) (task : Task) (m : Machine) (result : Except EvalError task.Answer)
    (m' : Machine) (ends : task.run n m = some (result, m')) :
    m.Disposes (task.guards n m) m' := by
  induction n generalizing task m m' with
  | zero => cases task <;> cases ends
  | succ n ih =>
    rw [Task.run_succ] at ends
    by_cases forces : ∃ ref, task = .force (.promise ref)
    · obtain ⟨ref, rfl⟩ := forces
      exact Plan.disposes_force ih ends
    · exact (Task.plan_gradual fun ref same => forces ⟨ref, same⟩).disposes ih ends

end Trampoline
