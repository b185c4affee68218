import Trampoline.Proofs.Evaluation.Changes
import Trampoline.Proofs.Evaluation.Stacks

/-!
# The states of promises

A promise waits, is being forced, or has its value. While a task is under way a promise that is
being forced stays so and one that has its value keeps it; when the task is over, what was being
forced before still is, and of the rest nothing is. So each force that succeeds is the last for its
promise.
-/

namespace Trampoline

open Exec

/-- The value is a promise. -/
def Value.isPromise : Value -> Bool
  | promise _ => true
  | _ => false

/-- What a promise may have become when a task is over. -/
inductive Promise.Becomes : Promise -> Promise -> Prop where
  | same (state : Promise) : Becomes state state
  | settled (thunk : Thunk) (value : Value) : Becomes (.pending thunk) (.forced value)

namespace Machine

/-- No promise has a promise for its value. -/
def Resolved (m : Machine) : Prop :=
  ∀ ref value, m.promise ref = .forced value -> value.isPromise = false

/-- What becomes of promises from the beginning of a task to its end. -/
structure Settles (m m' : Machine) : Prop where
  size : m.promises.size ≤ m'.promises.size
  known : ∀ ref < m.promises.size, (m.promise ref).Becomes (m'.promise ref)
  new : ∀ ref, m.promises.size ≤ ref -> ref < m'.promises.size -> m'.promise ref ≠ .forcing
  resolved : m.Resolved -> m'.Resolved

/-- What becomes of promises from the beginning of a task to any time while it is under way. -/
structure Sustains (m later : Machine) : Prop where
  size : m.promises.size ≤ later.promises.size
  forced : ∀ ref value, m.promise ref = .forced value -> later.promise ref = .forced value
  forcing : ∀ ref < m.promises.size, m.promise ref = .forcing -> later.promise ref = .forcing
  resolved : m.Resolved -> later.Resolved

/-- What becomes of promises as time goes by: those that have their values keep them. -/
def Remembers (m later : Machine) : Prop :=
  ∀ ref value, m.promise ref = .forced value -> later.promise ref = .forced value

/-- The machine with another state for a promise. -/
def withPromise (m : Machine) (ref : Nat) (state : Promise) : Machine :=
  { m with promises := m.promises.setIfInBounds ref state }

/-- The machine as it begins to force a promise. -/
def beginForce (m : Machine) (ref : Nat) : Machine :=
  { m.withPromise ref .forcing with trace := .forcing :: m.trace }

variable {m middle m' later : Machine} {ref other : Nat} {state : Promise} {value : Value}

/-! ## Promises of changed machines -/

theorem promise_eq_of_le (outside : m.promises.size ≤ ref) : m.promise ref = .forcing := by
  simp [promise, Array.getD_eq_getD_getElem?, Array.getElem?_eq_none outside]

/-- A promise in any other state exists. -/
theorem lt_of_promise (known : m.promise ref = state) (different : state ≠ .forcing) :
    ref < m.promises.size :=
  Nat.lt_of_not_le fun outside => different (known.symm.trans (promise_eq_of_le outside))

theorem promise_congr (same : m'.promises = m.promises) (ref : Nat) :
    m'.promise ref = m.promise ref := by
  rw [promise, promise, same]

/-- A promise that exists gets the state that it is given. -/
theorem promise_withPromise (inside : ref < m.promises.size) :
    (m.withPromise ref state).promise ref = state := by
  simp [promise, withPromise, inside]

/-- Giving one promise a state leaves the others. -/
theorem promise_withPromise_of_ne (different : other ≠ ref) :
    (m.withPromise ref state).promise other = m.promise other := by
  simp [promise, withPromise, Array.getElem?_setIfInBounds_ne different.symm,
    Array.getD_eq_getD_getElem?]

@[simp] theorem size_withPromise : (m.withPromise ref state).promises.size = m.promises.size := by
  simp [withPromise]

theorem Resolved.of_eq (resolved : m.Resolved) (same : m'.promises = m.promises) : m'.Resolved :=
  fun ref value forced => resolved ref value ((promise_congr same ref).symm.trans forced)

/-- Settling a promise to what is no promise leaves the machine resolved. -/
theorem Resolved.withPromise (resolved : m.Resolved)
    (plain : ∀ value, state = .forced value -> value.isPromise = false) :
    (m.withPromise ref state).Resolved := by
  intro other value forced
  by_cases same : other = ref
  · subst same
    by_cases inside : other < m.promises.size
    · exact plain value ((promise_withPromise inside).symm.trans forced)
    · have outside : (m.withPromise other state).promises.size ≤ other := by
        rw [size_withPromise]
        exact Nat.le_of_not_lt inside
      rw [promise_eq_of_le outside] at forced
      cases forced
  · exact resolved other value ((promise_withPromise_of_ne same).symm.trans forced)

/-! ## From the beginning to the end -/

namespace Settles

theorem of_eq (same : m'.promises = m.promises) : m.Settles m' where
  size := Nat.le_of_eq (congrArg Array.size same).symm
  known ref _ := by
    rw [promise_congr same]
    exact .same _
  new ref outside inside := by
    rw [same] at inside
    omega
  resolved resolved := resolved.of_eq same

theorem refl (m : Machine) : m.Settles m := .of_eq rfl

/-- A promise that is not being forced is not being forced later. -/
theorem ne_forcing (settles : m.Settles m') (inside : ref < m.promises.size)
    (idle : m.promise ref ≠ .forcing) : m'.promise ref ≠ .forcing := by
  have becomes := settles.known ref inside
  generalize m.promise ref = before, m'.promise ref = after at idle becomes
  cases becomes with
  | same => exact idle
  | settled => nofun

theorem trans (first : m.Settles middle) (second : middle.Settles m') : m.Settles m' where
  size := Nat.le_trans first.size second.size
  known ref inside := by
    have before := first.known ref inside
    have after := second.known ref (Nat.lt_of_lt_of_le inside first.size)
    generalize m.promise ref = first, middle.promise ref = second, m'.promise ref = third
      at before after
    cases before with
    | same => exact after
    | settled thunk value =>
      cases after
      exact .settled thunk value
  new ref outside inside := by
    by_cases known : ref < middle.promises.size
    · exact second.ne_forcing known (first.new ref outside known)
    · exact second.new ref (Nat.le_of_not_lt known) inside
  resolved resolved := second.resolved (first.resolved resolved)

/-- A new promise is pending. -/
theorem delay (m : Machine) (thunk : Thunk) :
    m.Settles { m with promises := m.promises.push (.pending thunk) } := by
  have old : ∀ ref < m.promises.size, ({ m with promises := m.promises.push (.pending thunk) }
      : Machine).promise ref = m.promise ref := by
    intro ref inside
    simp [promise, Array.getD_eq_getD_getElem?, Array.getElem?_push, Nat.ne_of_lt inside]
  have new : ({ m with promises := m.promises.push (.pending thunk) } : Machine).promise
      m.promises.size = .pending thunk := by
    simp [promise, Array.getD_eq_getD_getElem?]
  refine ⟨by simp, fun ref inside => old ref inside ▸ .same _, fun ref outside inside => ?_, ?_⟩
  · have last : ref = m.promises.size := by
      simp only [Array.size_push] at inside
      omega
    rw [last, new]
    nofun
  · intro resolved ref value forced
    by_cases known : ref < m.promises.size
    · exact resolved ref value ((old ref known).symm.trans forced)
    · have inside := lt_of_promise forced nofun
      have last : ref = m.promises.size := by
        simp only [Array.size_push] at inside
        omega
      rw [last, new] at forced
      cases forced

/-- Changes to other stores leave promises as they are. -/
theorem changes (changes : m.Changes m') : m.Settles m' := by
  cases changes with
  | other promises => exact .of_eq promises
  | delay thunk => exact .delay m thunk
  | capture | enter | leave => exact .of_eq rfl

/-- What `guarded` disposes of at the end has nothing to do with promises. -/
theorem guardedState {α : Type} (mark : Nat) (result : Except EvalError α) (m : Machine) :
    m.Settles (Exec.guardedState mark (result, m)) := by
  refine .of_eq ?_
  cases result with
  | ok value => rfl
  | error error =>
    simp only [Exec.guardedState]
    split <;> rfl

/-- Settling lasts through all that a machine does. -/
theorem lasting : Machine.Lasting Settles where
  refl := refl
  trans := trans
  changes := changes
  guarded result settles := settles.trans (guardedState _ result _)

/-- What has become of promises at the end may also have become of them on the way. -/
theorem sustains (settles : m.Settles m') : m.Sustains m' where
  size := settles.size
  forced ref value forced := by
    have becomes := settles.known ref (lt_of_promise forced nofun)
    rw [forced] at becomes
    generalize m'.promise ref = state at becomes
    cases becomes
    rfl
  forcing ref inside forcing := by
    have becomes := settles.known ref inside
    rw [forcing] at becomes
    generalize m'.promise ref = state at becomes
    cases becomes
    rfl
  resolved := settles.resolved

end Settles

theorem Sustains.trans (first : m.Sustains middle) (second : middle.Sustains later) :
    m.Sustains later where
  size := Nat.le_trans first.size second.size
  forced ref value forced := second.forced ref value (first.forced ref value forced)
  forcing ref inside forcing :=
    second.forcing ref (Nat.lt_of_lt_of_le inside first.size) (first.forcing ref inside forcing)
  resolved resolved := second.resolved (first.resolved resolved)

theorem Sustains.remembers (sustains : m.Sustains later) : m.Remembers later := sustains.forced

theorem Remembers.trans (first : m.Remembers middle) (second : middle.Remembers later) :
    m.Remembers later :=
  fun ref value forced => second ref value (first ref value forced)

/-! ### A force -/

section Force

variable {thunk : Thunk} (pending : m.promise ref = .pending thunk)
include pending

theorem inside_of_pending : ref < m.promises.size := lt_of_promise pending nofun

/-- The promise that begins to be forced is being forced. -/
theorem promise_beginForce : (m.beginForce ref).promise ref = .forcing :=
  promise_withPromise (inside_of_pending pending)

omit pending in
/-- The other promises are as before. -/
theorem promise_beginForce_of_ne (different : other ≠ ref) :
    (m.beginForce ref).promise other = m.promise other :=
  promise_withPromise_of_ne different

/-- A force begins: all but the promise is as it was. -/
theorem sustains_beginForce : m.Sustains (m.beginForce ref) where
  size := by simp [beginForce]
  forced other value forced := by
    have different : other ≠ ref := by
      rintro rfl
      cases pending.symm.trans forced
    exact (promise_beginForce_of_ne different).trans forced
  forcing other _ forcing := by
    have different : other ≠ ref := by
      rintro rfl
      cases pending.symm.trans forcing
    exact (promise_beginForce_of_ne different).trans forcing
  resolved resolved := by
    have begun : (m.withPromise ref .forcing).Resolved := resolved.withPromise nofun
    exact begun.of_eq rfl

/-- A force ends: the promise waits again or has its value, and all else is as it was when the force
had computed it. -/
theorem Settles.endForce (settles : (m.beginForce ref).Settles middle)
    (becomes : (Promise.pending thunk).Becomes state)
    (plain : m.Resolved -> ∀ value, state = .forced value -> value.isPromise = false) :
    m.Settles (middle.withPromise ref state) := by
  have size : (m.beginForce ref).promises.size = m.promises.size := by simp [beginForce]
  have inside : ref < middle.promises.size :=
    Nat.lt_of_lt_of_le (inside_of_pending pending) (size ▸ settles.size)
  refine ⟨by simpa [size] using settles.size, fun other known => ?_, ?_, fun resolved => ?_⟩
  · by_cases same : other = ref
    · subst same
      rw [promise_withPromise inside, pending]
      exact becomes
    · rw [promise_withPromise_of_ne same, ← promise_beginForce_of_ne same]
      exact settles.known other (size ▸ known)
  · intro other outside known
    have same : other ≠ ref := by
      rintro rfl
      exact absurd (inside_of_pending pending) (Nat.not_lt_of_le outside)
    rw [promise_withPromise_of_ne same]
    exact settles.new other (size ▸ outside) (by simpa using known)
  · have begun := (sustains_beginForce pending).resolved resolved
    exact (settles.resolved begun).withPromise (plain resolved)

/-- When the force ends, promises that had got their values keep them. -/
theorem Settles.remembers_endForce (settles : (m.beginForce ref).Settles middle) :
    middle.Remembers (middle.withPromise ref state) := by
  intro other value forced
  have inside : ref < (m.beginForce ref).promises.size := by
    simpa [beginForce] using inside_of_pending pending
  have still := settles.sustains.forcing ref inside (promise_beginForce pending)
  have different : other ≠ ref := by
    rintro rfl
    cases still.symm.trans forced
  exact (promise_withPromise_of_ne different).trans forced

end Force

end Machine

end Trampoline
