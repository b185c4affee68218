import Trampoline.Machine.State

/-!
# Computations in the order of their answers

A computation lies below another if the other gives every answer that it gives. Everything that
computations are built with keeps this order, so more fuel never changes an answer. Two shapes
cover what is built from one computation: `around` changes the state on the way in and the outcome
on the way out, and `settle` goes on with an outcome whatever it is.
-/

namespace Trampoline

/-- How a computation ends: with a value or an error, and with a state. -/
abbrev Outcome (σ α : Type) : Type := Except EvalError α × σ

namespace Exec

variable {σ τ α β γ : Type}

instance : LE (Exec σ α) where
  le first second := ∀ state outcome, first state = some outcome -> second state = some outcome

theorem le_refl (run : Exec σ α) : run ≤ run := fun _ _ ended => ended

variable {first second : Exec σ α} {next : α -> Exec σ β} {state : σ} {outcome : Outcome σ β}

theorem le_trans {third : Exec σ α} (lower : first ≤ second)
    (upper : second ≤ third) : first ≤ third :=
  fun state outcome ended => upper state outcome (lower state outcome ended)

theorem le_of_eq (equal : first = second) : first ≤ second :=
  equal ▸ le_refl first

theorem outOfFuel_le (run : Exec σ α) : outOfFuel ≤ run := by
  intro state outcome ended
  cases ended

/-- Two steps end where the second ends, or where the first fails. -/
theorem bind_eq_some : (first >>= next) state = some outcome ↔
      (∃ value middle, first state = some (.ok value, middle) ∧
        next value middle = some outcome) ∨
      ∃ error last, first state = some (.error error, last) ∧ outcome = (.error error, last) := by
  show Exec.bind first next state = some outcome ↔ _
  unfold Exec.bind
  cases ends : first state with
  | none => simp
  | some ended =>
    obtain ⟨result, middle⟩ := ended
    cases result with
    | ok value =>
      constructor
      · intro rest
        exact .inl ⟨value, middle, rfl, rest⟩
      · rintro (⟨_, _, ⟨⟩, rest⟩ | ⟨_, _, ⟨⟩, _⟩)
        exact rest
    | error error =>
      constructor
      · intro equal
        exact .inr ⟨error, middle, rfl, (Option.some.inj equal).symm⟩
      · rintro (⟨_, _, ⟨⟩, _⟩ | ⟨_, _, ⟨⟩, equal⟩)
        rw [equal]

/-- Two steps end well if both do. -/
theorem bind_eq_ok {last : σ} {value : β} : (first >>= next) state = some (.ok value, last) ↔
      ∃ value' middle, first state = some (.ok value', middle) ∧
        next value' middle = some (.ok value, last) := by
  rw [bind_eq_some]
  constructor
  · rintro (ends | ⟨_, _, _, ⟨⟩⟩)
    exact ends
  · exact .inl

/-- What comes after a computation that ends with a value. -/
theorem bind_apply {middle : σ} {value : α}
    (ends : first state = some (.ok value, middle)) (next : α -> Exec σ β) :
    (first >>= next) state = next value middle := by
  show Exec.bind first next state = next value middle
  unfold Exec.bind
  rw [ends]

@[simp] theorem pure_apply (value : α) (state : σ) :
    (pure value : Exec σ α) state = some (.ok value, state) := rfl

@[simp] theorem fail_apply (error : EvalError) (state : σ) :
    (fail error : Exec σ α) state = some (.error error, state) := rfl

/-- Steps one after another are below others that are above them one by one. -/
theorem bind_le {later : α -> Exec σ β} (lower : first ≤ second)
    (after : ∀ value, next value ≤ later value) : first >>= next ≤ second >>= later := by
  intro state outcome ended
  rw [bind_eq_some] at ended ⊢
  rcases ended with ⟨value, middle, ends, rest⟩ | ⟨error, last, ends, equal⟩
  · exact .inl ⟨value, middle, lower _ _ ends, after value _ _ rest⟩
  · exact .inr ⟨error, last, lower _ _ ends, equal⟩

instance : LawfulMonad (Exec σ) :=
  LawfulMonad.mk' _
    (fun run => by
      funext state
      show Exec.bind run (fun value => pure value) state = run state
      unfold Exec.bind
      rcases run state with _ | ⟨_ | _, _⟩ <;> rfl)
    (fun _ _ => rfl)
    (fun first next later => by
      funext state
      show Exec.bind (Exec.bind first next) later state =
        Exec.bind first (fun value => Exec.bind (next value) later) state
      unfold Exec.bind
      rcases first state with _ | ⟨_ | _, _⟩ <;> rfl)

/-- A choice is below another one that is above it on both ways. -/
theorem ite_le {test : Prop} [Decidable test] {next later : Exec σ α}
    (lower : first ≤ second) (after : next ≤ later) :
    (if test then first else next) ≤ if test then second else later := by
  by_cases holds : test
  · rwa [if_pos holds, if_pos holds]
  · rwa [if_neg holds, if_neg holds]

/-- Run a computation in another state, and take its outcome back. -/
def around (enter : τ -> σ) (leave : τ -> Outcome σ α -> Outcome τ β) (run : Exec σ α) :
    Exec τ β :=
  fun state => (run (enter state)).map (leave state)

/-- Go on with the outcome of a computation, a value or an error. -/
def settle (first : Exec σ α) (next : Except EvalError α -> Exec σ β) : Exec σ β := fun state =>
  match first state with
  | none => none
  | some (result, state) => next result state

/-- So is a computation with something around it. -/
theorem around_le {enter : τ -> σ} {leave : τ -> Outcome σ α -> Outcome τ β}
    (lower : first ≤ second) : around enter leave first ≤ around enter leave second := by
  intro state outcome ended
  simp only [around, Option.map_eq_some_iff] at ended ⊢
  obtain ⟨inner, ends, equal⟩ := ended
  exact ⟨inner, lower _ _ ends, equal⟩

/-- What is settled ends where what settles its result ends. -/
theorem settle_eq_some {next : Except EvalError α -> Exec σ β} :
    settle first next state = some outcome ↔
      ∃ result middle, first state = some (result, middle) ∧ next result middle = some outcome := by
  unfold settle
  cases ends : first state with
  | none => simp
  | some ended =>
    obtain ⟨result, middle⟩ := ended
    constructor
    · intro rest
      exact ⟨result, middle, rfl, rest⟩
    · rintro ⟨_, _, ⟨⟩, rest⟩
      exact rest

/-- What is settled is below what is settled above it. -/
theorem settle_le {next later : Except EvalError α -> Exec σ β}
    (lower : first ≤ second) (after : ∀ result, next result ≤ later result) :
    settle first next ≤ settle second later := by
  intro state outcome ended
  rw [settle_eq_some] at ended ⊢
  obtain ⟨result, middle, ends, rest⟩ := ended
  exact ⟨result, middle, lower _ _ ends, after result _ _ rest⟩

/-- A computation on the machine inside a body keeps the frame. -/
theorem within_eq_around (run : Run α) :
    run.within = around Activation.machine
      (fun activation outcome => (outcome.1, ⟨activation.frame, outcome.2⟩)) run := by
  funext activation
  obtain ⟨frame, machine⟩ := activation
  simp only [Run.within, around]
  split <;> simp_all

/-- A body in a frame of its own gives back the machine. -/
theorem bodyRun_eq_around (body : Body α) (frame : Frame) :
    body.run frame = around (fun machine => ⟨frame, machine⟩)
      (fun _ outcome => (outcome.1, outcome.2.machine)) body := by
  funext machine
  simp only [Body.run, around]
  split <;> simp_all

/-- A block ends with the names that it began with. -/
theorem inBlock_eq_around (body : Body α) :
    body.inBlock = around id
      (fun activation outcome => (outcome.1,
        ⟨{ outcome.2.frame with env := activation.frame.env }, outcome.2.machine⟩)) body := by
  funext activation
  simp only [Body.inBlock, around, id]
  split <;> simp_all

/-- The state in which a guarded operation leaves the machine. -/
def guardedState (mark : Nat) (outcome : Outcome Machine α) : Machine :=
  match outcome.1 with
  | .ok _ => outcome.2.unwindTo mark
  | .error error =>
    if error.isEscape then outcome.2.unwindTo mark
    else (outcome.2.invalidateFrom mark).unwindTo mark

/-- A guarded run is one around which extents are looked after. -/
theorem guarded_eq_around (run : Run α) :
    run.guarded = around id
      (fun machine outcome => (outcome.1, guardedState machine.stack.size outcome)) run := by
  funext machine
  simp only [Run.guarded, around, id, guardedState]
  cases ends : run machine with
  | none => rfl
  | some ended =>
    obtain ⟨result, last⟩ := ended
    cases result with
    | ok value => rfl
    | error error =>
      by_cases escapes : error.isEscape <;> simp [escapes]

/-- A guarded operation ends as the operation does. -/
theorem guarded_eq_some {run : Run α} {m m' : Machine} {result : Except EvalError α} :
    run.guarded m = some (result, m') ↔
      ∃ last, run m = some (result, last) ∧ m' = guardedState m.stack.size (result, last) := by
  rw [guarded_eq_around]
  simp only [around, id, Option.map_eq_some_iff]
  constructor
  · rintro ⟨⟨inner, last⟩, ran, ⟨⟩⟩
    exact ⟨last, ran, rfl⟩
  · rintro ⟨last, ran, rfl⟩
    exact ⟨_, ran, rfl⟩

/-- Leaving a guarded operation does not change what handlers let pass. -/
theorem guardedState_passed (mark : Nat) (result : Except EvalError α) (machine : Machine) :
    (guardedState mark (result, machine)).passed = machine.passed := by
  cases result with
  | ok value => rfl
  | error error =>
    simp only [guardedState]
    split <;> rfl

/-- A body in a frame of its own, with the frame that it ends in. -/
def expose (body : Body α) (frame : Frame) : Run (α × Frame) :=
  around (fun machine => ⟨frame, machine⟩)
    (fun _ outcome => (outcome.1.map (·, outcome.2.frame), outcome.2.machine)) body

/-- Bodies one after another hand on the frame. -/
theorem bodyRun_bind (body : Body α) (next : α -> Body β) (frame : Frame) :
    Body.run (body >>= next) frame =
      expose body frame >>= fun result => (next result.1).run result.2 := by
  funext machine
  show Body.run (Exec.bind body next) frame machine =
    Exec.bind (expose body frame) (fun result => (next result.1).run result.2) machine
  simp only [Body.run, Exec.bind, expose, around]
  rcases body ⟨frame, machine⟩ with _ | ⟨_ | value, frame', machine'⟩
  · rfl
  · rfl
  · rfl

/-- What a block forgets is not seen in its value. -/
theorem bodyRun_inBlock (body : Body α) (frame : Frame) :
    Body.run body.inBlock frame = body.run frame := by
  funext machine
  simp only [Body.run, Body.inBlock]
  rcases body ⟨frame, machine⟩ with _ | ⟨result, activation⟩ <;> rfl

/-- A step that leaves the frame alone may be run first. -/
theorem bodyRun_within_bind (run : Run α) (next : α -> Body β) (frame : Frame) :
    Body.run (run.within >>= next) frame = run >>= fun value => (next value).run frame := by
  funext machine
  show Body.run (Exec.bind run.within next) frame machine =
    Exec.bind run (fun value => (next value).run frame) machine
  simp only [Body.run, Run.within, Exec.bind]
  rcases run machine with _ | ⟨_ | value, last⟩ <;> rfl

/-- It may be run last, on what the body comes to. -/
theorem bodyRun_bind_within (body : Body α) (next : α -> Run β) (frame : Frame) :
    Body.run (body >>= fun value => (next value).within) frame = Body.run body frame >>= next := by
  funext machine
  show Body.run (Exec.bind body fun value => (next value).within) frame machine =
    Exec.bind (Body.run body frame) next machine
  simp only [Body.run, Run.within, Exec.bind]
  rcases body ⟨frame, machine⟩ with _ | ⟨_ | value, frame', machine'⟩
  · rfl
  · rfl
  · simp only
    rcases next value machine' with _ | ⟨_ | value, last⟩ <;> rfl

/-- It may be run by itself. -/
theorem bodyRun_within (run : Run α) (frame : Frame) : Body.run run.within frame = run := by
  funext machine
  simp only [Body.run, Run.within]
  rcases run machine with _ | ⟨result, last⟩ <;> rfl

/-- Steps that leave the frame alone may be taken as one. -/
theorem within_bind (run : Run α) (next : α -> Run β) :
    Run.within (run >>= next) = Run.within run >>= fun value => Run.within (next value) := by
  funext activation
  obtain ⟨frame, machine⟩ := activation
  show Run.within (Exec.bind run next) ⟨frame, machine⟩ =
    Exec.bind run.within (fun value => (next value).within) ⟨frame, machine⟩
  simp only [Run.within, Exec.bind]
  rcases run machine with _ | ⟨_ | value, last⟩ <;> rfl

theorem within_le {first second : Run α} (lower : first ≤ second) :
    first.within ≤ second.within := by
  rw [within_eq_around, within_eq_around]
  exact around_le lower

theorem bodyRun_le {first second : Body α} (lower : first ≤ second) (frame : Frame) :
    first.run frame ≤ second.run frame := by
  rw [bodyRun_eq_around, bodyRun_eq_around]
  exact around_le lower

/-- A block is below others as its items are. -/
theorem inBlock_le {first second : Body α} (lower : first ≤ second) :
    first.inBlock ≤ second.inBlock := by
  rw [inBlock_eq_around, inBlock_eq_around]
  exact around_le lower

/-- A guarded run is below others as it is by itself. -/
theorem guarded_le {first second : Run α} (lower : first ≤ second) :
    first.guarded ≤ second.guarded := by
  rw [guarded_eq_around, guarded_eq_around]
  exact around_le lower

end Exec

end Trampoline
