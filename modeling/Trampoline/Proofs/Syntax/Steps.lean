import Mathlib.Data.List.Forall2

/-!
# Steps with a state that may fail

What a step makes, whatever the state it starts in. A step that is not fallible ends with a value;
a fallible one may also end with an error.
-/

namespace Trampoline

/-- The step ends with a value as asked, or fails if it may. -/
structure Produces {σ ε α : Type} (fallible : Prop) (step : StateT σ (Except ε) α)
    (post : α -> Prop) : Prop where
  ends : ∀ state, (∃ value later, step.run state = .ok (value, later) ∧ post value) ∨
    (fallible ∧ ∃ error, step.run state = .error error)

namespace Produces

variable {σ ε α β : Type} {fallible : Prop} {step : StateT σ (Except ε) α} {post : α -> Prop}

variable {value : α}

theorem pure (holds : post value) : Produces fallible (pure value : StateT σ (Except ε) α) post :=
  ⟨fun state => .inl ⟨value, state, rfl, holds⟩⟩

/-- What steps produce one after the other is what the last produces. -/
theorem bind {next : α -> StateT σ (Except ε) β} {mid : α -> Prop} {post : β -> Prop}
    (first : Produces fallible step mid)
    (after : ∀ value, mid value -> Produces fallible (next value) post) :
    Produces fallible (step >>= next) post := by
  constructor
  intro state
  rw [StateT.run_bind]
  rcases first.ends state with ⟨value, later, ends, holds⟩ | ⟨may, error, ends⟩
  · rw [ends]
    exact (after value holds).ends later
  · rw [ends]
    exact .inr ⟨may, error, rfl⟩

theorem imp {stronger : α -> Prop} (produces : Produces fallible step stronger)
    (implies : ∀ value, stronger value -> post value) : Produces fallible step post :=
  ⟨fun state => (produces.ends state).imp_left fun ⟨value, later, ends, holds⟩ =>
    ⟨value, later, ends, implies value holds⟩⟩

/-- What is produced in two ways is both. -/
theorem and {other : α -> Prop} (produces : Produces fallible step post)
    (produces' : Produces fallible step other) :
    Produces fallible step fun value => post value ∧ other value := by
  constructor
  intro state
  rcases produces.ends state with ⟨value, later, ends, holds⟩ | failed
  · rcases produces'.ends state with ⟨value', later', ends', holds'⟩ | failed
    · cases ends.symm.trans ends'
      exact .inl ⟨value, later, ends, holds, holds'⟩
    · exact .inr failed
  · exact .inr failed

/-- What ended with a value ended as asked. -/
theorem of_ok (produces : Produces fallible step post) {state later : σ}
    (ends : step.run state = .ok (value, later)) : post value := by
  rcases produces.ends state with ⟨other, last, ends', holds⟩ | ⟨_, error, ends'⟩
  · cases ends.symm.trans ends'
    exact holds
  · cases ends.symm.trans ends'

end Produces

/-- The step can end with the value. -/
def Makes {σ ε α : Type} (step : StateT σ (Except ε) α) (value : α) : Prop :=
  ∃ state later, step.run state = .ok (value, later)

variable {σ ε α β : Type} {step : StateT σ (Except ε) α} {value : α}

/-- What a step makes is what it produces. -/
theorem Makes.of {fallible : Prop}
    {post : α -> Prop} (makes : Makes step value) (produces : Produces fallible step post) :
    post value :=
  makes.elim fun _ ⟨_, ends⟩ => produces.of_ok ends

/-- A value makes itself. -/
theorem Makes.pure {made : α}
    (makes : Makes (pure value : StateT σ (Except ε) α) made) : made = value := by
  obtain ⟨_, _, ⟨⟩⟩ := makes
  rfl

/-- What is made in two steps is made by the second from what the first made. -/
theorem Makes.bind {next : α -> StateT σ (Except ε) β} {value : β}
    (makes : Makes (step >>= next) value) :
    ∃ first, Makes step first ∧ Makes (next first) value := by
  obtain ⟨state, later, ends⟩ := makes
  rw [StateT.run_bind] at ends
  cases run : step.run state with
  | error error => simp [run, Bind.bind, Except.bind] at ends
  | ok result =>
    rw [run] at ends
    exact ⟨result.1, ⟨state, result.2, run⟩, result.2, later, ends⟩

theorem Makes.map (makes : Makes step value) (f : α -> β) : Makes (f <$> step) (f value) := by
  obtain ⟨state, later, ends⟩ := makes
  refine ⟨state, later, ?_⟩
  rw [map_eq_pure_bind, StateT.run_bind, ends]
  rfl

/-- A step produces what it makes. -/
theorem Produces.makes (step : StateT σ (Except ε) α) : Produces True step (Makes step) := by
  constructor
  intro state
  cases ends : step.run state with
  | ok result => exact .inl ⟨result.1, result.2, rfl, state, result.2, ends⟩
  | error error => exact .inr ⟨trivial, error, rfl⟩

/-- Nothing need be said of what a step produces. -/
theorem Produces.any (step : StateT σ (Except ε) α) : Produces True step fun _ => True :=
  (Produces.makes step).imp fun _ _ => trivial

/-- Where the step ends with a value, it ends with that value in any state. -/
def Uniform {σ ε α : Type} (step : StateT σ (Except ε) α) : Prop :=
  ∀ value, Makes step value -> Produces False step (· = value)

namespace Uniform

variable {σ ε α β : Type} {step : StateT σ (Except ε) α}

theorem pure (value : α) : Uniform (pure value : StateT σ (Except ε) α) := by
  rintro _ ⟨_, _, ⟨⟩⟩
  exact .pure rfl

theorem bind {next : α -> StateT σ (Except ε) β} (first : Uniform step)
    (second : ∀ value, Uniform (next value)) : Uniform (step >>= next) := by
  intro value makes
  obtain ⟨middle, made, makes⟩ := makes.bind
  refine .bind (first middle made) ?_
  rintro _ rfl
  exact second _ value makes

end Uniform

/-- The step ends with a value as asked if the condition holds, and fails if it does not. -/
def EndsIff {σ ε α : Type} (condition : Prop) (step : StateT σ (Except ε) α) (post : α -> Prop) :
    Prop :=
  Produces (¬condition) step fun value => condition ∧ post value

namespace EndsIff

variable {σ ε α β : Type} {condition : Prop} {step : StateT σ (Except ε) α} {post : α -> Prop}

/-- A value always ends. -/
theorem pure {value : α} (holds : post value) :
    EndsIff True (pure value : StateT σ (Except ε) α) post :=
  Produces.pure ⟨trivial, holds⟩

variable {condition' : Prop}

/-- When a step ends may be said in another way. -/
theorem iff (same : condition' ↔ condition)
    (endsIff : EndsIff condition step post) : EndsIff condition' step post :=
  propext same ▸ endsIff

/-- A step that always fails. -/
theorem fails (never : ¬condition) (fails : Produces True step fun _ => False) :
    EndsIff condition step post :=
  ⟨fun state => (fails.ends state).imp (fun ⟨_, _, _, absurd⟩ => absurd.elim)
    fun ⟨_, error⟩ => ⟨never, error⟩⟩

/-- Steps one after the other end if both do. -/
theorem bind {next : α -> StateT σ (Except ε) β} {post' : β -> Prop}
    (first : EndsIff condition step post)
    (second : ∀ value, post value -> EndsIff condition' (next value) post') :
    EndsIff (condition ∧ condition') (step >>= next) post' := by
  constructor
  intro state
  rw [StateT.run_bind]
  rcases first.ends state with ⟨value, later, ends, may, holds⟩ | ⟨never, error, ends⟩
  · rw [ends]
    rcases (second value holds).ends later with
      ⟨value', last, ends', may', holds'⟩ | ⟨never, error, ends'⟩
    · exact .inl ⟨value', last, ends', ⟨may, may'⟩, holds'⟩
    · exact .inr ⟨fun both => never both.2, error, ends'⟩
  · rw [ends]
    exact .inr ⟨fun both => never both.1, error, rfl⟩

theorem imp {post' : α -> Prop} (endsIff : EndsIff condition step post)
    (implies : ∀ value, post value -> post' value) : EndsIff condition step post' :=
  Produces.imp endsIff fun value => And.imp_right (implies value)

end EndsIff

/-! ## Steps side by side -/

/-- Either both steps fail, or they end in the same state with values that are related. -/
def Alongside {σ ε ε' α β : Type} (related : α -> β -> Prop) (step : StateT σ (Except ε) α)
    (step' : StateT σ (Except ε') β) : Prop :=
  ∀ state, (∃ error error', step.run state = .error error ∧ step'.run state = .error error') ∨
    ∃ value value' later, step.run state = .ok (value, later) ∧
      step'.run state = .ok (value', later) ∧ related value value'

namespace Alongside

variable {σ ε ε' ε'' α β γ δ : Type} {related : α -> β -> Prop} {step : StateT σ (Except ε) α}
  {step' : StateT σ (Except ε') β}

theorem pure {value : α} {value' : β} (holds : related value value') :
    Alongside related (pure value : StateT σ (Except ε) α) (pure value' : StateT σ (Except ε') β) :=
  fun state => .inr ⟨value, value', state, rfl, rfl, holds⟩

/-- Steps one after the other run alongside others if each does. -/
theorem bind {next : α -> StateT σ (Except ε) γ} {next' : β -> StateT σ (Except ε') δ}
    {later : γ -> δ -> Prop} (first : Alongside related step step')
    (second : ∀ value value', related value value' -> Alongside later (next value) (next' value')) :
    Alongside later (step >>= next) (step' >>= next') := by
  intro state
  rw [StateT.run_bind, StateT.run_bind]
  rcases first state with ⟨_, _, fails, fails'⟩ | ⟨value, value', middle, ends, ends', holds⟩
  · rw [fails, fails']
    exact .inl ⟨_, _, rfl, rfl⟩
  · rw [ends, ends']
    exact second value value' holds middle

theorem imp {weaker : α -> β -> Prop} (along : Alongside related step step')
    (implies : ∀ value value', related value value' -> weaker value value') :
    Alongside weaker step step' :=
  fun state => (along state).imp_right fun ⟨value, value', later, ends, ends', holds⟩ =>
    ⟨value, value', later, ends, ends', implies value value' holds⟩

theorem symm (along : Alongside related step step') :
    Alongside (fun value' value => related value value') step' step :=
  fun state =>
    (along state).imp (fun ⟨error, error', fails, fails'⟩ => ⟨error', error, fails', fails⟩)
    fun ⟨value, value', later, ends, ends', holds⟩ => ⟨value', value, later, ends', ends, holds⟩

/-- A step runs alongside what runs alongside another. -/
theorem trans {step'' : StateT σ (Except ε'') γ} {related' : β -> γ -> Prop}
    (along : Alongside related step step') (along' : Alongside related' step' step'') :
    Alongside (fun value value'' => ∃ value', related value value' ∧ related' value' value'')
      step step'' := by
  intro state
  rcases along state with ⟨_, _, fails, fails'⟩ | ⟨value, value', later, ends, ends', holds⟩
  · rcases along' state with ⟨_, _, _, fails''⟩ | ⟨_, _, _, ends', _, _⟩
    · exact .inl ⟨_, _, fails, fails''⟩
    · cases fails'.symm.trans ends'
  · rcases along' state with ⟨_, _, fails', _⟩ | ⟨_, value'', _, ends'', ended, holds'⟩
    · cases ends'.symm.trans fails'
    · cases ends'.symm.trans ends''
      exact .inr ⟨value, value'', later, ends, ended, value', holds, holds'⟩

/-- Steps that both fail. -/
theorem of_never (never : Produces True step fun _ => False)
    (never' : Produces True step' fun _ => False) : Alongside related step step' := by
  intro state
  rcases never.ends state with ⟨_, _, _, absurd⟩ | ⟨_, error, fails⟩
  · exact absurd.elim
  rcases never'.ends state with ⟨_, _, _, absurd⟩ | ⟨_, error', fails'⟩
  · exact absurd.elim
  exact .inl ⟨error, error', fails, fails'⟩

end Alongside

/-! ## Runs -/

section Runs

variable {σ ε α β : Type} {state later : σ}

variable {step : StateT σ (Except ε) α} {next : α -> StateT σ (Except ε) β}

/-- Two steps end well if each does. -/
theorem run_bind_ok {value : β} (ends : (step >>= next).run state = .ok (value, later)) :
    ∃ first middle, step.run state = .ok (first, middle) ∧
      (next first).run middle = .ok (value, later) := by
  rw [StateT.run_bind] at ends
  cases run : step.run state with
  | error error => simp [run, Bind.bind, Except.bind] at ends
  | ok result =>
    rw [run] at ends
    exact ⟨result.1, result.2, rfl, ends⟩

/-- The step leaves the state as it is. -/
def Still (step : StateT σ (Except ε) α) : Prop :=
  ∀ state value later, step.run state = .ok (value, later) -> later = state

theorem Still.pure (value : α) : Still (pure value : StateT σ (Except ε) α) := by
  rintro state _ _ ⟨⟩
  rfl

theorem Still.bind (first : Still step) (second : ∀ value, Still (next value)) :
    Still (step >>= next) := by
  intro state value later ends
  obtain ⟨mid, middle, ran, ends⟩ := run_bind_ok ends
  rw [second mid middle value later ends, first state mid middle ran]

theorem Still.mapM {γ : Type} {read : γ -> StateT σ (Except ε) α} (each : ∀ item, Still (read item))
    (items : List γ) : Still (items.mapM read) := by
  induction items with
  | nil => exact .pure []
  | cons item rest ih =>
    rw [List.mapM_cons]
    exact .bind (each item) fun _ => .bind ih fun _ => .pure _

end Runs

end Trampoline
