import Trampoline.Proofs.Evaluation.Tasks

/-!
# Steps that leave escape points alone

Two functions of the evaluator only touch escape points: the application that enters one and leaves
it again, and the application of an escape. All other steps on the machine are steady.
-/

namespace Trampoline

open Exec

/-- A step that neither enters nor leaves escape points, nor escapes. -/
def Exec.Steady {α : Type} (run : Run α) : Prop :=
  ∀ m result m', run m = some (result, m') ->
    m'.points = m.points ∧ ∀ error, result = .error error -> error.isEscape = false

namespace Exec.Steady

variable {α β : Type}

/-- A value changes no points. -/
@[simp] theorem pure (value : α) : Steady (pure value) := by
  rintro m result m' ⟨⟩
  exact ⟨rfl, by simp⟩

/-- A failure is steady unless it is an escape. -/
@[simp] theorem fail (error : EvalError) :
    Steady (fail error : Run α) ↔ error.isEscape = false := by
  constructor
  · intro steady
    exact (steady default _ _ rfl).2 error rfl
  · rintro plain m result m' ⟨⟩
    exact ⟨rfl, by rintro _ ⟨⟩; exact plain⟩

/-- Reading changes no points. -/
@[simp] theorem read (view : Machine -> α) : Steady (read view) := by
  rintro m result m' ⟨⟩
  exact ⟨rfl, by simp⟩

/-- A change is steady if it leaves the points. -/
theorem modify {change : Machine -> Machine} (same : ∀ m, (change m).points = m.points) :
    Steady (modify change) := by
  rintro m result m' ⟨⟩
  exact ⟨same m, by simp⟩

/-- Steady steps one after another are steady. -/
theorem bind {first : Run α} {next : α -> Run β} (steady : Steady first)
    (after : ∀ value, Steady (next value)) : Steady (first >>= next) := by
  intro m result m' ends
  rcases bind_eq_some.mp ends with ⟨value, middle, ran, rest⟩ | ⟨error, last, ran, equal⟩
  · obtain ⟨same, -⟩ := steady m _ _ ran
    obtain ⟨same', plain⟩ := after value middle _ _ rest
    exact ⟨same'.trans same, plain⟩
  · cases equal
    obtain ⟨same, plain⟩ := steady m _ _ ran
    refine ⟨same, ?_⟩
    rintro _ ⟨⟩
    exact plain error rfl

/-- Both ways have to be steady. -/
theorem ite {test : Prop} [Decidable test] {first second : Run α} (steady : Steady first)
    (steady' : Steady second) : Steady (if test then first else second) := by
  split
  · exact steady
  · exact steady'

@[simp] theorem tell (event : Event) : Steady (Run.tell event) := modify fun _ => rfl
@[simp] theorem setCell (ref : CellRef) (value : Value) : Steady (Run.setCell ref value) :=
  modify fun _ => rfl
@[simp] theorem setItems (ref : Nat) (items : List Value) : Steady (Run.setItems ref items) :=
  modify fun _ => rfl
@[simp] theorem pushItem (ref : Nat) (value : Value) : Steady (Run.pushItem ref value) :=
  modify fun _ => rfl
@[simp] theorem setPromise (ref : Nat) (state : Promise) : Steady (Run.setPromise ref state) :=
  modify fun _ => rfl
@[simp] theorem remember (cache : Nat) (key : List MemoKey) (value : Value) :
    Steady (Run.remember cache key value) :=
  modify fun _ => rfl
@[simp] theorem cached (cache : Nat) (key : List MemoKey) : Steady (Run.cached? cache key) :=
  read _
@[simp] theorem extentValid (ref : Nat) : Steady (Run.extentValid ref) := read _
@[simp] theorem pointRunning (tag : Nat) : Steady (Run.pointRunning tag) := read _

@[simp] theorem newCell (value : Value) : Steady (Run.newCell value) := by
  rintro m result m' ⟨⟩
  exact ⟨rfl, by simp⟩

/-- What is no function fails with an error that is no escape. -/
@[simp] theorem callable (value : Value) : Steady value.callable := by
  cases value <;> simp [Value.callable, EvalError.isEscape]

/-- Output fails with an error of its own, if it is closed. -/
@[simp] theorem write (text : String) : Steady (Run.write text) := by
  intro m result m' ends
  simp only [Run.write] at ends
  split at ends <;> cases ends <;> exact ⟨rfl, by simp [EvalError.isEscape]⟩

/-- A jump is taken, or is refused for having been taken. -/
@[simp] theorem takeJump (ref : Nat) : Steady (Run.takeJump ref) := by
  intro m result m' ends
  simp only [Run.takeJump] at ends
  split at ends <;> cases ends <;> exact ⟨rfl, by simp [EvalError.isEscape]⟩

/-- A name that is not bound fails with an error that is no escape. -/
@[simp] theorem lookup (name : String) (frame : Frame) :
    Steady (Body.run (Body.lookup name) frame) := by
  intro m result m' ends
  simp only [Body.run, Body.lookup] at ends
  split at ends
  · cases ends
  · rename_i ran
    split at ran <;> try split at ran
    all_goals
      cases ran
      cases ends
      exact ⟨rfl, by simp [EvalError.isEscape]⟩

/-- So does an assignment to such a name. -/
@[simp] theorem assign (name : String) (value : Value) (frame : Frame) :
    Steady (Body.run (Body.assign name value) frame) := by
  intro m result m' ends
  simp only [Body.run, Body.assign] at ends
  split at ends
  · cases ends
  · rename_i ran
    split at ran <;> try split at ran
    all_goals
      cases ran
      cases ends
      exact ⟨rfl, by simp [EvalError.isEscape]⟩

@[simp] theorem noKwargs (func : String) (kwargs : Kwargs) : Steady (noKwargs func kwargs) := by
  rcases kwargs with _ | ⟨⟨keyword, value⟩, rest⟩
  · exact pure ()
  · exact (fail _).mpr rfl

@[simp] theorem newJump (jump : Jump) : Steady (Run.newJump jump) := by
  rintro m result m' ⟨⟩
  exact ⟨rfl, by simp⟩

@[simp] theorem newPromise (thunk : Thunk) : Steady (Run.newPromise thunk) := by
  rintro m result m' ⟨⟩
  exact ⟨rfl, by simp⟩

theorem newList (items : List Value) : Steady (Run.newList items) := by
  rintro m result m' ⟨⟩
  exact ⟨rfl, by simp⟩

@[simp] theorem newHandle : Steady Run.newHandle := by
  rintro m result m' ⟨⟩
  exact ⟨rfl, by simp⟩

@[simp] theorem newIdentity : Steady Run.newIdentity := by
  rintro m result m' ⟨⟩
  exact ⟨rfl, by simp⟩

/-- Keyword arguments that fit no parameter fail with an error that is no escape. -/
theorem bindKeywords (func : String) (kwargs : Kwargs) (bound : List (String × Option Value)) :
    Steady (bindKeywords func kwargs bound) := by
  induction kwargs generalizing bound with
  | nil => exact pure bound
  | cons named rest ih =>
    simp only [Trampoline.bindKeywords]
    split
    · exact ih _
    · exact (fail _).mpr rfl

/-- Parameters without an argument do. -/
theorem bindCells (func : String) (bound : List (String × Option Value)) (env : Env) :
    Steady (bindCells func bound env) := by
  induction bound generalizing env with
  | nil => exact pure env
  | cons first rest ih =>
    rcases first with ⟨param, _ | value⟩
    · exact (fail _).mpr rfl
    · exact bind (newCell value) fun ref => ih _

/-- The scope of a call is made without entering or leaving a point. -/
@[simp] theorem parameterScope (signature : Signature) (env : Env) (args : List Value)
    (kwargs : Kwargs) :
    Steady (parameterScope signature env args kwargs) :=
  ite ((fail _).mpr rfl) (bind (bindKeywords _ _ _) fun bound => bindCells _ bound env)

/-- So is the scope of a resumption. -/
@[simp] theorem bindValues (params : List String) (values : List Value) (env : Env) :
    Steady (bindValues params values env) := by
  induction params generalizing values env with
  | nil => exact pure env
  | cons param params ih =>
    cases values with
    | nil => exact pure env
    | cons value values => exact bind (newCell value) fun ref => ih values _

/-- Wrappers are put on without entering a point; they enter it when they are applied. -/
theorem wrap (base : Callable) (wrappers : List Decorator) : Steady (wrap base wrappers) := by
  induction wrappers with
  | nil => exact pure base
  | cons wrapper inside ih =>
    refine bind ih fun inner => ?_
    cases wrapper with
    | memoize =>
      refine bind ?_ fun _ => pure _
      rintro m result m' ⟨⟩
      exact ⟨rfl, by simp⟩
    | _ => exact pure _

/-- A closure is made without entering a point. -/
@[simp] theorem makeClosure (function : Function) (frame : Frame) :
    Steady (expose (makeClosure function) frame) := by
  unfold Trampoline.makeClosure
  rw [expose_bind, expose_frame, pure_bind]
  cases function.signature.kind with
  | plain =>
    simp only [expose_bind, expose_within, expose_pure, bind_assoc, pure_bind]
    refine bind ?_ fun ref => bind (wrap _ _) fun callable => pure _
    rintro m result m' ⟨⟩
    exact ⟨rfl, by simp⟩
  | continuation =>
    simp only [expose_bind, expose_within, expose_pure, bind_assoc, pure_bind]
    refine bind ?_ fun extent => bind ?_ fun ref => bind (tell _) fun _ => pure _
    · intro m result m' ends
      simp only [expose, around, Body.captureExtent] at ends
      split at ends <;> cases ends <;> exact ⟨rfl, by simp [Except.map]⟩
    · rintro m result m' ⟨⟩
      exact ⟨rfl, by simp⟩

/-- A definition is made without entering a point. -/
@[simp] theorem defineToplevel (name : String) (value : Value) :
    Steady (defineToplevel name value) :=
  bind (tell _) fun _ => modify fun _ => rfl

/-! ### Natives -/

theorem int (op : Native) (value : Value) : Steady (Native.int op value) := by
  cases value <;> simp [Native.int, EvalError.isEscape]

theorem ints (op : Native) (values : List Value) : Steady (Native.ints op values) := by
  induction values with
  | nil => exact pure []
  | cons value rest ih => exact bind (int op value) fun _ => bind ih fun _ => pure _

theorem length (op : Native) (value : Value) : Steady (Native.length op value) := by
  cases value <;> simp [Native.length, EvalError.isEscape]

theorem pick (items : List Value) (index : Int64) : Steady (Native.pick items index) := by
  refine ite ((fail _).mpr rfl) ?_
  cases items[index.toInt.toNat]? with
  | some value => exact pure value
  | none => exact (fail _).mpr rfl

theorem compareInts (op : Native) (test : Int64 -> Int64 -> Bool) (args : List Value) :
    Steady (Native.compareInts op test args) :=
  bind (int op _) fun _ => bind (int op _) fun _ => pure _

theorem divideInts (op : Native) (divide : Int64 -> Int64 -> Int64) (args : List Value) :
    Steady (Native.divideInts op divide args) :=
  bind (int op _) fun _ => ite ((fail _).mpr rfl) (bind (int op _) fun _ => pure _)

theorem difference (values : List Int64) : Steady (Native.difference values) := by
  rcases values with _ | ⟨first, _ | ⟨second, rest⟩⟩
  · exact (fail _).mpr rfl
  · exact pure _
  · exact pure _

/-- Natives that only compute are steady. -/
theorem compute {op : Native} {args : List Value} {run : Run Value}
    (computes : op.compute? args = some run) : Steady run := by
  cases op <;> cases computes
  case add | mul => exact bind (ints _ _) fun _ => pure _
  case sub => exact bind (ints _ _) difference
  case div | rem => exact divideInts _ _ _
  case eq => exact read _
  case lt | gt | le | ge => exact compareInts _ _ _
  case not | tuple | values | typeOf => exact pure _
  case list => exact newList _
  case len => exact bind (length _ _) fun _ => pure _
  case push =>
    simp only
    split
    · exact bind (pushItem _ _) fun _ => pure _
    · exact (fail _).mpr rfl
  case nth =>
    refine bind (int _ _) fun index => ?_
    split
    · exact bind (read _) fun _ => pick _ _
    · exact pick _ _
    · exact (fail _).mpr rfl

end Exec.Steady

end Trampoline
