import Trampoline.Proofs.Jumps.Values

/-!
# Jumps are taken once

While evaluation goes on, at most one record waits for a trampoline: the one that is being returned.
Every task that gets it hands it on or takes it, and no task is begun while it is kept aside.
-/

namespace Trampoline

open Exec

/-- What is returned while our own record waits: its jump; and something without jumps if none
does. -/
def Value.Carries (value : Value) : Option Nat -> Prop
  | none => value.Jumpless
  | some ref => value = .jump ref

/-- What is returned without a jump carries no record. -/
theorem Value.Carries.eq_none {value : Value} {own : Option Nat} (carries : value.Carries own)
    (jumpless : value.Jumpless) : own = none := by
  cases own with
  | none => rfl
  | some ref =>
    obtain rfl : value = .jump ref := carries
    exact jumpless.elim

/-- What a task relies on. -/
@[reducible]
def Task.Linear : Task -> Option Nat -> Prop
  | eval e _, own | evalForced e _, own => e.Obeys .dressed true ∧ own = none
  | evalContinuation cc _, own => (∀ e ∈ cc, e.Obeys .dressed false) ∧ own = none
  | operand _ e _, own | delayed e _, own => e.Obeys .dressed false ∧ own = none
  | operands _ es _, own => AllObey .dressed es ∧ own = none
  | keywords _ es _, own => AllNamedObey .dressed es ∧ own = none
  | evalArms arms alt _, own =>
    ArmsObey .dressed true arms ∧ (∀ e ∈ alt, e.Obeys .dressed true) ∧ own = none
  | evalShort _ es last _, own | evalItems es last _, own =>
    LastObeys .dressed true es ∧ last.Carries own ∧ (es ≠ [] -> own = none)
  | evalLoop test body _, own => test.Obeys .dressed false ∧ body.Obeys .dressed false ∧ own = none
  | force value, own | trampoline _ value, own | runJumps _ value, own => value.Carries own
  | takeStep _ ref, own => own = some ref
  | runThunk thunk, own => thunk.Jumpless ∧ own = none
  | forceDeep value, own => value.Jumpless ∧ own = none
  | apply callable args kwargs, own | call callable args kwargs, own =>
    callable.Obeys true ∧ AllJumpless args ∧ NamedJumpless kwargs ∧ own = none
  | forceForStrict _ _ args kwargs, own => AllJumpless args ∧ NamedJumpless kwargs ∧ own = none
  | forceAll values, own | forceArgs values, own | forceKeys values, own | shownDeep values, own
  | applyNative _ values, own => AllJumpless values ∧ own = none
  | forceKwargs kwargs, own | forceKwargKeys kwargs, own => NamedJumpless kwargs ∧ own = none

/-- What a task answers: only bodies that may end with a jump come to one. -/
@[reducible]
def Task.Answers : (task : Task) -> task.Answer -> Option Nat -> Prop
  | eval e _, (value, _), own | evalForced e _, (value, _), own =>
    value.Carries own ∧ (e.Obeys .dressed false -> own = none)
  | evalContinuation _ _, (cc, _), own => (∀ value ∈ cc, value.Jumpless) ∧ own = none
  | operand _ _ _, (value, _), own | delayed _ _, (value, _), own => value.Jumpless ∧ own = none
  | operands _ _ _, (values, _), own => AllJumpless values ∧ own = none
  | keywords _ _ _, (kwargs, _), own => NamedJumpless kwargs ∧ own = none
  | evalArms arms alt _, (value, _), own => value.Carries own ∧
    (ArmsObey .dressed false arms -> (∀ e ∈ alt, e.Obeys .dressed false) -> own = none)
  | evalShort _ es last _, (value, _), own | evalItems es last _, (value, _), own =>
    value.Carries own ∧ (LastObeys .dressed false es -> last.Jumpless -> own = none)
  | evalLoop _ _ _, (value, _), own => value.Jumpless ∧ own = none
  | force first, value, own => value.Carries own ∧ (first.Jumpless -> own = none)
  | takeStep _ _, value, own => value.Carries own
  | apply callable _ _, value, own => value.Carries own ∧ (callable.Obeys false -> own = none)
  | runThunk _, value, own | forceDeep _, value, own | call _ _ _, value, own
  | trampoline _ _, value, own | runJumps _ _, value, own | applyNative _ _, value, own =>
    value.Jumpless ∧ own = none
  | forceForStrict _ _ _ _, (args, kwargs), own =>
    AllJumpless args ∧ NamedJumpless kwargs ∧ own = none
  | forceAll _, values, own | forceArgs _, values, own | forceKeys _, (values, _), own =>
    AllJumpless values ∧ own = none
  | forceKwargs _, kwargs, own | forceKwargKeys _, (kwargs, _), own =>
    NamedJumpless kwargs ∧ own = none
  | shownDeep _, _, own => own = none

/-- At most one record waits, and it is our own. -/
@[reducible]
def linearity : Contract (Option Nat) where
  holds own m := m.Owes own
  fails error own := error.Jumpless ∧ own = none
  asks := Task.Linear
  answers := Task.Answers
  unwinds _ _ _ _ owes := ⟨{ owes.clean with }, owes.waits⟩

/-! ## Steps on the machine -/

section Steps

variable {α : Type} {own : Option Nat} {m m' : Machine}

/-- A machine owes as much as another with the same records. -/
theorem Machine.Owes.of_same (owes : m.Owes own) (same : m'.jumps = m.jumps) (clean : m'.Clean) :
    m'.Owes own where
  clean := clean
  waits ref := by
    rw [Machine.jump, same]
    exact owes.waits ref

namespace Exec.Ensures

variable {post : α -> Prop}

/-- A step that succeeds, and neither makes nor takes a record. -/
theorem keeps {run : Run α} (moves : ∀ m, m.Clean -> ∃ value m',
    run m = some (.ok value, m') ∧ m'.jumps = m.jumps ∧ m'.Clean ∧ post value) :
    Ensures linearity own run fun value own' => post value ∧ own' = own := by
  refine of_moves fun m owes => ?_
  obtain ⟨value, m', ran, same, clean, holds⟩ := moves m owes.clean
  exact ⟨value, m', ran, own, ⟨holds, rfl⟩, owes.of_same same clean⟩

/-- A change that leaves the records leaves what is owed. -/
theorem modifies {change : Machine -> Machine} (same : ∀ m, (change m).jumps = m.jumps)
    (clean : ∀ m, m.Clean -> (change m).Clean) :
    Ensures linearity own (modify change) fun _ own' => own' = own := by
  have moves : Ensures linearity own (modify change) fun _ own' => True ∧ own' = own :=
    keeps fun m ofM => ⟨(), change m, rfl, same m, clean m ofM, trivial⟩
  exact moves.imp fun _ _ holds => holds.2

/-- Reading a machine leaves what is owed. -/
theorem reads {view : Machine -> α} (holds : ∀ m, m.Clean -> post (view m)) :
    Ensures linearity own (read view) fun value own' => post value ∧ own' = own :=
  keeps fun m clean => ⟨view m, m, rfl, rfl, clean, holds m clean⟩

variable {error : EvalError} {value : Value} {items values args : List Value}
  {bound : List (String × Option Value)} {kwargs : Kwargs} {count : Nat}

/-- A failure leaves no record behind. -/
theorem failing {post : α -> Option Nat -> Prop} (jumpless : error.Jumpless) :
    Ensures linearity none (Exec.fail error) post :=
  .fail ⟨jumpless, rfl⟩

/-! ### Numbers -/

theorem newClosure : Ensures linearity own Run.newClosure fun _ own' => True ∧ own' = own :=
  keeps fun _ clean => ⟨_, _, rfl, rfl, { clean with }, trivial⟩

theorem newContinuation :
    Ensures linearity own Run.newContinuation fun _ own' => True ∧ own' = own :=
  keeps fun _ clean => ⟨_, _, rfl, rfl, { clean with }, trivial⟩

theorem newIdentity : Ensures linearity own Run.newIdentity
    fun callable own' => callable.Obeys false ∧ own' = own :=
  keeps fun _ clean => ⟨_, _, rfl, rfl, { clean with }, trivial⟩

theorem enterPoint : Ensures linearity own Run.enterPoint fun _ own' => True ∧ own' = own :=
  keeps fun _ clean => ⟨_, _, rfl, rfl, { clean with }, trivial⟩

theorem leavePoint (tag : Nat) :
    Ensures linearity own (modify (Run.leavePoint tag)) fun _ own' => own' = own :=
  modifies (fun _ => rfl) fun _ clean => { clean with }

/-! ### What is stored -/

theorem tell (event : Event) : Ensures linearity own (Run.tell event) fun _ own' => own' = own :=
  modifies (fun _ => rfl) fun _ clean => { clean with }

theorem newCell (jumpless : value.Jumpless) :
    Ensures linearity own (Run.newCell value) fun _ own' => True ∧ own' = own :=
  keeps fun _ clean => ⟨_, _, rfl, rfl, { clean with
    cells := fun other member => (Array.mem_push.mp member).elim (clean.cells other)
      fun same => same ▸ jumpless }, trivial⟩

theorem setCell (ref : CellRef) (jumpless : value.Jumpless) :
    Ensures linearity own (Run.setCell ref value) fun _ own' => own' = own :=
  modifies (fun _ => rfl) fun _ clean => { clean with
    cells := fun other member => (Array.mem_or_eq_of_mem_setIfInBounds member).elim
      (clean.cells other) fun same => same ▸ jumpless }

theorem newList (jumpless : AllJumpless items) :
    Ensures linearity own (Run.newList items) fun value own' => value.Jumpless ∧ own' = own :=
  keeps fun _ clean => ⟨_, _, rfl, rfl, { clean with
    lists := fun other member => (Array.mem_push.mp member).elim (clean.lists other)
      fun same => same ▸ jumpless }, trivial⟩

theorem setItems (ref : Nat) (jumpless : AllJumpless items) :
    Ensures linearity own (Run.setItems ref items) fun _ own' => own' = own :=
  modifies (fun _ => rfl) fun _ clean => { clean with
    lists := fun other member => (Array.mem_or_eq_of_mem_setIfInBounds member).elim
      (clean.lists other) fun same => same ▸ jumpless }

/-- An item without jumps is pushed. -/
theorem pushItem (ref : Nat) (jumpless : value.Jumpless) :
    Ensures linearity own (Run.pushItem ref value) fun _ own' => own' = own :=
  modifies (fun _ => rfl) fun m clean => { clean with
    lists := fun other member => by
      change other ∈ m.lists.modify ref (fun items => items.push value) at member
      rcases Machine.mem_modify member with kept | ⟨items, listed, rfl⟩
      · exact clean.lists other kept
      · rw [allJumpless_iff]
        intro item inside
        rcases Array.mem_push.mp (Array.mem_toList_iff.mp inside) with old | rfl
        · exact allJumpless_iff.mp (clean.lists items listed) item (Array.mem_toList_iff.mpr old)
        · exact jumpless }

theorem newPromise {thunk : Thunk} (jumpless : thunk.Jumpless) :
    Ensures linearity own (Run.newPromise thunk) fun value own' => value.Jumpless ∧ own' = own :=
  keeps fun _ clean => ⟨_, _, rfl, rfl, { clean with
    promises := fun other member => (Array.mem_push.mp member).elim (clean.promises other)
      fun same => same ▸ jumpless }, trivial⟩

theorem setPromise (ref : Nat) {promise : Promise} (jumpless : promise.Jumpless) :
    Ensures linearity own (Run.setPromise ref promise) fun _ own' => own' = own :=
  modifies (fun _ => rfl) fun _ clean => { clean with
    promises := fun other member => (Array.mem_or_eq_of_mem_setIfInBounds member).elim
      (clean.promises other) fun same => same ▸ jumpless }

theorem newCache : Ensures linearity own Run.newCache fun _ own' => True ∧ own' = own :=
  keeps fun _ clean => ⟨_, _, rfl, rfl, { clean with
    caches := fun entries member => (Array.mem_push.mp member).elim (clean.caches entries)
      fun same => by simp [same] }, trivial⟩

theorem cached (cache : Nat) (key : List MemoKey) :
    Ensures linearity own (Run.cached? cache key)
      fun hit own' => (∀ value ∈ hit, value.Jumpless) ∧ own' = own :=
  reads fun m clean value hit => by
    obtain ⟨entry, found, rfl⟩ := Option.map_eq_some_iff.mp hit
    exact clean.keeps.cached found

theorem remember (cache : Nat) (key : List MemoKey) (jumpless : value.Jumpless) :
    Ensures linearity own (Run.remember cache key value) fun _ own' => own' = own :=
  modifies (fun _ => rfl) fun m clean => { clean with
    caches := fun entries member => by
      change entries ∈ m.caches.modify cache _ at member
      rcases Machine.mem_modify member with kept | ⟨older, listed, rfl⟩
      · exact clean.caches entries kept
      · exact List.forall_mem_cons.mpr ⟨jumpless, clean.caches older listed⟩ }

/-- What a name stands for is without jumps. -/
theorem lookup (name : String) (frame : Frame) :
    Ensures linearity none (Body.run (Body.lookup name) frame)
      fun value own' => value.Jumpless ∧ own' = none := by
  intro m outcome owes ends
  simp only [Body.run, Body.lookup] at ends
  cases known : frame.env.lookup name with
  | some ref =>
    simp only [known] at ends
    cases ends
    exact ⟨none, ⟨owes.clean.cell ref, rfl⟩, owes⟩
  | none =>
    cases found : m.global? name with
    | some value =>
      simp only [known, found] at ends
      cases ends
      exact ⟨none, ⟨owes.clean.keeps.global found, rfl⟩, owes⟩
    | none =>
      simp only [known, found] at ends
      cases ends
      exact ⟨none, ⟨trivial, rfl⟩, owes⟩

/-- A machine without stored jumps stays so when a name is defined. -/
theorem define (name : String) (jumpless : value.Jumpless) {m : Machine}
    (clean : m.Clean) : (m.define name value).Clean :=
  { clean with
    globals := fun named member => by
      rcases Machine.mem_setGlobal member with old | rfl
      · exact clean.globals named old
      · exact jumpless }

/-- What is assigned is without jumps. -/
theorem assign (name : String) (jumpless : value.Jumpless) (frame : Frame) :
    Ensures linearity none (Body.run (Body.assign name value) frame) fun _ own' => own' = none := by
  intro m outcome owes ends
  simp only [Body.run, Body.assign] at ends
  cases known : frame.env.lookup name with
  | some ref =>
    simp only [known] at ends
    cases ends
    exact (setCell ref jumpless) m _ owes rfl
  | none =>
    cases found : m.global? name with
    | some old =>
      simp only [known, found] at ends
      cases ends
      exact ⟨none, rfl, owes.of_same rfl (define name jumpless owes.clean)⟩
    | none =>
      simp only [known, found] at ends
      cases ends
      exact ⟨none, ⟨trivial, rfl⟩, owes⟩

theorem defineToplevel (name : String) (jumpless : value.Jumpless) :
    Ensures linearity none (defineToplevel name value) fun _ own' => own' = none := by
  refine (tell _).bind ?_
  rintro _ _ rfl
  exact modifies (fun _ => rfl) fun m clean => define name jumpless clean

/-- What is written is no record. -/
theorem write (text : String) :
    Ensures linearity none (Run.write text) fun _ own' => own' = none := by
  intro m outcome owes ends
  simp only [Run.write] at ends
  split at ends
  · cases ends
    exact ⟨none, ⟨trivial, rfl⟩, owes⟩
  · cases ends
    exact ⟨none, rfl, owes.of_same rfl { owes.clean with }⟩

/-! ### Records -/

/-- A new jump is the one record that is owed then. -/
theorem newJump {jump : Jump} (jumpless : jump.Jumpless) :
    Ensures linearity none (Run.newJump jump) Value.Carries := by
  refine of_moves fun m owes => ⟨_, _, rfl, some m.jumps.size, rfl, ?_, fun ref => ?_⟩
  · exact { owes.clean with
      jumps := fun other member => (Array.mem_push.mp member).elim (owes.clean.jumps other)
        fun same => JumpRecord.pending.inj same ▸ jumpless }
  · simp only [Machine.jump, Array.getD_eq_getD_getElem?, Array.getElem?_push, Option.some.injEq]
    by_cases new : ref = m.jumps.size
    · simp [new]
    · have waits := owes.waits ref
      simp only [Machine.jump, Array.getD_eq_getD_getElem?] at waits
      simp only [if_neg new, waits]
      simp [Ne.symm new]

/-- A record that is taken is not owed any more. -/
theorem takeJump (ref : Nat) :
    Ensures linearity (some ref) (Run.takeJump ref)
      fun jump own' => jump.Jumpless ∧ own' = none := by
  refine of_moves fun m owes => ?_
  obtain ⟨jump, waits⟩ := (owes.waits ref).mpr rfl
  have taken : Run.takeJump ref m =
      some (.ok jump, { m with jumps := m.jumps.setIfInBounds ref .consumed }) := by
    simp only [Run.takeJump, waits]
  refine ⟨jump, _, taken, none, ⟨owes.clean.keeps.jump waits, rfl⟩, ?_⟩
  refine ⟨{ owes.clean with jumps := fun other member => ?_ }, fun other => ?_⟩
  · exact (Array.mem_or_eq_of_mem_setIfInBounds member).elim (owes.clean.jumps other)
      fun same => JumpRecord.noConfusion same
  · have waits := owes.waits other
    simp only [Machine.jump, Array.getD_eq_getD_getElem?, Array.getElem?_setIfInBounds] at waits ⊢
    by_cases same : ref = other
    · subst same
      simp only [if_true]
      split <;> simp
    · simp only [if_neg same, waits]
      simp [same]

/-! ### Functions -/

theorem callable (jumpless : value.Jumpless) : Ensures linearity none value.callable
      fun callable own' => callable.Obeys false ∧ own' = none := by
  cases value with
  | func callable => exact .pure ⟨jumpless, rfl⟩
  | _ => exact failing trivial

theorem noKwargs (func : String) (kwargs : Kwargs) :
    Ensures linearity none (noKwargs func kwargs) fun _ own' => own' = none := by
  rcases kwargs with _ | ⟨⟨keyword, value⟩, rest⟩
  · exact .pure rfl
  · exact failing trivial

/-- Around a function that may end with a jump there is a trampoline. -/
theorem wrap {base : Callable} {wrappers : List Decorator} {jumps : Bool}
    (obeys : base.Obeys jumps) (unlooped : .looped ∉ wrappers) :
    Ensures linearity none (wrap base wrappers) fun callable own' =>
      callable.Obeys (jumps && !wrappers.contains .trampolined) ∧ own' = none := by
  induction wrappers with
  | nil => exact .pure ⟨by simpa using obeys, rfl⟩
  | cons wrapper inside ih =>
    refine (ih (List.not_mem_of_not_mem_cons unlooped)).bind ?_
    rintro inner _ ⟨wrapped, rfl⟩
    cases wrapper with
    | memoize =>
      refine newCache.bind ?_
      rintro cache _ ⟨-, rfl⟩
      exact .pure ⟨wrapped.may, rfl⟩
    | trampolined => exact .pure ⟨wrapped.may, rfl⟩
    | looped => exact absurd List.mem_cons_self unlooped
    | _ => exact .pure ⟨by simpa [Callable.Obeys] using wrapped, rfl⟩

/-- Capturing the extent leaves the records. -/
theorem captureExtent (frame : Frame) :
    Ensures linearity none (expose Body.captureExtent frame) fun _ own' => own' = none := by
  intro m outcome owes ends
  simp only [expose, around, Body.captureExtent] at ends
  split at ends
  · cases ends
    exact ⟨none, rfl, owes⟩
  · cases ends
    exact ⟨none, rfl, owes.of_same rfl { owes.clean with }⟩

theorem makeClosure {signature : Signature} {code : Expr} {mark : Mark}
    (obeys : (Expr.fn mark signature code).Obeys .dressed false) (frame : Frame) :
    Ensures linearity none (expose (makeClosure ⟨signature, code⟩) frame)
      fun ended own' => ended.1.Jumpless ∧ own' = none := by
  simp only [Expr.Obeys] at obeys
  obtain ⟨admits, body⟩ := obeys
  simp only [Trampoline.makeClosure]
  rw [expose_bind, expose_frame, pure_bind]
  cases kind : signature.kind with
  | plain =>
    simp only [expose_bind, expose_within, expose_pure, bind_assoc, pure_bind]
    refine newClosure.bind ?_
    rintro ref _ ⟨-, rfl⟩
    have base : (Callable.closure ref ⟨signature, code⟩ frame.env).Obeys
        (JumpRules.dressed.loose signature) := body
    refine (wrap base (admits kind)).bind ?_
    rintro callable _ ⟨wrapped, rfl⟩
    refine .pure ⟨wrapped.loosen fun open' => ?_, rfl⟩
    simp [JumpRules.dressed, kind] at open'
  | continuation =>
    simp only [expose_bind, expose_within, expose_pure, bind_assoc, pure_bind]
    refine (captureExtent frame).bind ?_
    rintro extent _ rfl
    refine newContinuation.bind ?_
    rintro ref _ ⟨-, rfl⟩
    refine (tell _).bind ?_
    rintro _ _ rfl
    exact .pure ⟨body.loosen fun _ => rfl, rfl⟩

/-! ### Parameters -/

/-- What the parameters are bound to has to do with no jumps. -/
def BoundJumpless (bound : List (String × Option Value)) : Prop :=
  ∀ entry ∈ bound, ∀ value ∈ entry.2, value.Jumpless

/-- Positional arguments without jumps are bound to their parameters. -/
theorem bindPositional_jumpless {params : List String}
    (jumpless : AllJumpless values) : BoundJumpless (bindPositional params values) := by
  induction params generalizing values with
  | nil => exact fun _ member => absurd member List.not_mem_nil
  | cons param params ih =>
    cases values with
    | nil => exact List.forall_mem_cons.mpr ⟨nofun, ih trivial⟩
    | cons value rest =>
      refine List.forall_mem_cons.mpr ⟨?_, ih jumpless.2⟩
      rintro _ ⟨⟩
      exact jumpless.1

/-- A keyword argument without jumps is bound to its parameter. -/
theorem bindKeyword_jumpless {keyword : String} (jumpless : value.Jumpless)
    {bound' : List (String × Option Value)} (before : BoundJumpless bound)
    (binds : bindKeyword keyword value bound = some bound') : BoundJumpless bound' := by
  induction bound generalizing bound' with
  | nil => cases binds
  | cons first rest ih =>
    obtain ⟨ofFirst, ofRest⟩ := List.forall_mem_cons.mp before
    rw [bindKeyword] at binds
    split at binds
    · cases binds
      refine List.forall_mem_cons.mpr ⟨?_, ofRest⟩
      rintro _ ⟨⟩
      exact jumpless
    · obtain ⟨others, bound, rfl⟩ := Option.map_eq_some_iff.mp binds
      exact List.forall_mem_cons.mpr ⟨ofFirst, ih ofRest bound⟩

/-- Binding keyword arguments leaves the records. -/
theorem bindKeywords (func : String) (named : NamedJumpless kwargs) (before : BoundJumpless bound) :
    Ensures linearity none (bindKeywords func kwargs bound)
      fun bound own' => BoundJumpless bound ∧ own' = none := by
  induction kwargs generalizing bound with
  | nil => exact .pure ⟨before, rfl⟩
  | cons first rest ih =>
    obtain ⟨ofFirst, ofRest⟩ := List.forall_mem_cons.mp named
    simp only [Trampoline.bindKeywords]
    cases binds : bindKeyword first.1 first.2 bound with
    | none => exact failing trivial
    | some bound => exact ih ofRest (bindKeyword_jumpless ofFirst before binds)

/-- Making cells for parameters leaves the records. -/
theorem bindCells (func : String) (env : Env) (jumpless : BoundJumpless bound) :
    Ensures linearity none (bindCells func bound env) fun _ own' => own' = none := by
  induction bound generalizing env with
  | nil => exact .pure rfl
  | cons first rest ih =>
    obtain ⟨ofFirst, ofRest⟩ := List.forall_mem_cons.mp jumpless
    rcases first with ⟨param, _ | value⟩
    · exact failing trivial
    · refine (newCell (ofFirst value rfl)).bind ?_
      rintro ref _ ⟨-, rfl⟩
      exact ih _ ofRest

theorem parameterScope (signature : Signature) (env : Env)
    (jumpless : AllJumpless args) (named : NamedJumpless kwargs) :
    Ensures linearity none (parameterScope signature env args kwargs) fun _ own' =>
      own' = none := by
  refine .ite (fun _ => failing trivial) fun _ => ?_
  refine (bindKeywords _ named (bindPositional_jumpless jumpless)).bind ?_
  rintro bound _ ⟨ofBound, rfl⟩
  exact bindCells _ env ofBound

/-- Binding the values of a continuation leaves the records. -/
theorem bindValues (params : List String) (env : Env) (jumpless : AllJumpless values) :
    Ensures linearity none (bindValues params values env) fun _ own' => own' = none := by
  induction params generalizing values env with
  | nil => exact .pure rfl
  | cons param params ih =>
    cases values with
    | nil => exact .pure rfl
    | cons value values =>
      refine (newCell jumpless.1).bind ?_
      rintro ref _ ⟨-, rfl⟩
      exact ih _ jumpless.2

/-- The values that a continuation resumes with are without jumps. -/
theorem resumeValues_jumpless (jumpless : AllJumpless args)
    (resumes : resumeValues count args = .ok values) :
    AllJumpless values := by
  unfold resumeValues at resumes
  split at resumes
  · cases resumes
    trivial
  · split at resumes
    · cases resumes
      exact jumpless
    · split at resumes
      · split at resumes <;> cases resumes
        exact jumpless.1
      · cases resumes

/-- What is wrong with the number of arguments is no jump. -/
theorem resumeValues_fails (fails : resumeValues count args = .error error) : error.Jumpless := by
  unfold resumeValues at fails
  split at fails
  · cases fails
  · split at fails
    · cases fails
    · split at fails <;> try split at fails
      all_goals
        cases fails
        try trivial

/-! ### Natives -/

theorem int (op : Native) (value : Value) :
    Ensures linearity none (Native.int op value) fun _ own' => own' = none := by
  cases value with
  | int value => exact .pure rfl
  | _ => exact failing trivial

/-- Reading integers leaves the records. -/
theorem ints (op : Native) (values : List Value) :
    Ensures linearity none (Native.ints op values) fun _ own' => own' = none := by
  induction values with
  | nil => exact .pure rfl
  | cons value rest ih =>
    refine (int op value).bind ?_
    rintro first _ rfl
    refine ih.bind ?_
    rintro others _ rfl
    exact .pure rfl

/-- The item that is picked is without jumps. -/
theorem pick (jumpless : AllJumpless items) (index : Int64) :
    Ensures linearity none (Native.pick items index)
      fun value own' => value.Jumpless ∧ own' = none := by
  refine .ite (fun _ => failing trivial) fun _ => ?_
  cases found : items[index.toInt.toNat]? with
  | none => exact failing trivial
  | some value =>
    exact .pure ⟨allJumpless_iff.mp jumpless value (List.mem_of_getElem? found), rfl⟩

/-- Comparing integers leaves the records. -/
theorem compareInts (op : Native) (test : Int64 -> Int64 -> Bool) (args : List Value) :
    Ensures linearity none (Native.compareInts op test args)
      fun value own' => value.Jumpless ∧ own' = none := by
  refine (int op _).bind ?_
  rintro left _ rfl
  refine (int op _).bind ?_
  rintro right _ rfl
  exact .pure ⟨trivial, rfl⟩

/-- Dividing integers leaves the records. -/
theorem divideInts (op : Native) (divide : Int64 -> Int64 -> Int64) (args : List Value) :
    Ensures linearity none (Native.divideInts op divide args)
      fun value own' => value.Jumpless ∧ own' = none := by
  refine (int op _).bind ?_
  rintro right _ rfl
  refine .ite (fun _ => failing trivial) fun _ => (int op _).bind ?_
  rintro left _ rfl
  exact .pure ⟨trivial, rfl⟩

/-- Taking differences leaves the records. -/
theorem difference (values : List Int64) :
    Ensures linearity none (Native.difference values)
      fun value own' => value.Jumpless ∧ own' = none := by
  rcases values with _ | ⟨first, _ | ⟨second, rest⟩⟩
  · exact failing trivial
  · exact .pure ⟨trivial, rfl⟩
  · exact .pure ⟨trivial, rfl⟩

/-- Measuring lists and tuples leaves the records. -/
theorem length (op : Native) (value : Value) :
    Ensures linearity none (Native.length op value) fun _ own' => own' = none := by
  cases value with
  | list ref =>
    have counts : Ensures linearity none (read fun m : Machine => (m.items ref).size)
        fun _ own' => True ∧ own' = none := reads fun _ _ => trivial
    exact counts.imp fun _ _ holds => holds.2
  | tuple | str => exact .pure rfl
  | _ => exact failing trivial

theorem compute {op : Native} {run : Run Value} (jumpless : AllJumpless args)
    (computes : op.compute? args = some run) :
    Ensures linearity none run fun value own' => value.Jumpless ∧ own' = none := by
  cases op <;> cases computes
  case add | mul =>
    refine (ints _ _).bind ?_
    rintro values _ rfl
    exact .pure ⟨trivial, rfl⟩
  case sub =>
    refine (ints _ _).bind ?_
    rintro values _ rfl
    exact difference values
  case div | rem => exact divideInts _ _ _
  case eq => exact reads fun _ _ => trivial
  case lt | gt | le | ge => exact compareInts _ _ _
  case not | typeOf => exact .pure ⟨trivial, rfl⟩
  case tuple => exact .pure ⟨jumpless, rfl⟩
  case values => exact .pure ⟨.pack jumpless, rfl⟩
  case list => exact newList jumpless
  case len =>
    refine (length _ _).bind ?_
    rintro count _ rfl
    exact .pure ⟨trivial, rfl⟩
  case push =>
    simp only
    split
    · refine (pushItem _ (Value.Jumpless.two jumpless).2).bind ?_
      rintro _ _ rfl
      exact .pure ⟨trivial, rfl⟩
    · exact failing trivial
  case nth =>
    have both := Value.Jumpless.two jumpless
    refine (int _ _).bind ?_
    rintro index _ rfl
    split
    · rename_i ref target
      have looks : Ensures linearity none (read fun m : Machine => m.items ref)
          fun items own' => AllJumpless items.toList ∧ own' = none :=
        reads fun m clean => clean.items ref
      refine looks.bind ?_
      rintro items _ ⟨ofItems, rfl⟩
      exact pick ofItems index
    · rename_i items target
      have ofTarget := both.1
      rw [show (Native.two args).1 = .tuple items from target] at ofTarget
      exact pick ofTarget index
    · exact failing trivial

end Exec.Ensures

end Steps

end Trampoline
