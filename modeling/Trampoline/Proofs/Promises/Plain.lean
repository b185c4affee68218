import Trampoline.Proofs.Jumps.Values
import Trampoline.Proofs.Promises.States

/-!
# Values without promises

Promises are for lazy bodies only. They stand in cells and among the arguments of calls and jumps,
where a lazy body forces what it looks up. Everything else is plain: no promise, no jump, nor
anything that holds one. A strict body does not force, so the cells of its scope hold plain values;
and a cell that holds one never gets a promise again.
-/

namespace Trampoline

/-! ## Functions -/

/-- A trampoline around the function forces promises for callables that do not take them, and it is
around a cache in no case. -/
structure Signature.Prompt (signature : Signature) : Prop where
  continues : signature.kind = .continuation -> signature.regions.lazy = true
  trampolines : ∀ outer inner, signature.wrappers = outer ++ .trampolined :: inner ->
    .lazy ∈ inner ∧ .memoize ∉ inner

/-- The function may stand in a body that is lazy or not. -/
structure Function.Prompt (isLazy : Bool) (function : Function) : Prop where
  signature : function.signature.Prompt
  /-- In a lazy body the function is lazy too. -/
  within : isLazy = true -> function.signature.isLazy = true
  nested : function.signature.isLazy = true ->
    ∀ inner ∈ function.body.functions, inner.signature.isLazy = true

/-- The functions may stand in a body that is lazy or not. -/
def AllPrompt (isLazy : Bool) (functions : List Function) : Prop :=
  ∀ function ∈ functions, function.Prompt isLazy

section Prompt

variable {isLazy : Bool} {mark : Mark}

@[simp] theorem allPrompt_nil : AllPrompt isLazy [] :=
  fun _ member => absurd member List.not_mem_nil

@[simp] theorem allPrompt_append {functions others : List Function} :
    AllPrompt isLazy (functions ++ others) ↔
      AllPrompt isLazy functions ∧ AllPrompt isLazy others := List.forall_mem_append

/-- The functions of a conditional are those of its arms and of its alternative. -/
theorem allPrompt_cond {arms : List (Expr × Expr)} {alt : Option Expr} :
    AllPrompt isLazy (Expr.cond mark arms alt).functions ↔
      AllPrompt isLazy (functionsOfArms arms) ∧ ∀ e ∈ alt, AllPrompt isLazy e.functions := by
  cases alt <;> simp [Expr.functions]

/-- The functions of a jump are those of its parts. -/
theorem allPrompt_jump {func : Expr} {args : List Expr} {kwargs : List (String × Expr)}
    {cc : Option Expr} :
    AllPrompt isLazy (Expr.jump mark func args kwargs cc).functions ↔
      AllPrompt isLazy func.functions ∧ AllPrompt isLazy (functionsOfAll args) ∧
        AllPrompt isLazy (functionsOfKwargs kwargs) ∧ ∀ e ∈ cc, AllPrompt isLazy e.functions := by
  cases cc <;> simp [Expr.functions]

/-- A function that may stand in a body has a body in which its own functions may stand. -/
theorem AllPrompt.fn {signature : Signature} {body : Expr}
    (prompt : AllPrompt isLazy (Expr.fn mark signature body).functions) :
    signature.Prompt ∧ (isLazy = true -> signature.isLazy = true) ∧
      AllPrompt signature.isLazy body.functions := by
  simp only [Expr.functions, allPrompt_append] at prompt
  obtain ⟨inside, alone⟩ := prompt
  have self := alone _ (List.mem_singleton_self _)
  refine ⟨self.signature, self.within, fun inner member => ?_⟩
  exact { inside inner member with within := fun isLazy => self.nested isLazy inner member }

end Prompt

/-! ## Cells -/

namespace Machine

/-- The cells of the scope hold no promises. -/
def Solid (m : Machine) (env : Env) : Prop :=
  ∀ named ∈ env, named.2 < m.cells.size ∧ (m.cell named.2).isPromise = false

/-- The scope of a strict body holds no promises. -/
def Bears (m : Machine) (frame : Frame) : Prop := frame.isLazy = false -> m.Solid frame.env

/-- Cells that hold no promise never get one. -/
structure Hardens (m m' : Machine) : Prop where
  size : m.cells.size ≤ m'.cells.size
  plain : ∀ ref < m.cells.size, (m.cell ref).isPromise = false -> (m'.cell ref).isPromise = false

variable {m middle m' : Machine}

theorem Hardens.of_eq (same : m'.cells = m.cells) : m.Hardens m' where
  size := Nat.le_of_eq (congrArg Array.size same).symm
  plain ref _ plain := by rwa [cell, same]

/-- A machine that does nothing hardens. -/
theorem Hardens.refl (m : Machine) : m.Hardens m := .of_eq rfl

theorem Hardens.trans (first : m.Hardens middle) (second : middle.Hardens m') : m.Hardens m' where
  size := Nat.le_trans first.size second.size
  plain ref inside plain :=
    second.plain ref (Nat.lt_of_lt_of_le inside first.size) (first.plain ref inside plain)

variable {env : Env}

theorem Solid.mono (solid : m.Solid env) (hardens : m.Hardens m') : m'.Solid env := by
  intro named member
  obtain ⟨inside, plain⟩ := solid named member
  exact ⟨Nat.lt_of_lt_of_le inside hardens.size, hardens.plain _ inside plain⟩

theorem Bears.mono {frame : Frame} (bears : m.Bears frame) (hardens : m.Hardens m') :
    m'.Bears frame := fun strict => (bears strict).mono hardens

theorem Solid.bind (solid : m.Solid env) {name : String} {ref : CellRef}
    (inside : ref < m.cells.size) (plain : (m.cell ref).isPromise = false) :
    m.Solid ((name, ref) :: env) := List.forall_mem_cons.mpr ⟨⟨inside, plain⟩, solid⟩

end Machine

/-! ## Callables -/

namespace Callable

/-- The callable copes with promises among its arguments. -/
def Takes : Callable -> Prop
  | closure _ function _ => function.signature.isLazy = true
  | continuation .. | memoized .. => True
  | native _ | escape _ | identity _ | loopHandle .. => False
  | trampolined inner _ | looped inner | escapePoint inner | contEnabled inner | lazyFn inner =>
    inner.Takes

/-- The bodies that the callable runs find in their scopes what they expect. -/
def Sound (m : Machine) : Callable -> Prop
  | closure _ function env =>
    AllPrompt function.signature.isLazy function.body.functions ∧
      (function.signature.isLazy = false -> m.Solid env)
  | continuation _ function _ _ isLazy => isLazy = true ∧ AllPrompt true function.body.functions
  | native _ | escape _ | identity _ => True
  | looped _ | loopHandle .. => False
  | trampolined inner variant => variant = .promiseAware ∧ inner.Sound m
  | memoized inner _ => inner.Obeys false ∧ inner.Sound m
  | escapePoint inner | contEnabled inner => inner.Sound m
  | lazyFn inner => inner.Takes ∧ inner.Sound m

variable {m m' : Machine} {callable : Callable}

theorem Sound.mono (sound : callable.Sound m) (hardens : m.Hardens m') : callable.Sound m' := by
  induction callable with
  | closure => exact ⟨sound.1, fun strict => (sound.2 strict).mono hardens⟩
  | trampolined inner variant ih => exact ⟨sound.1, ih sound.2⟩
  | memoized inner cache ih => exact ⟨sound.1, ih sound.2⟩
  | escapePoint inner ih | contEnabled inner ih => exact ih sound
  | lazyFn inner ih => exact ⟨sound.1, ih sound.2⟩
  | _ => exact sound

/-- A sound callable that says that it is lazy copes with promises. -/
theorem Sound.takes (sound : callable.Sound m) (isLazy : callable.isLazy = true) :
    callable.Takes := by
  induction callable with
  | continuation => trivial
  | lazyFn inner ih => exact sound.1
  | trampolined inner variant ih => exact ih sound.2 isLazy
  | escapePoint inner ih | contEnabled inner ih => exact ih sound isLazy
  | looped => exact sound.elim
  | _ => cases isLazy

/-- A trampoline takes what the callable inside it takes. -/
theorem takes_underTrampoline (callable : Callable) :
    callable.underTrampoline.Takes ↔ callable.Takes := by
  cases callable <;> rfl

theorem Sound.underTrampoline (sound : callable.Sound m) : callable.underTrampoline.Sound m := by
  cases callable with
  | trampolined inner variant => exact sound.2
  | _ => exact sound

end Callable

/-! ## Values -/

/-- The value is the record of a jump. -/
def Value.isJump : Value -> Bool
  | jump _ => true
  | _ => false

mutual

/-- The value neither is a promise or a jump nor holds one. -/
def Value.Plain (m : Machine) : Value -> Prop
  | .func callable => callable.Obeys false ∧ callable.Sound m
  | .tuple items => AllPlain m items
  | .jump _ | .promise _ => False
  | .nil | .bool _ | .int _ | .str _ | .list _ => True

/-- All values are plain. -/
def AllPlain (m : Machine) : List Value -> Prop
  | [] => True
  | value :: rest => value.Plain m ∧ AllPlain m rest

end

variable {m m' : Machine}

/-- Values are plain if each of them is. -/
theorem allPlain_iff {values : List Value} :
    AllPlain m values ↔ ∀ value ∈ values, value.Plain m := by
  induction values with
  | nil => simp [AllPlain]
  | cons value rest ih => simp [AllPlain, ih]

mutual

/-- A plain value stays plain. -/
theorem Value.Plain.mono (hardens : m.Hardens m') :
    ∀ {value : Value}, value.Plain m -> value.Plain m'
  | .func _, plain => ⟨plain.1, plain.2.mono hardens⟩
  | .tuple _, plain => AllPlain.mono hardens plain
  | .nil, _ | .bool _, _ | .int _, _ | .str _, _ | .list _, _ => trivial

theorem AllPlain.mono (hardens : m.Hardens m') :
    ∀ {values : List Value}, AllPlain m values -> AllPlain m' values
  | [], _ => trivial
  | _ :: _, plain => ⟨plain.1.mono hardens, AllPlain.mono hardens plain.2⟩

end

namespace Value

/-- The value is plain, or a promise where promises may be. -/
def Fits (delayed : Prop) (m : Machine) (value : Value) : Prop :=
  value.Plain m ∨ value.isPromise = true ∧ delayed

/-- The value is plain or a jump. -/
def Returns (m : Machine) (value : Value) : Prop := value.isJump = true ∨ value.Plain m

variable {m m' : Machine} {value : Value} {delayed delayed' : Prop}

/-- A plain value is no promise. -/
theorem Plain.not_promise (plain : value.Plain m) : value.isPromise = false := by
  cases value with
  | promise => exact plain.elim
  | _ => rfl

/-- A plain value is no jump. -/
theorem Plain.not_jump (plain : value.Plain m) : value.isJump = false := by
  cases value with
  | jump => exact plain.elim
  | _ => rfl

/-- A plain value fits anywhere. -/
theorem Plain.fits (plain : value.Plain m) : value.Fits delayed m := .inl plain

/-- A plain value may be returned. -/
theorem Plain.returns (plain : value.Plain m) : value.Returns m := .inr plain

/-- What fits keeps fitting. -/
theorem Fits.mono (fits : value.Fits delayed m) (hardens : m.Hardens m') :
    value.Fits delayed m' := fits.imp_left (Plain.mono hardens)

theorem Fits.imp (fits : value.Fits delayed m) (implies : delayed -> delayed') :
    value.Fits delayed' m := fits.imp_right fun promise => ⟨promise.1, implies promise.2⟩

/-- What fits where no promises may be is plain. -/
theorem Fits.plain (fits : value.Fits delayed m) (strict : ¬delayed) : value.Plain m :=
  fits.resolve_right fun promise => strict promise.2

/-- What fits and is no promise is plain. -/
theorem Fits.of_solid (fits : value.Fits delayed m) (plain : value.isPromise = false) :
    value.Plain m := fits.resolve_right fun promise => by cases plain.symm.trans promise.1

/-- What fits is no jump. -/
theorem Fits.not_jump (fits : value.Fits delayed m) : value.isJump = false := by
  rcases fits with plain | ⟨isPromise, -⟩
  · exact plain.not_jump
  · cases value with
    | jump => cases isPromise
    | _ => rfl

/-- What is returned and is no jump is plain. -/
theorem Returns.plain (returns : value.Returns m) (notJump : value.isJump = false) :
    value.Plain m := returns.resolve_left fun isJump => by cases notJump.symm.trans isJump

theorem Returns.mono (returns : value.Returns m) (hardens : m.Hardens m') : value.Returns m' :=
  returns.imp_right (Plain.mono hardens)

/-- A literal is plain. -/
theorem plain_ofLiteral (literal : Literal) : (ofLiteral literal).Plain m := by
  cases literal <;> trivial

variable {values : List Value}

/-- A tuple of plain values is plain. -/
theorem Plain.pack (plain : AllPlain m values) : (pack values).Plain m := by
  rcases values with _ | ⟨value, _ | ⟨second, rest⟩⟩
  · trivial
  · exact plain.1
  · exact plain

theorem Plain.one (plain : AllPlain m values) : (Native.one values).Plain m := by
  cases values with
  | nil => trivial
  | cons value rest => exact plain.1

theorem Plain.two (plain : AllPlain m values) :
    (Native.two values).1.Plain m ∧ (Native.two values).2.Plain m := by
  rcases values with _ | ⟨value, _ | ⟨second, rest⟩⟩
  · exact ⟨trivial, trivial⟩
  · exact ⟨plain.1, trivial⟩
  · exact ⟨plain.1, plain.2.1⟩

end Value

/-- All values fit. -/
def AllFit (delayed : Prop) (m : Machine) (values : List Value) : Prop :=
  ∀ value ∈ values, value.Fits delayed m

/-- All keyword arguments fit. -/
def NamedFit (delayed : Prop) (m : Machine) (kwargs : Kwargs) : Prop :=
  ∀ kwarg ∈ kwargs, kwarg.2.Fits delayed m

section Fit

variable {delayed delayed' : Prop} {m m' : Machine} {values : List Value} {kwargs : Kwargs}

@[simp] theorem allFit_nil : AllFit delayed m [] := fun _ member => absurd member List.not_mem_nil

@[simp] theorem namedFit_nil : NamedFit delayed m [] :=
  fun _ member => absurd member List.not_mem_nil

variable {value : Value}

theorem AllFit.cons (fits : value.Fits delayed m) (fit : AllFit delayed m values) :
    AllFit delayed m (value :: values) := List.forall_mem_cons.mpr ⟨fits, fit⟩

theorem NamedFit.cons {name : String} (fits : value.Fits delayed m)
    (fit : NamedFit delayed m kwargs) : NamedFit delayed m ((name, value) :: kwargs) :=
  List.forall_mem_cons.mpr ⟨fits, fit⟩

/-- Values that fit keep fitting. -/
theorem AllFit.mono (fit : AllFit delayed m values) (hardens : m.Hardens m') :
    AllFit delayed m' values := fun value member => (fit value member).mono hardens

theorem NamedFit.mono (fit : NamedFit delayed m kwargs) (hardens : m.Hardens m') :
    NamedFit delayed m' kwargs := fun kwarg member => (fit kwarg member).mono hardens

theorem AllFit.imp (fit : AllFit delayed m values) (implies : delayed -> delayed') :
    AllFit delayed' m values := fun value member => (fit value member).imp implies

theorem NamedFit.imp (fit : NamedFit delayed m kwargs) (implies : delayed -> delayed') :
    NamedFit delayed' m kwargs := fun kwarg member => (fit kwarg member).imp implies

/-- Values that fit where no promises may be are plain. -/
theorem AllFit.plain (fit : AllFit delayed m values) (strict : ¬delayed) : AllPlain m values :=
  allPlain_iff.mpr fun value member => (fit value member).plain strict

/-- Plain values fit anywhere. -/
theorem AllPlain.fit (plain : AllPlain m values) : AllFit delayed m values :=
  fun value member => (allPlain_iff.mp plain value member).fits

theorem NamedFit.replaceCc (fit : NamedFit delayed m kwargs) {cc : Value} (plain : cc.Plain m) :
    NamedFit delayed m (replaceCc kwargs cc) := by
  intro kwarg member
  rcases List.mem_append.mp member with kept | new
  · exact fit kwarg (List.mem_filter.mp kept |>.1)
  · rw [List.mem_singleton.mp new]
    exact plain.fits

end Fit

/-! ## What is stored -/

/-- The thunk is from a lazy body and computes no jump. -/
def Thunk.Prompt : Thunk -> Prop
  | .expr e _ => e.Obeys .dressed false ∧ AllPrompt true e.functions
  | .global _ => True

/-- The promise has a plain value if it has one. -/
def Promise.Sound (m : Machine) : Promise -> Prop
  | .pending thunk => thunk.Prompt
  | .forcing => True
  | .forced value => value.Plain m

/-- The jump goes to a function that takes its arguments from a trampoline, promises or not. -/
structure Jump.Sound (m : Machine) (jump : Jump) : Prop where
  obeys : jump.target.Obeys false
  target : jump.target.Sound m
  args : AllFit True m jump.args
  kwargs : NamedFit True m jump.kwargs
  cc : ∀ cc ∈ jump.cc, cc.Plain m

/-- The error takes no promise along. -/
def EvalError.Plain (m : Machine) : EvalError -> Prop
  | .escape _ value => value.Plain m
  | _ => True

section Mono

variable {m m' : Machine} (hardens : m.Hardens m')
include hardens

/-- A sound promise stays sound. -/
theorem Promise.Sound.mono {promise : Promise} (sound : promise.Sound m) : promise.Sound m' := by
  cases promise with
  | forced value => exact Value.Plain.mono hardens sound
  | _ => exact sound

/-- A sound jump stays sound. -/
theorem Jump.Sound.mono {jump : Jump} (sound : jump.Sound m) : jump.Sound m' where
  obeys := sound.obeys
  target := sound.target.mono hardens
  args := sound.args.mono hardens
  kwargs := sound.kwargs.mono hardens
  cc cc member := (sound.cc cc member).mono hardens

/-- A plain error stays plain. -/
theorem EvalError.Plain.mono {error : EvalError} (plain : error.Plain m) : error.Plain m' := by
  cases error with
  | escape tag value => exact Value.Plain.mono hardens plain
  | _ => trivial

end Mono

namespace Machine

/-- Promises are stored in cells and jumps only. -/
structure Tidy (m : Machine) : Prop where
  globals : ∀ named ∈ m.globals, named.2.Plain m
  cells : ∀ value ∈ m.cells, value.Fits True m
  lists : ∀ items ∈ m.lists, AllPlain m items.toList
  promises : ∀ promise ∈ m.promises, promise.Sound m
  jumps : ∀ jump, .pending jump ∈ m.jumps -> jump.Sound m
  caches : ∀ entries ∈ m.caches, ∀ entry ∈ entries, entry.value.Plain m

end Machine

/-- Promises are stored in cells and jumps only. -/
@[reducible]
def Storage.plain : Storage where
  value value m := value.Plain m
  content value m := value.Fits True m
  promise promise m := promise.Sound m
  jump jump m := jump.Sound m

/-- What may be stored on a machine may be stored on later ones. -/
theorem Machine.Hardens.lasts (hardens : m.Hardens m') : Storage.plain.Lasts m m' where
  value _ plain := plain.mono hardens
  content _ fits := fits.mono hardens
  promise _ sound := sound.mono hardens
  jump _ sound := sound.mono hardens

/-- A machine is tidy if all that it stores is of the kind. -/
theorem Machine.tidy_iff : m.Tidy ↔ m.Keeps .plain := by
  constructor
  · intro tidy
    refine { tidy with lists := fun items member item inside => ?_ }
    exact allPlain_iff.mp (tidy.lists items member) item (Array.mem_toList_iff.mpr inside)
  · intro keeps
    refine { keeps with lists := fun items member => allPlain_iff.mpr fun item inside => ?_ }
    exact keeps.lists items member item (Array.mem_toList_iff.mp inside)

end Trampoline
