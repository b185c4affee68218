import Trampoline.Proofs.Evaluation.Natives
import Trampoline.Proofs.Promises.Plain

/-!
# Promises where they may be

What tasks rely on and what they answer, so that promises stay in cells and among the arguments of
callables that take them: a body finds no promise in its scope unless it is lazy, and comes to a
plain value or a jump.
-/

namespace Trampoline

open Exec

/-- A running body goes on with the frame. -/
structure Frame.Continues (frame : Frame) (m : Machine) (next : Frame) : Prop where
  isLazy : next.isLazy = frame.isLazy
  bears : m.Bears next

namespace Frame.Continues

variable {frame middle next : Frame} {m m' : Machine}

theorem trans (first : frame.Continues m middle) (second : middle.Continues m' next) :
    frame.Continues m' next := ⟨second.isLazy.trans first.isLazy, second.bears⟩

theorem mono (continues : frame.Continues m next) (hardens : m.Hardens m') :
    frame.Continues m' next := ⟨continues.isLazy, continues.bears.mono hardens⟩

/-- Functions that may stand in a body may stand in it when it goes on. -/
theorem prompt (continues : frame.Continues m next) {functions : List Function}
    (prompt : AllPrompt frame.isLazy functions) : AllPrompt next.isLazy functions :=
  continues.isLazy ▸ prompt

/-- A name is bound to what the body may find. -/
theorem bind (continues : frame.Continues m next) {value : Value}
    (fits : value.Fits (next.isLazy = true) m) (hardens : m.Hardens m') {ref : CellRef}
    (inside : ref < m'.cells.size) (content : m'.cell ref = value)
    (name : String) : frame.Continues m' { next with env := (name, ref) :: next.env } where
  isLazy := continues.isLazy
  bears strict := by
    refine ((continues.bears strict).mono hardens).bind inside ?_
    have plain := fits.plain (ne_true_of_eq_false strict)
    rw [content, plain.not_promise]

end Frame.Continues

/-- What a task relies on. -/
@[reducible]
def Task.Expects : Task -> Machine -> Prop
  | eval e frame, m | evalForced e frame, m =>
    e.Obeys .dressed true ∧ AllPrompt frame.isLazy e.functions ∧ m.Bears frame
  | evalContinuation cc frame, m =>
    (∀ e ∈ cc, e.Obeys .dressed false ∧ AllPrompt frame.isLazy e.functions) ∧ m.Bears frame
  | operand _ e frame, m =>
    e.Obeys .dressed false ∧ AllPrompt frame.isLazy e.functions ∧ m.Bears frame
  | delayed e frame, _ =>
    e.Obeys .dressed false ∧ AllPrompt true e.functions ∧ frame.isLazy = true
  | operands _ es frame, m =>
    AllObey .dressed es ∧ AllPrompt frame.isLazy (functionsOfAll es) ∧ m.Bears frame
  | keywords _ es frame, m =>
    AllNamedObey .dressed es ∧ AllPrompt frame.isLazy (functionsOfKwargs es) ∧ m.Bears frame
  | evalArms arms alt frame, m => ArmsObey .dressed true arms ∧
    AllPrompt frame.isLazy (functionsOfArms arms) ∧
    (∀ e ∈ alt, e.Obeys .dressed true ∧ AllPrompt frame.isLazy e.functions) ∧ m.Bears frame
  | evalShort _ es last frame, m | evalItems es last frame, m => LastObeys .dressed true es ∧
    AllPrompt frame.isLazy (functionsOfAll es) ∧ last.Returns m ∧ m.Bears frame
  | evalLoop test body frame, m => (test.Obeys .dressed false ∧ body.Obeys .dressed false) ∧
    AllPrompt frame.isLazy (test.functions ++ body.functions) ∧ m.Bears frame
  | force value, m => value.isJump = true ∨ value.Fits True m
  | trampoline variant value, m | runJumps variant value, m =>
    variant = .promiseAware ∧ value.Returns m
  | takeStep variant _, _ => variant = .promiseAware
  | runThunk thunk, _ => thunk.Prompt
  | forceDeep value, m => value.Fits True m
  | apply callable args kwargs, m => (callable.Obeys true ∧ callable.Sound m) ∧
    AllFit callable.Takes m args ∧ NamedFit callable.Takes m kwargs
  | call callable args kwargs, m => (callable.Obeys false ∧ callable.Sound m) ∧
    AllFit callable.Takes m args ∧ NamedFit callable.Takes m kwargs
  | forceForStrict variant _ args kwargs, m =>
    variant = .promiseAware ∧ AllFit True m args ∧ NamedFit True m kwargs
  | forceAll values, m | forceArgs values, m | forceKeys values, m | shownDeep values, m =>
    AllFit True m values
  | forceKwargs kwargs, m | forceKwargKeys kwargs, m => NamedFit True m kwargs
  | applyNative _ values, m => AllPlain m values

/-- What a task answers. -/
@[reducible]
def Task.Delivers : (task : Task) -> task.Answer -> Machine -> Prop
  | eval e frame, (value, next), m | evalForced e frame, (value, next), m =>
    value.Returns m ∧ (e.Obeys .dressed false -> value.isJump = false) ∧ frame.Continues m next
  | evalContinuation _ frame, (cc, next), m =>
    (∀ value ∈ cc, value.Plain m) ∧ frame.Continues m next
  | operand policy _ frame, (value, next), m =>
    value.Fits (frame.isLazy = true ∧ policy = .delay) m ∧ frame.Continues m next
  | delayed _ frame, (value, next), m => value.Fits True m ∧ frame.Continues m next
  | operands policy _ frame, (values, next), m =>
    AllFit (frame.isLazy = true ∧ policy = .delay) m values ∧ frame.Continues m next
  | keywords policy _ frame, (kwargs, next), m =>
    NamedFit (frame.isLazy = true ∧ policy = .delay) m kwargs ∧ frame.Continues m next
  | evalArms arms alt frame, (value, next), m => value.Returns m ∧
    (ArmsObey .dressed false arms -> (∀ e ∈ alt, e.Obeys .dressed false) -> value.isJump = false) ∧
    frame.Continues m next
  | evalShort _ es last frame, (value, next), m | evalItems es last frame, (value, next), m =>
    value.Returns m ∧ (LastObeys .dressed false es -> last.isJump = false -> value.isJump = false) ∧
    frame.Continues m next
  | evalLoop _ _ frame, (value, next), m => value.Plain m ∧ frame.Continues m next
  | force first, value, m => value.Returns m ∧ (first.isJump = false -> value.isJump = false)
  | takeStep _ _, value, m => value.Returns m
  | apply callable _ _, value, m => value.Returns m ∧ (callable.Obeys false -> value.isJump = false)
  | runThunk _, value, m | forceDeep _, value, m | call _ _ _, value, m | trampoline _ _, value, m
  | runJumps _ _, value, m | applyNative _ _, value, m => value.Plain m
  | forceForStrict _ callee _ _, (args, kwargs), m =>
    AllFit (callee.isLazy = true) m args ∧ NamedFit (callee.isLazy = true) m kwargs
  | forceAll _, values, m | forceArgs _, values, m | forceKeys _, (values, _), m =>
    AllPlain m values
  | forceKwargs _, kwargs, m | forceKwargKeys _, (kwargs, _), m => NamedFit False m kwargs
  | shownDeep _, _, _ => True

/-- Promises are stored in cells and jumps only, and a cell that holds none never gets one. -/
@[reducible]
def promptness : Discipline where
  holds := Machine.Tidy
  leads := Machine.Hardens
  fails := fun error m => error.Plain m
  asks := Task.Expects
  answers := Task.Delivers
  refl := Machine.Hardens.refl
  trans := Machine.Hardens.trans
  fails_leads hardens plain := plain.mono hardens
  unwinds m extents stack tidy := by
    have same : Machine.Adds .plain m { m with extents, stack } := .of_same rfl rfl rfl rfl rfl rfl
    have hardens : m.Hardens { m with extents, stack } := .of_eq rfl
    exact Machine.tidy_iff.mpr (same.keeps hardens.lasts (Machine.tidy_iff.mp tidy))
  leads_unwinds _ _ _ := .of_eq rfl

namespace Exec.Prompt

variable {α : Type} {m m' : Machine} {value : Value}

/-! ## What is stored -/

/-- Lists hold plain values, and cells those that promises are forced for. -/
theorem stores : promptness.Stores .plain where
  holds := Machine.tidy_iff
  lasts hardens := hardens.lasts
  leads cells _ := .of_eq cells
  fails {error m} noEscape _ := by
    cases error with
    | escape => cases noEscape
    | _ => trivial
  nil := trivial
  bool := trivial
  int := trivial
  str := trivial
  list := trivial
  tuple := allPlain_iff
  content plain := plain.fits
  forcing := trivial

/-- Failing with a plain error observes the discipline. -/
theorem failing {error : EvalError} {post : α -> Machine -> Prop} (tidy : m.Tidy)
    (plain : error.Plain m) : Observes promptness m (fail error) post := .fail tidy plain

/-- A cell may get a plain value. -/
theorem hardens_setCell (ref : CellRef) (notPromise : value.isPromise = false) :
    m.Hardens { m with cells := m.cells.setIfInBounds ref value } := by
  refine ⟨by simp, fun other inside plain => ?_⟩
  simp only [Machine.cell, Array.getD_eq_getD_getElem?, Array.getElem?_setIfInBounds] at plain ⊢
  split
  · split
    · exact notPromise
    · rfl
  · exact plain

/-! ## Wrappers -/

/-- What wrapping a function comes to: it takes promises if its body is lazy, and answers that it
does if it is marked lazy and not cached. -/
structure Wraps (signature : Signature) (wrappers : List Decorator) (callable : Callable)
    (m : Machine) : Prop where
  obeys : callable.Obeys (JumpRules.dressed.loose signature && !wrappers.contains .trampolined)
  sound : callable.Sound m
  takes : signature.isLazy = true -> callable.Takes
  isLazy : .lazy ∈ wrappers -> .memoize ∉ wrappers -> callable.isLazy = true

namespace Wraps

variable {signature : Signature} {wrapper : Decorator} {outer inside : List Decorator}
variable {base inner : Callable}

theorem mono {wrappers : List Decorator} (wraps : Wraps signature wrappers base m)
    (hardens : m.Hardens m') : Wraps signature wrappers base m' :=
  { wraps with sound := wraps.sound.mono hardens }

/-- A cache that a trampoline does not run in gets no jump. -/
theorem memoized (wraps : Wraps signature inside inner m) (prompt : signature.Prompt)
    (plain : signature.kind = .plain) (split : signature.wrappers = outer ++ .memoize :: inside)
    (cache : Nat) : Wraps signature (.memoize :: inside) (.memoized inner cache) m := by
  have outside : .trampolined ∉ outer := by
    intro member
    obtain ⟨before, after, rfl⟩ := List.append_of_mem member
    have split : signature.wrappers = before ++ .trampolined :: (after ++ .memoize :: inside) := by
      rw [split, List.append_assoc, List.cons_append]
    exact (prompt.trampolines _ _ split).2 (by simp)
  have tight : (JumpRules.dressed.loose signature && !inside.contains .trampolined) = false := by
    simp [JumpRules.dressed, plain, split, outside]
  refine ⟨wraps.obeys.may, ⟨?_, wraps.sound⟩, fun _ => trivial, fun _ bare => ?_⟩
  · rw [← tight]
    exact wraps.obeys
  · exact absurd List.mem_cons_self bare

/-- A trampoline may go around what was wrapped so far, for it forces for callables that are
strict. -/
theorem trampolined (wraps : Wraps signature inside inner m) (prompt : signature.Prompt)
    (split : signature.wrappers = outer ++ .trampolined :: inside) :
    Wraps signature (.trampolined :: inside) (.trampolined inner (Variant.of inner)) m := by
  obtain ⟨isLazy, bare⟩ := prompt.trampolines _ _ split
  have innerLazy := wraps.isLazy isLazy bare
  have aware : Variant.of inner = .promiseAware := by rw [Variant.of, if_pos innerLazy]
  exact ⟨wraps.obeys.may, ⟨aware, wraps.sound⟩, wraps.takes, fun _ _ => innerLazy⟩

/-- The mark of lazy functions may go around what was wrapped so far. -/
theorem lazyFn (wraps : Wraps signature inside inner m)
    (split : signature.wrappers = outer ++ .lazy :: inside) :
    Wraps signature (.lazy :: inside) (.lazyFn inner) m := by
  have isLazy : signature.isLazy = true := by simp [Signature.isLazy, split]
  refine ⟨?_, ⟨wraps.takes isLazy, wraps.sound⟩, wraps.takes, fun _ _ => rfl⟩
  simpa [Callable.Obeys] using wraps.obeys

end Wraps

/-! ## Steps on the machine -/

theorem enterPoint (tidy : m.Tidy) : Observes promptness m Run.enterPoint fun _ _ => True :=
  .of_eq rfl (stores.adds tidy (.of_eq rfl) (.of_same rfl rfl rfl rfl rfl rfl)) trivial

theorem leavePoint (tidy : m.Tidy) (tag : Nat) :
    Observes promptness m (modify (Run.leavePoint tag)) fun _ _ => True :=
  .of_eq rfl (stores.adds tidy (.of_eq rfl) (.of_same rfl rfl rfl rfl rfl rfl)) trivial

theorem newCell (tidy : m.Tidy) (fits : value.Fits True m) :
    Observes promptness m (Run.newCell value) fun ref m' =>
      ref < m'.cells.size ∧ m'.cell ref = value := by
  refine stores.newCell tidy ⟨by simp, fun ref inside plain => ?_⟩ fits
  have same : ({ m with cells := m.cells.push value } : Machine).cell ref = m.cell ref := by
    simp [Machine.cell, Array.getD_eq_getD_getElem?, Array.getElem?_push, Nat.ne_of_lt inside]
  rwa [same]

theorem setCell (tidy : m.Tidy) (ref : CellRef) (plain : value.Plain m) :
    Observes promptness m (Run.setCell ref value) fun _ _ => True :=
  stores.setCell tidy ref (hardens_setCell ref plain.not_promise) plain.fits

variable {frame : Frame} {signature : Signature}

/-- A name of a strict body stands for a plain value. -/
theorem lookup (tidy : m.Tidy) (name : String) (bears : m.Bears frame) :
    Observes promptness m (Body.run (Body.lookup name) frame) fun value m' =>
      value.Fits (frame.isLazy = true) m' ∧ m' = m := by
  refine (stores.lookup tidy name frame).imp ?_
  rintro value m' - ⟨rfl, found⟩
  refine ⟨?_, rfl⟩
  cases known : frame.env.lookup name with
  | some ref =>
    simp only [known] at found
    subst found
    have fits := (Machine.tidy_iff.mp tidy).cell (.inl trivial) ref
    cases isLazy : frame.isLazy with
    | true => exact fits.imp fun _ => rfl
    | false =>
      obtain ⟨before, after, same, -⟩ := List.lookup_eq_some_iff.mp known
      have member : (name, ref) ∈ frame.env := by
        rw [same]
        exact List.mem_append_right _ List.mem_cons_self
      exact (fits.of_solid (bears isLazy _ member).2).fits
  | none =>
    simp only [known] at found
    exact Value.Plain.fits found

theorem assign (tidy : m.Tidy) (name : String) (plain : value.Plain m) (frame : Frame) :
    Observes promptness m (Body.run (Body.assign name value) frame) fun _ _ => True :=
  stores.assign tidy name frame plain fun ref _ => hardens_setCell ref plain.not_promise

/-! ### Functions -/

theorem callable (tidy : m.Tidy) (plain : value.Plain m) :
    Observes promptness m value.callable fun callable m' =>
      callable.Obeys false ∧ callable.Sound m' := by
  refine (stores.callable tidy value).imp ?_
  rintro callable m' - ⟨rfl, rfl⟩
  exact plain

/-- Wrapping a function in any number of its wrappers observes the discipline, from the inside
out. -/
theorem wrap (tidy : m.Tidy) {base : Callable} (prompt : signature.Prompt)
    (plain : signature.kind = .plain) (unlooped : .looped ∉ signature.wrappers)
    (bare : Wraps signature [] base m) {outer wrappers : List Decorator}
    (split : signature.wrappers = outer ++ wrappers) :
    Observes promptness m (wrap base wrappers) (Wraps signature wrappers) := by
  induction wrappers generalizing outer with
  | nil => exact .pure tidy bare
  | cons wrapper inside ih =>
    have further : signature.wrappers = (outer ++ [wrapper]) ++ inside := by
      rw [split, List.append_assoc, List.singleton_append]
    refine (ih further).bind fun inner m' reaches wraps => ?_
    cases wrapper with
    | memoize =>
      refine (stores.newCache reaches.holds).bind fun cache m'' later _ => ?_
      exact .pure later.holds ((wraps.mono later.leads).memoized prompt plain split cache)
    | trampolined => exact .pure reaches.holds (wraps.trampolined prompt split)
    | looped =>
      rw [split] at unlooped
      exact absurd (List.mem_append_right _ List.mem_cons_self) unlooped
    | lazy => exact .pure reaches.holds (wraps.lazyFn split)
    | callEc | continuations =>
      refine .pure reaches.holds ⟨?_, wraps.sound, wraps.takes, fun isLazy uncached => ?_⟩
      · simpa [Callable.Obeys] using wraps.obeys
      · exact wraps.isLazy (by simpa using isLazy) (by simpa using uncached)

/-- Capturing the extent leaves the frame as it is. -/
theorem captureExtent (tidy : m.Tidy) (bears : m.Bears frame) :
    Observes promptness m (expose Body.captureExtent frame) fun ended m' =>
      frame.Continues m' ended.2 := by
  intro outcome ends
  simp only [expose, around, Body.captureExtent] at ends
  split at ends
  · cases ends
    exact ⟨⟨.refl m, tidy⟩, rfl, bears⟩
  · cases ends
    exact ⟨stores.adds tidy (.of_eq rfl) (.of_same rfl rfl rfl rfl rfl rfl), rfl, bears⟩

/-- A function is lazy where it stands in a lazy body, so a strict one finds no promise in its
scope. -/
theorem makeClosure (tidy : m.Tidy) {code : Expr} {mark : Mark}
    (obeys : (Expr.fn mark signature code).Obeys .dressed false)
    (prompt : AllPrompt frame.isLazy (Expr.fn mark signature code).functions)
    (bears : m.Bears frame) :
    Observes promptness m (expose (makeClosure ⟨signature, code⟩) frame) fun ended m' =>
      ended.1.Plain m' ∧ frame.Continues m' ended.2 := by
  simp only [Expr.Obeys] at obeys
  obtain ⟨admits, ofCode⟩ := obeys
  obtain ⟨ofSignature, within, ofBody⟩ := prompt.fn
  simp only [Trampoline.makeClosure]
  rw [expose_bind, expose_frame, pure_bind]
  cases kind : signature.kind with
  | plain =>
    simp only [expose_bind, expose_within, expose_pure, bind_assoc, pure_bind]
    refine (stores.newClosure tidy).bind fun ref m' reaches _ => ?_
    have solid : signature.isLazy = false -> m'.Solid frame.env := fun strict => by
      refine (bears ?_).mono reaches.leads
      cases isLazy : frame.isLazy with
      | false => rfl
      | true => cases strict.symm.trans (within isLazy)
    have bare : Wraps signature [] (.closure ref ⟨signature, code⟩ frame.env) m' := by
      refine ⟨?_, ⟨ofBody, solid⟩, id, fun member => absurd member List.not_mem_nil⟩
      simpa [Callable.Obeys] using ofCode
    refine (wrap reaches.holds ofSignature kind (admits kind) bare
      (List.nil_append _).symm).bind fun callable m'' later wraps => ?_
    have hardens := reaches.leads.trans later.leads
    have tight : callable.Obeys false := by
      refine wraps.obeys.loosen fun loose => ?_
      simp [JumpRules.dressed, kind] at loose
    exact .pure later.holds ⟨⟨tight, wraps.sound⟩, rfl, bears.mono hardens⟩
  | continuation =>
    have isLazy := ofSignature.continues kind
    simp only [expose_bind, expose_within, expose_pure, bind_assoc, pure_bind, isLazy]
    refine (captureExtent tidy bears).bind fun ended m₁ first continues => ?_
    refine (stores.newContinuation first.holds).bind fun ref m₂ second _ => ?_
    refine (stores.tell second.holds _).bind fun _ m₃ third _ => ?_
    have hardens := second.leads.trans third.leads
    have bodyLazy : signature.isLazy = true := by simp [Signature.isLazy, isLazy]
    rw [bodyLazy] at ofBody
    refine .pure third.holds ⟨⟨ofCode.loosen fun _ => rfl, rfl, rfl, ofBody⟩, ?_⟩
    exact ⟨continues.isLazy, continues.bears.mono hardens⟩

end Exec.Prompt

end Trampoline
