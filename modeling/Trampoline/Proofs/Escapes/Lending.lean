import Trampoline.Proofs.Escapes.Arrival
import Trampoline.Proofs.Escapes.Confinement
import Trampoline.Proofs.Evaluation.Natives

/-!
# Escapes while their points run

What tasks rely on and what they answer, so that escapes stay in the cells of parameters: a body
that is lent an escape can call it while it runs, and then the point of the escape is running.
-/

namespace Trampoline

open Exec

/-! ## What tasks are lent -/

namespace Machine

/-- The body of the frame may evaluate the expression. -/
def Lets (m : Machine) (frame : Frame) (e : Expr) : Prop :=
  e.Honours (m.Harmless frame.env) (m.Lends frame) ∧ AllConfine e.functions

/-- The body of the frame may evaluate the expressions. -/
def LetsAll (m : Machine) (frame : Frame) (es : List Expr) : Prop :=
  AllHonour (m.Harmless frame.env) (m.Lends frame) es ∧ AllConfine (functionsOfAll es)

/-- The body of the frame may evaluate the keyword arguments. -/
def LetsNamed (m : Machine) (frame : Frame) (es : List (String × Expr)) : Prop :=
  NamedHonour (m.Harmless frame.env) (m.Lends frame) es ∧ AllConfine (functionsOfKwargs es)

/-- The body of the frame may evaluate the arms. -/
def LetsArms (m : Machine) (frame : Frame) (arms : List (Expr × Expr)) : Prop :=
  ArmsHonour (m.Harmless frame.env) (m.Lends frame) arms ∧ AllConfine (functionsOfArms arms)

variable {m m' : Machine} {frame next : Frame}

section Mono

variable (upholds : m.Upholds m') (proceeds : frame.Proceeds m' next)
include upholds proceeds

/-- An expression that may be evaluated here may be so later on. -/
theorem Lets.mono {e : Expr} (lets : m.Lets frame e) : m'.Lets next e :=
  ⟨lets.1.mono (proceeds.widens upholds), lets.2⟩

theorem LetsAll.mono {es : List Expr} (lets : m.LetsAll frame es) : m'.LetsAll next es :=
  ⟨lets.1.mono (proceeds.widens upholds), lets.2⟩

/-- So may keyword arguments. -/
theorem LetsNamed.mono {es : List (String × Expr)} (lets : m.LetsNamed frame es) :
    m'.LetsNamed next es :=
  ⟨lets.1.mono (proceeds.widens upholds), lets.2⟩

/-- So may arms. -/
theorem LetsArms.mono {arms : List (Expr × Expr)} (lets : m.LetsArms frame arms) :
    m'.LetsArms next arms :=
  ⟨lets.1.mono (proceeds.widens upholds), lets.2⟩

end Mono

variable {e : Expr} {name : String}

theorem LetsAll.cons {rest : List Expr} (lets : m.LetsAll frame (e :: rest)) :
    m.Lets frame e ∧ m.LetsAll frame rest := by
  obtain ⟨⟨ofFirst, ofRest⟩, confine⟩ := lets
  obtain ⟨inFirst, inRest⟩ := allConfine_append.mp confine
  exact ⟨⟨ofFirst, inFirst⟩, ofRest, inRest⟩

/-- Of keyword arguments too. -/
theorem LetsNamed.cons {rest : List (String × Expr)}
    (lets : m.LetsNamed frame ((name, e) :: rest)) :
    m.Lets frame e ∧ m.LetsNamed frame rest := by
  obtain ⟨⟨ofFirst, ofRest⟩, confine⟩ := lets
  obtain ⟨inFirst, inRest⟩ := allConfine_append.mp confine
  exact ⟨⟨ofFirst, inFirst⟩, ofRest, inRest⟩

/-- Of arms too, with their tests. -/
theorem LetsArms.cons {test body : Expr} {rest : List (Expr × Expr)}
    (lets : m.LetsArms frame ((test, body) :: rest)) :
    m.Lets frame test ∧ m.Lets frame body ∧ m.LetsArms frame rest := by
  obtain ⟨⟨ofTest, ofBody, ofRest⟩, confine⟩ := lets
  simp only [functionsOfArms, allConfine_append] at confine
  obtain ⟨⟨inTest, inBody⟩, inRest⟩ := confine
  exact ⟨⟨ofTest, inTest⟩, ⟨ofBody, inBody⟩, ofRest, inRest⟩

/-- A name that is lent and turned out harmless was harmless before. -/
theorem Lends.harmless (lends : m.Lends frame name) (same : m.SameTags m')
    (harmless : m'.Harmless frame.env name) : m.Harmless frame.env name := by
  intro ref known
  have inside := (lends.running ref known).1
  exact ⟨inside, (same.tags ref inside).symm.trans (harmless ref known).2⟩

end Machine

/-- The value is no escape and holds none, or it is an escape whose point is running. -/
def Value.Handed (m : Machine) (value : Value) : Prop :=
  value.Free m ∨ ∃ tag, value = .func (.escape tag) ∧ m.running tag = true

theorem Value.Handed.mono {m m' : Machine} {value : Value} (handed : value.Handed m)
    (upholds : m.Upholds m') : value.Handed m' := by
  refine handed.imp (fun free => free.mono upholds.toSameTags) ?_
  rintro ⟨tag, same, running⟩
  exact ⟨tag, same, (upholds.points tag).trans running⟩

/-- How a callable may be applied: an escape while its point runs, and an escape is passed only to
what takes one. -/
inductive Callable.Accepts (m : Machine) : Callable -> List Value -> Prop where
  | free {callable : Callable} {args : List Value} (free : callable.Free m)
    (ofArgs : AllFree m args) : Accepts m callable args
  | escape {tag : Nat} {args : List Value} (running : m.running tag = true)
    (ofArgs : AllFree m args) : Accepts m (.escape tag) args
  | lent {callable : Callable} {tag : Nat} {args : List Value} (takes : callable.TakesEscape m)
    (running : m.running tag = true) (ofArgs : AllFree m args) :
    Accepts m callable (.func (.escape tag) :: args)

/-- What the thunk mentions is harmless. -/
def Thunk.Free (m : Machine) : Thunk -> Prop
  | .expr e env => e.Honours (m.Harmless env) (fun _ => False) ∧ AllConfine e.functions
  | .global _ => True

/-- There is no way from the promise to an escape. -/
def Promise.Free (m : Machine) : Promise -> Prop
  | .pending thunk => thunk.Free m
  | .forced value => value.Free m
  | .forcing => True

/-- There is no way from the jump to an escape. -/
structure Jump.Free (m : Machine) (jump : Jump) : Prop where
  target : jump.target.Free m
  args : AllFree m jump.args
  kwargs : NamedFree m jump.kwargs
  cc : ∀ value ∈ jump.cc, value.Free m

/-- Escapes are made while their points run, with values that hold no escapes. -/
def EvalError.Confined (m : Machine) : EvalError -> Prop
  | .escape _ value => value.Free m
  | .escapeOutsideExtent => False
  | _ => True

/-- What a task relies on. -/
@[reducible]
def Task.Borrows : Task -> Machine -> Prop
  | eval e frame, m | evalForced e frame, m =>
    m.Lets frame e ∨ e.IsLent (m.Lends frame)
  | evalContinuation cc frame, m => ∀ e ∈ cc, m.Lets frame e
  | operand _ e frame, m => m.Lets frame e
  | delayed e frame, m => m.Lets frame e ∧ frame.isLazy = true
  | operands _ es frame, m => m.LetsAll frame es
  | keywords _ es frame, m => m.LetsNamed frame es
  | evalArms arms alt frame, m => m.LetsArms frame arms ∧ ∀ e ∈ alt, m.Lets frame e
  | evalShort _ es last frame, m | evalItems es last frame, m =>
    m.LetsAll frame es ∧ last.Free m
  | evalLoop test body frame, m => m.Lets frame test ∧ m.Lets frame body
  | force value, m => value.Handed m
  | runThunk thunk, m => thunk.Free m
  | forceDeep value, m | trampoline _ value, m | runJumps _ value, m => value.Free m
  | takeStep _ _, _ => True
  | apply callable args kwargs, m => callable.Accepts m args ∧ NamedFree m kwargs
  | call callable args kwargs, m => callable.Free m ∧ AllFree m args ∧ NamedFree m kwargs
  | forceForStrict _ _ args kwargs, m => AllFree m args ∧ NamedFree m kwargs
  | forceAll values, m | forceArgs values, m | forceKeys values, m | shownDeep values, m
  | applyNative _ values, m => AllFree m values
  | forceKwargs kwargs, m | forceKwargKeys kwargs, m => NamedFree m kwargs

/-- What a task answers. -/
@[reducible]
def Task.GivesBack : (task : Task) -> task.Answer -> Machine -> Prop
  | eval e frame, (value, next), m | evalForced e frame, (value, next), m =>
    value.Handed m ∧ (m.Lets frame e -> value.Free m) ∧ frame.Proceeds m next
  | evalContinuation _ frame, (cc, next), m =>
    (∀ value ∈ cc, value.Free m) ∧ frame.Proceeds m next
  | operand _ _ frame, (value, next), m | delayed _ frame, (value, next), m
  | evalArms _ _ frame, (value, next), m | evalShort _ _ _ frame, (value, next), m
  | evalItems _ _ frame, (value, next), m | evalLoop _ _ frame, (value, next), m =>
    value.Free m ∧ frame.Proceeds m next
  | operands _ _ frame, (values, next), m => AllFree m values ∧ frame.Proceeds m next
  | keywords _ _ frame, (kwargs, next), m => NamedFree m kwargs ∧ frame.Proceeds m next
  | force first, value, m => value.Handed m ∧ (first.Free m -> value.Free m)
  | runThunk _, value, m | forceDeep _, value, m | apply _ _ _, value, m | call _ _ _, value, m
  | trampoline _ _, value, m | runJumps _ _, value, m | takeStep _ _, value, m
  | applyNative _ _, value, m => value.Free m
  | forceForStrict _ _ _ _, (args, kwargs), m => AllFree m args ∧ NamedFree m kwargs
  | forceAll _, values, m | forceArgs _, values, m | forceKeys _, (values, _), m =>
    AllFree m values
  | forceKwargs _, kwargs, m | forceKwargKeys _, (kwargs, _), m => NamedFree m kwargs
  | shownDeep _, _, _ => True

/-! ## The discipline -/

/-- Only cells hold escapes, and nothing else that is stored gets at one. -/
def Storage.free : Storage where
  value value m := value.Free m
  content value m := value.escapeTag? = none -> value.Free m
  promise promise m := promise.Free m
  jump jump m := jump.Free m

section Mono

variable {m m' : Machine} (same : m.SameTags m')
include same

theorem Thunk.Free.mono {thunk : Thunk} (free : thunk.Free m) : thunk.Free m' := by
  cases thunk with
  | expr e env => exact ⟨free.1.mono (same.widens env), free.2⟩
  | global name => trivial

theorem Promise.Free.mono {promise : Promise} (free : promise.Free m) : promise.Free m' := by
  cases promise with
  | pending thunk => exact Thunk.Free.mono same free
  | forced value => exact Value.Free.mono same free
  | forcing => trivial

theorem Jump.Free.mono {jump : Jump} (free : jump.Free m) : jump.Free m' where
  target := free.target.mono same
  args := free.args.mono same
  kwargs := free.kwargs.mono same
  cc value member := (free.cc value member).mono same

theorem EvalError.Confined.mono {error : EvalError} (confined : error.Confined m) :
    error.Confined m' := by
  cases error with
  | escape tag value => exact Value.Free.mono same confined
  | escapeOutsideExtent => exact confined.elim
  | _ => trivial

/-- What may be stored depends on the escapes in cells only. -/
theorem Machine.SameTags.lasts : Storage.free.Lasts m m' where
  value _ free := free.mono same
  content _ free untagged := (free untagged).mono same
  promise _ free := free.mono same
  jump _ free := free.mono same

end Mono

/-- Escapes are lent while their points run. -/
@[reducible]
def lending : Discipline where
  holds := Machine.Keeps .free
  leads := Machine.Upholds
  fails error m := error.Confined m
  asks := Task.Borrows
  answers := Task.GivesBack
  refl := Machine.Upholds.refl
  trans := Machine.Upholds.trans
  fails_leads upholds confined := confined.mono upholds.toSameTags
  unwinds m extents stack keeps := by
    have same : Machine.Adds .free m { m with extents, stack } := .of_same rfl rfl rfl rfl rfl rfl
    have upholds : m.Upholds { m with extents, stack } := .of_eq rfl rfl
    exact same.keeps upholds.toSameTags.lasts keeps
  leads_unwinds _ _ _ := .of_eq rfl rfl

namespace Exec.Lending

variable {α : Type} {m m' : Machine} {value : Value}

theorem stores : lending.Stores .free where
  holds := Iff.rfl
  lasts upholds := upholds.toSameTags.lasts
  leads := .of_eq
  fails {error m} noEscape inside := by
    cases error with
    | escape => cases noEscape
    | escapeOutsideExtent => exact absurd rfl inside
    | _ => trivial
  nil := trivial
  bool := trivial
  int := trivial
  str := trivial
  list := trivial
  tuple := allFree_iff
  content free _ := free
  forcing := trivial

/-- A failure with a confined error lends nothing. -/
theorem failing {error : EvalError} {post : α -> Machine -> Prop} (keeps : m.Keeps .free)
    (confined : error.Confined m) : Observes lending m (fail error) post := .fail keeps confined

/-! ## Steps on the machine -/

/-- A new cell upholds the points that are running. -/
theorem upholds_newCell (value : Value) : m.Upholds { m with cells := m.cells.push value } where
  size := by simp
  tags ref inside := by
    simp [Machine.cell, Array.getD_eq_getD_getElem?, Array.getElem?_push, Nat.ne_of_lt inside]
  points := .of_eq rfl

theorem newCell (keeps : m.Keeps .free) (content : value.escapeTag? = none -> value.Free m) :
    Observes lending m (Run.newCell value) fun ref m' =>
      ref < m'.cells.size ∧ m'.cell ref = value :=
  stores.newCell keeps (upholds_newCell value) content

variable {ref : CellRef} {name : String} {frame : Frame} {function : Function}

/-- A cell that holds no escape may get what is none. -/
theorem upholds_setCell (untagged : (m.cell ref).escapeTag? = none)
    (free : value.Free m) : m.Upholds { m with cells := m.cells.setIfInBounds ref value } where
  size := by simp
  tags other inside := by
    simp only [Machine.cell, Array.getD_eq_getD_getElem?, Array.getElem?_setIfInBounds]
      at untagged ⊢
    by_cases same : ref = other
    · subst same
      simp only [if_true, inside] at untagged ⊢
      exact free.untagged.trans untagged.symm
    · simp only [same, if_false]
  points := .of_eq rfl

theorem setCell (keeps : m.Keeps .free) (untagged : (m.cell ref).escapeTag? = none)
    (free : value.Free m) : Observes lending m (Run.setCell ref value) fun _ _ => True :=
  stores.setCell keeps ref (upholds_setCell untagged free) fun _ => free

theorem assign (keeps : m.Keeps .free)
    (harmless : m.Harmless frame.env name) (free : value.Free m) :
    Observes lending m (Body.run (Body.assign name value) frame) fun _ _ => True :=
  stores.assign keeps name frame free fun ref known => upholds_setCell (harmless ref known).2 free

/-- A harmless name stands for no escape. -/
theorem lookup (keeps : m.Keeps .free) (harmless : m.Harmless frame.env name) :
    Observes lending m (Body.run (Body.lookup name) frame) fun value m' =>
      value.Free m' ∧ m' = m := by
  refine (stores.lookup keeps name frame).imp ?_
  rintro value m' - ⟨rfl, found⟩
  refine ⟨?_, rfl⟩
  cases known : frame.env.lookup name with
  | some ref =>
    simp only [known] at found
    subst found
    have keeps : m'.Keeps .free := keeps
    exact keeps.cell (fun _ => trivial) ref (harmless ref known).2
  | none =>
    simp only [known] at found
    exact found

/-- A name that is lent stands for an escape whose point is running, or for no escape. -/
theorem borrow (keeps : m.Keeps .free) (lends : m.Lends frame name) :
    Observes lending m (Body.run (Body.lookup name) frame) fun value m' =>
      value.Handed m' ∧ (m'.Harmless frame.env name -> value.Free m') ∧ m' = m := by
  refine (stores.lookup keeps name frame).imp ?_
  rintro value m' - ⟨rfl, found⟩
  cases known : frame.env.lookup name with
  | some ref =>
    simp only [known] at found
    subst found
    have keeps : m'.Keeps .free := keeps
    have content := keeps.cell (fun _ => trivial) ref
    refine ⟨?_, fun harmless => content (harmless ref known).2, rfl⟩
    cases tagged : (m'.cell ref).escapeTag? with
    | none => exact .inl (content tagged)
    | some tag =>
      exact .inr ⟨tag, Value.eq_escape tagged, (lends.running ref known).2 tag tagged⟩
  | none =>
    simp only [known] at found
    exact ⟨.inl found, fun _ => found, rfl⟩

theorem callable (keeps : m.Keeps .free) (free : value.Free m) :
    Observes lending m value.callable fun callable m' => callable.Free m' := by
  refine (stores.callable keeps value).imp ?_
  rintro callable m' - ⟨rfl, rfl⟩
  exact free

/-! ### Functions -/

/-- What wrapping a function comes to: nothing that gets at an escape, and what takes one if the
function does and no wrapper stands in between. -/
structure Wraps (function : Function) (wrappers : List Decorator) (callable : Callable)
    (m : Machine) : Prop where
  free : callable.Free m
  takes : (∀ wrapper ∈ wrappers, wrapper = .continuations) -> function.TakesEscape ->
    callable.TakesEscape m

/-- The wrappers of a function that confines its escapes make a callable that takes them or is
free. -/
theorem wrap (keeps : m.Keeps .free) {base : Callable}
    (confines : function.Confines) (bare : Wraps function [] base m)
    {outer wrappers : List Decorator} (split : function.signature.wrappers = outer ++ wrappers) :
    Observes lending m (wrap base wrappers) (Wraps function wrappers) := by
  induction wrappers generalizing outer with
  | nil => exact .pure keeps bare
  | cons wrapper inside ih =>
    have further : function.signature.wrappers = (outer ++ [wrapper]) ++ inside := by
      rw [split, List.append_assoc, List.singleton_append]
    refine (ih further).bind fun inner m' reaches wraps => ?_
    have never (other : wrapper ≠ .continuations) {callable : Callable} {later : Machine} :
        (∀ outer ∈ wrapper :: inside, outer = .continuations) -> function.TakesEscape ->
          callable.TakesEscape later :=
      fun all => absurd (all wrapper List.mem_cons_self) other
    cases wrapper with
    | memoize =>
      refine (stores.newCache reaches.holds).bind fun cache m'' later _ => ?_
      exact .pure later.holds ⟨wraps.free.mono later.leads.toSameTags, never (by decide)⟩
    | trampolined | looped | lazy => exact .pure reaches.holds ⟨wraps.free, never (by decide)⟩
    | callEc =>
      have listed : Decorator.callEc ∈ function.signature.wrappers := by
        rw [split]
        exact List.mem_append_right _ List.mem_cons_self
      have takes := wraps.takes (confines.inside outer inside split) (confines.takes listed)
      exact .pure reaches.holds ⟨takes, never (by decide)⟩
    | continuations =>
      refine .pure reaches.holds ⟨wraps.free, fun all => ?_⟩
      exact wraps.takes fun inner member => all inner (List.mem_cons_of_mem _ member)

/-- A function that confines its escapes is closed over a scope that holds none of them. -/
theorem makeClosure (keeps : m.Keeps .free)
    (confines : function.Confines) (encloses : m.Encloses function frame.env) :
    Observes lending m (expose (makeClosure function) frame) fun ended m' =>
      ended.1.Free m' ∧ ended.2 = frame := by
  simp only [Trampoline.makeClosure]
  rw [expose_bind, expose_frame, pure_bind]
  simp only [confines.kind, expose_bind, expose_within, expose_pure, bind_assoc, pure_bind]
  refine (stores.newClosure keeps).bind fun ref m' reaches _ => ?_
  have encloses := encloses.mono reaches.leads.toSameTags
  have bare : Wraps function [] (.closure ref function frame.env) m' :=
    ⟨encloses, fun _ takes => ⟨takes, encloses⟩⟩
  refine (wrap reaches.holds confines bare (List.nil_append _).symm).bind
    fun callable m'' later wraps => ?_
  exact .pure later.holds ⟨wraps.free, rfl⟩

/-! ### Parameters -/

/-- What a parameter is bound to: an escape only as `fine` says. -/
def BoundFine (fine : String -> Option Nat -> Prop) (m : Machine)
    (bound : List (String × Option Value)) : Prop :=
  ∀ entry ∈ bound, ∀ value ∈ entry.2,
    fine entry.1 value.escapeTag? ∧ (value.escapeTag? = none -> value.Free m)

/-- What names stand for in a scope, where they do not stand for what they did before. -/
def ScopeFine (fine : String -> Option Nat -> Prop) (env : Env) (scope : Env) (m : Machine) :
    Prop :=
  ∀ name ref, scope.lookup name = some ref -> env.lookup name = some ref ∨
    ref < m.cells.size ∧ fine name (m.cell ref).escapeTag?

section Parameters

variable {fine : String -> Option Nat -> Prop} (harmless : ∀ name, fine name none)

variable {bound : List (String × Option Value)} {kwargs : Kwargs}

theorem BoundFine.mono (bounds : BoundFine fine m bound)
    (same : m.SameTags m') : BoundFine fine m' bound := fun entry member value given =>
  ⟨(bounds entry member value given).1,
    fun untagged => ((bounds entry member value given).2 untagged).mono same⟩

include harmless

/-- Free arguments are fine for all parameters. -/
theorem bindPositional_fine {params : List String} {values : List Value} (free : AllFree m values) :
    BoundFine fine m (bindPositional params values) := by
  induction params generalizing values with
  | nil => exact fun _ member => absurd member List.not_mem_nil
  | cons param params ih =>
    cases values with
    | nil => exact List.forall_mem_cons.mpr ⟨nofun, ih free⟩
    | cons value rest =>
      obtain ⟨ofFirst, ofRest⟩ := free
      refine List.forall_mem_cons.mpr ⟨?_, ih ofRest⟩
      rintro _ ⟨⟩
      rw [ofFirst.untagged]
      exact ⟨harmless param, fun _ => ofFirst⟩

/-- A free keyword argument is fine for its parameter. -/
theorem bindKeyword_fine {keyword : String} (free : value.Free m)
    {bound' : List (String × Option Value)} (before : BoundFine fine m bound)
    (binds : bindKeyword keyword value bound = some bound') : BoundFine fine m bound' := by
  induction bound generalizing bound' with
  | nil => cases binds
  | cons first rest ih =>
    obtain ⟨ofFirst, ofRest⟩ := List.forall_mem_cons.mp before
    rw [bindKeyword] at binds
    split at binds
    · cases binds
      refine List.forall_mem_cons.mpr ⟨?_, ofRest⟩
      rintro _ ⟨⟩
      rw [free.untagged]
      exact ⟨harmless _, fun _ => free⟩
    · obtain ⟨others, bound, rfl⟩ := Option.map_eq_some_iff.mp binds
      exact List.forall_mem_cons.mpr ⟨ofFirst, ih ofRest bound⟩

/-- Free keyword arguments are fine for theirs. -/
theorem bindKeywords (keeps : m.Keeps .free) (func : String)
    (named : NamedFree m kwargs) (before : BoundFine fine m bound) :
    Observes lending m (bindKeywords func kwargs bound) fun bound m' =>
      BoundFine fine m bound ∧ m' = m := by
  induction kwargs generalizing bound with
  | nil => exact .pure keeps ⟨before, rfl⟩
  | cons first rest ih =>
    obtain ⟨ofFirst, ofRest⟩ := List.forall_mem_cons.mp named
    simp only [Trampoline.bindKeywords]
    cases binds : bindKeyword first.1 first.2 bound with
    | none => exact failing keeps trivial
    | some bound => exact ih ofRest (bindKeyword_fine harmless ofFirst before binds)

omit harmless in
/-- The cells of parameters hold what they were bound to. -/
theorem bindCells (keeps : m.Keeps .free) (func : String)
    {outside env : Env} (bounds : BoundFine fine m bound) (before : ScopeFine fine outside env m) :
    Observes lending m (bindCells func bound env) (ScopeFine fine outside) := by
  induction bound generalizing m env with
  | nil => exact .pure keeps before
  | cons first rest ih =>
    obtain ⟨ofFirst, ofRest⟩ := List.forall_mem_cons.mp bounds
    rcases first with ⟨param, _ | value⟩
    · exact failing keeps trivial
    · obtain ⟨isFine, content⟩ := ofFirst value rfl
      refine (newCell keeps content).bind fun ref m' reaches ⟨inside, held⟩ => ?_
      have same := reaches.leads.toSameTags
      refine ih reaches.holds (BoundFine.mono ofRest same) fun name found known => ?_
      rw [List.lookup_cons] at known
      split at known
      · rename_i named
        obtain rfl := beq_iff_eq.mp named
        obtain rfl := Option.some.inj known
        exact .inr ⟨inside, held.symm ▸ isFine⟩
      · refine (before name found known).imp_right fun ⟨inside, isFine⟩ => ?_
        exact ⟨Nat.lt_of_lt_of_le inside same.size, (same.tags found inside).symm ▸ isFine⟩

theorem parameterScope (keeps : m.Keeps .free) (signature : Signature) (env : Env)
    {args : List Value} (bounds : BoundFine fine m (bindPositional signature.params args))
    (named : NamedFree m kwargs) :
    Observes lending m (parameterScope signature env args kwargs) (ScopeFine fine env) := by
  refine .ite (fun _ => failing keeps trivial) fun _ => ?_
  refine (bindKeywords harmless keeps _ named bounds).bind fun bound m' reaches known => ?_
  obtain ⟨ofBound, rfl⟩ := known
  exact bindCells keeps _ ofBound fun _ _ known => .inl known

end Parameters

end Exec.Lending

end Trampoline
