import Trampoline.Proofs.Promises.Promptness

/-!
# Bodies and promises

The parameters of a lazy function may stand for promises, those of a strict one for plain values
only. Natives compute plain values from plain ones. A body gives its callees what they take: it
delays arguments only for those that take promises. A lazy body forces what it looks up, and a
strict one finds nothing to force.
-/

/-! ## Arguments and promises -/

namespace Trampoline.Exec.Prompt

variable {m m' : Machine} {delayed : Prop}

/-! ## Parameters -/

/-- What the parameters are bound to fits. -/
def BoundFit (delayed : Prop) (m : Machine) (bound : List (String × Option Value)) : Prop :=
  ∀ entry ∈ bound, ∀ value ∈ entry.2, value.Fits delayed m

variable {values args : List Value} {bound : List (String × Option Value)} {kwargs : Kwargs}
  {env : Env} {count : Nat}

/-- Positional arguments that fit are bound to their parameters. -/
theorem bindPositional_fit {params : List String}
    (fit : AllFit delayed m values) : BoundFit delayed m (bindPositional params values) := by
  induction params generalizing values with
  | nil => exact fun _ member => absurd member List.not_mem_nil
  | cons param params ih =>
    cases values with
    | nil => exact List.forall_mem_cons.mpr ⟨nofun, ih fit⟩
    | cons value rest =>
      obtain ⟨ofFirst, ofRest⟩ := List.forall_mem_cons.mp fit
      refine List.forall_mem_cons.mpr ⟨?_, ih ofRest⟩
      rintro _ ⟨⟩
      exact ofFirst

/-- A keyword argument that fits is bound to its parameter. -/
theorem bindKeyword_fit {keyword : String} {value : Value} (fits : value.Fits delayed m)
    {bound' : List (String × Option Value)} (before : BoundFit delayed m bound)
    (binds : bindKeyword keyword value bound = some bound') : BoundFit delayed m bound' := by
  induction bound generalizing bound' with
  | nil => cases binds
  | cons first rest ih =>
    obtain ⟨ofFirst, ofRest⟩ := List.forall_mem_cons.mp before
    rw [bindKeyword] at binds
    split at binds
    · cases binds
      refine List.forall_mem_cons.mpr ⟨?_, ofRest⟩
      rintro _ ⟨⟩
      exact fits
    · obtain ⟨others, bound, rfl⟩ := Option.map_eq_some_iff.mp binds
      exact List.forall_mem_cons.mpr ⟨ofFirst, ih ofRest bound⟩

theorem bindKeywords (tidy : m.Tidy) (func : String)
    (named : NamedFit delayed m kwargs) (before : BoundFit delayed m bound) :
    Observes promptness m (bindKeywords func kwargs bound) fun bound m' =>
      BoundFit delayed m bound ∧ m' = m := by
  induction kwargs generalizing bound with
  | nil => exact .pure tidy ⟨before, rfl⟩
  | cons first rest ih =>
    obtain ⟨ofFirst, ofRest⟩ := List.forall_mem_cons.mp named
    simp only [Trampoline.bindKeywords]
    cases binds : bindKeyword first.1 first.2 bound with
    | none => exact failing tidy trivial
    | some bound => exact ih ofRest (bindKeyword_fit ofFirst before binds)

/-- If no promises are bound then none are in the scope. -/
theorem bindCells (tidy : m.Tidy) (func : String)
    (fit : BoundFit delayed m bound) (solid : ¬delayed -> m.Solid env) :
    Observes promptness m (bindCells func bound env) fun scope m' => ¬delayed ->
      m'.Solid scope := by
  induction bound generalizing m env with
  | nil => exact .pure tidy solid
  | cons first rest ih =>
    obtain ⟨ofFirst, ofRest⟩ := List.forall_mem_cons.mp fit
    rcases first with ⟨param, _ | value⟩
    · exact failing tidy trivial
    · have fits := ofFirst value rfl
      have anyhow : value.Fits True m := fits.imp fun _ => trivial
      refine (newCell tidy anyhow).bind fun ref m' reaches ⟨inside, content⟩ => ?_
      refine ih reaches.holds (fun entry member value bound => ?_) fun strict => ?_
      · exact (ofRest entry member value bound).mono reaches.leads
      · refine ((solid strict).mono reaches.leads).bind inside ?_
        rw [content]
        exact (fits.plain strict).not_promise

theorem parameterScope (tidy : m.Tidy) (signature : Signature)
    (fit : AllFit delayed m args) (named : NamedFit delayed m kwargs)
    (solid : ¬delayed -> m.Solid env) :
    Observes promptness m (parameterScope signature env args kwargs) fun scope m' =>
      ¬delayed -> m'.Solid scope := by
  refine .ite (fun _ => failing tidy trivial) fun _ => ?_
  refine (bindKeywords tidy _ named (bindPositional_fit fit)).bind fun bound m' reaches known => ?_
  obtain ⟨ofBound, rfl⟩ := known
  exact bindCells tidy _ ofBound solid

theorem bindValues (tidy : m.Tidy) (params : List String) (env : Env) (fit : AllFit True m values) :
    Observes promptness m (bindValues params values env) fun _ _ => True := by
  induction params generalizing m values env with
  | nil => exact .pure tidy trivial
  | cons param params ih =>
    cases values with
    | nil => exact .pure tidy trivial
    | cons value values =>
      obtain ⟨ofFirst, ofRest⟩ := List.forall_mem_cons.mp fit
      refine (newCell tidy ofFirst).bind fun ref m' reaches _ => ?_
      exact ih reaches.holds _ (AllFit.mono ofRest reaches.leads)

/-- The values that are handed to several names fit if the arguments do. -/
theorem resumeValues_fit (fit : AllFit True m args)
    (resumes : resumeValues count args = .ok values) : AllFit True m values := by
  unfold resumeValues at resumes
  split at resumes
  · cases resumes
    exact allFit_nil
  · split at resumes
    · cases resumes
      exact fit
    · split at resumes
      · split at resumes <;> cases resumes
        have plain := (fit _ (List.mem_singleton_self _)).of_solid rfl
        exact AllPlain.fit plain
      · cases resumes

/-- What is wrong with the number of arguments is a plain error. -/
theorem resumeValues_fails {error : EvalError}
    (fails : resumeValues count args = .error error) : error.Plain m := by
  unfold resumeValues at fails
  split at fails
  · cases fails
  · split at fails
    · cases fails
    · split at fails <;> try split at fails
      all_goals
        cases fails
        try trivial

end Trampoline.Exec.Prompt

/-! ## Bodies and promises -/

namespace Trampoline

open Exec

namespace Task

open Plan

variable {m : Machine}

variable {e : Expr} {frame : Frame} {es : List Expr} {last : Value}

/-- Evaluating an expression that keeps promises where they may be observes the discipline. -/
theorem eval_observes (tidy : m.Tidy) (obeys : e.Obeys .dressed true)
    (prompt : AllPrompt frame.isLazy e.functions) (bears : m.Bears frame) :
    (eval e frame).plan.Observes promptness m (eval e frame).Delivers := by
  have stays : ∀ {m'}, m.Hardens m' -> frame.Continues m' frame :=
    fun hardens => ⟨rfl, bears.mono hardens⟩
  cases e with
  | lit mark value =>
    have plain : (Value.ofLiteral value).Plain m := Value.plain_ofLiteral value
    exact ⟨plain.returns, fun _ => plain.not_jump, stays (.refl m)⟩
  | var mark name =>
    refine .step (Prompt.lookup tidy name bears) ?_
    rintro value m' reaches ⟨fits, -⟩
    refine .ite (fun isLazy => .ask (.inr (fits.imp fun _ => trivial)) ?_) fun strict => ?_
    · rintro forced m'' later ⟨returns, settles⟩
      exact ⟨returns, fun _ => settles fits.not_jump, stays (reaches.trans later).leads⟩
    · have plain := fits.plain strict
      exact ⟨plain.returns, fun _ => plain.not_jump, stays reaches.leads⟩
  | fn mark signature code =>
    have strict : (Expr.fn mark signature code).Obeys .dressed false := by
      simpa only [Expr.Obeys] using obeys
    refine .lift ((Prompt.makeClosure tidy strict prompt bears).imp ?_)
    rintro ⟨value, next⟩ m' reaches ⟨plain, continues⟩
    exact ⟨plain.returns, fun _ => plain.not_jump, continues⟩
  | call mark func args kwargs =>
    simp only [Expr.Obeys] at obeys
    obtain ⟨ofFunc, ofArgs, ofKwargs⟩ := obeys
    simp only [Expr.functions, allPrompt_append] at prompt
    obtain ⟨⟨inFunc, inArgs⟩, inKwargs⟩ := prompt
    refine .ask ⟨ofFunc.strict, inFunc, bears⟩ ?_
    rintro ⟨value, frame₁⟩ m₁ reaches₁ ⟨returns, settles, continues₁⟩
    refine .step (Prompt.callable reaches₁.holds (returns.plain (settles ofFunc))) ?_
    rintro callee m₂ reaches₂ ⟨ofCallee, sound⟩
    have continues₂ := continues₁.mono reaches₂.leads
    refine .ask ⟨ofArgs, continues₂.prompt inArgs, continues₂.bears⟩ ?_
    rintro ⟨values, frame₃⟩ m₃ reaches₃ ⟨fit, continues₃⟩
    have continues := continues₂.trans continues₃
    refine .ask ⟨ofKwargs, continues.prompt inKwargs, continues.bears⟩ ?_
    rintro ⟨named, frame₄⟩ m₄ reaches₄ ⟨namedFit, continues₄⟩
    -- only what takes promises gets delayed arguments
    have takes : ∀ isLazy : Bool,
        isLazy = true ∧
          (if frame₁.isLazy && callee.isLazy then Policy.delay else .strict) = .delay ->
          callee.Takes := by
      rintro isLazy ⟨-, delays⟩
      split at delays
      · rename_i both
        exact sound.takes (Bool.and_eq_true_iff.mp both).2
      · cases delays
    have sound' := sound.mono (reaches₃.trans reaches₄).leads
    have fit' := (fit.imp (takes _)).mono reaches₄.leads
    refine .ask ⟨⟨ofCallee.may, sound'⟩, fit', namedFit.imp (takes _)⟩ ?_
    rintro result m₅ reaches₅ ⟨returns, settles⟩
    exact ⟨returns, fun _ => settles ofCallee, (continues.trans continues₄).mono reaches₅.leads⟩
  | cond mark arms alt =>
    obtain ⟨ofArms, ofAlt⟩ := Expr.obeys_cond.mp obeys
    obtain ⟨inArms, inAlt⟩ := allPrompt_cond.mp prompt
    refine .sub ⟨ofArms, inArms, fun e member => ⟨ofAlt e member, inAlt e member⟩, bears⟩ ?_
    rintro ⟨value, next⟩ m' reaches ⟨returns, settles, continues⟩
    refine ⟨returns, fun strict => ?_, continues⟩
    obtain ⟨ofArms, ofAlt⟩ := Expr.obeys_cond.mp strict
    exact settles ofArms ofAlt
  | short mark op es =>
    simp only [Expr.Obeys] at obeys
    have start : (Value.bool (op = .and)).Plain m := trivial
    refine .sub ⟨obeys, prompt, start.returns, bears⟩ ?_
    rintro ⟨value, next⟩ m' reaches ⟨returns, settles, continues⟩
    refine ⟨returns, fun strict => settles ?_ rfl, continues⟩
    simpa only [Expr.Obeys] using strict
  | seq mark es =>
    simp only [Expr.Obeys] at obeys
    have start : Value.nil.Plain m := trivial
    refine .ask ⟨obeys, prompt, start.returns, bears⟩ ?_
    rintro ⟨value, next⟩ m' reaches ⟨returns, settles, continues⟩
    refine ⟨returns, fun strict => settles ?_ rfl, continues.isLazy, fun strict => ?_⟩
    · simpa only [Expr.Obeys] using strict
    · exact bears.mono reaches.leads (continues.isLazy.symm.trans strict)
  | bind mark name bindee =>
    simp only [Expr.Obeys] at obeys
    have nothing : ∀ m' : Machine, Value.nil.Plain m' := fun _ => trivial
    cases bindee with
    | fn inner signature code =>
      refine .step (Prompt.newCell tidy (nothing m).fits) ?_
      rintro ref m₁ reaches₁ ⟨inside, content⟩
      have continues₁ : frame.Continues m₁ { frame with env := (name, ref) :: frame.env } :=
        (stays (.refl m)).bind (nothing m).fits reaches₁.leads inside content name
      refine .ask ⟨obeys.strict, prompt, continues₁.bears⟩ ?_
      rintro ⟨value, next⟩ m₂ reaches₂ ⟨returns, settles, continues₂⟩
      refine .step (Prompt.setCell reaches₂.holds ref (returns.plain (settles obeys))) ?_
      rintro _ m₃ reaches₃ -
      have continues := (continues₁.trans continues₂).mono reaches₃.leads
      exact ⟨(nothing m₃).returns, fun _ => rfl, continues⟩
    | _ =>
      refine .ask ⟨obeys, prompt, bears⟩ ?_
      rintro ⟨value, next⟩ m₁ reaches₁ ⟨fits, continues₁⟩
      refine .step (Prompt.newCell reaches₁.holds (fits.imp fun _ => trivial)) ?_
      rintro ref m₂ reaches₂ ⟨inside, content⟩
      have suits := fits.imp fun delays => continues₁.isLazy.trans delays.1
      have continues := continues₁.bind suits reaches₂.leads inside content name
      exact ⟨(nothing m₂).returns, fun _ => rfl, continues⟩
  | assign mark name bindee =>
    simp only [Expr.Obeys] at obeys
    refine .ask ⟨obeys, prompt, bears⟩ ?_
    rintro ⟨value, next⟩ m₁ reaches₁ ⟨fits, continues⟩
    have plain := fits.plain fun delays => Policy.noConfusion delays.2
    refine .step (Prompt.assign reaches₁.holds name plain next) ?_
    rintro _ m₂ reaches₂ -
    have nothing : Value.nil.Plain m₂ := trivial
    exact ⟨nothing.returns, fun _ => rfl, continues.mono reaches₂.leads⟩
  | loop mark test body =>
    simp only [Expr.Obeys] at obeys
    refine .sub ⟨obeys, prompt, bears⟩ ?_
    rintro ⟨value, next⟩ m' reaches ⟨plain, continues⟩
    exact ⟨plain.returns, fun _ => plain.not_jump, continues⟩
  | jump mark func args kwargs cc =>
    obtain ⟨-, ofFunc, ofArgs, ofKwargs, ofCc⟩ := Expr.obeys_jump.mp obeys
    obtain ⟨inFunc, inArgs, inKwargs, inCc⟩ := allPrompt_jump.mp prompt
    refine .ask ⟨ofFunc.strict, inFunc, bears⟩ ?_
    rintro ⟨value, frame₁⟩ m₁ reaches₁ ⟨returns, settles, continues₁⟩
    refine .step (Prompt.callable reaches₁.holds (returns.plain (settles ofFunc))) ?_
    rintro target m₂ reaches₂ ⟨ofTarget, sound⟩
    have continues₂ := continues₁.mono reaches₂.leads
    refine .ask ⟨ofArgs, continues₂.prompt inArgs, continues₂.bears⟩ ?_
    rintro ⟨values, frame₃⟩ m₃ reaches₃ ⟨fit, continues₃⟩
    have continues₃ := continues₂.trans continues₃
    refine .ask ⟨ofKwargs, continues₃.prompt inKwargs, continues₃.bears⟩ ?_
    rintro ⟨named, frame₄⟩ m₄ reaches₄ ⟨namedFit, continues₄⟩
    have continues₄ := continues₃.trans continues₄
    have inner : ∀ e ∈ cc, e.Obeys .dressed false ∧ AllPrompt frame₄.isLazy e.functions :=
      fun e member => ⟨ofCc e member, continues₄.prompt (inCc e member)⟩
    refine .ask ⟨inner, continues₄.bears⟩ ?_
    rintro ⟨continuation, frame₅⟩ m₅ reaches₅ ⟨ofContinuation, continues₅⟩
    have lastly := reaches₄.trans reaches₅
    have jumps : Jump.Sound m₅ ⟨target, values, named, continuation⟩ :=
      { obeys := ofTarget
        target := sound.mono (reaches₃.trans lastly).leads
        args := (fit.imp fun _ => trivial).mono lastly.leads
        kwargs := (namedFit.imp fun _ => trivial).mono reaches₅.leads
        cc := ofContinuation }
    refine .step (Prompt.stores.newJump reaches₅.holds jumps) ?_
    rintro _ m₆ reaches₆ ⟨ref, rfl⟩
    refine ⟨.inl rfl, fun strict => ?_, (continues₄.trans continues₅).mono reaches₆.leads⟩
    cases (Expr.obeys_jump.mp strict).1
  | capture mark binders call => exact .lift (Prompt.failing tidy trivial)

/-- Forcing what an expression came to observes the discipline. -/
theorem evalForced_observes (obeys : e.Obeys .dressed true)
    (prompt : AllPrompt frame.isLazy e.functions) (bears : m.Bears frame) :
    (evalForced e frame).plan.Observes promptness m (evalForced e frame).Delivers := by
  refine .ask ⟨obeys, prompt, bears⟩ ?_
  rintro ⟨value, next⟩ m₁ reaches₁ ⟨returns, settles, continues⟩
  refine .ask (returns.imp_right Value.Plain.fits) ?_
  rintro forced m₂ reaches₂ ⟨returns', settles'⟩
  exact ⟨returns', fun strict => settles' (settles strict), continues.mono reaches₂.leads⟩

/-- The continuation of a jump is a plain value. -/
theorem evalContinuation_observes {cc : Option Expr}
    (inner : ∀ e ∈ cc, e.Obeys .dressed false ∧ AllPrompt frame.isLazy e.functions)
    (bears : m.Bears frame) :
    (evalContinuation cc frame).plan.Observes promptness m
      (evalContinuation cc frame).Delivers := by
  cases cc with
  | none => exact ⟨nofun, rfl, bears⟩
  | some e =>
    obtain ⟨obeys, prompt⟩ := inner e rfl
    refine .ask ⟨obeys.strict, prompt, bears⟩ ?_
    rintro ⟨value, next⟩ m' reaches ⟨returns, settles, continues⟩
    refine ⟨?_, continues⟩
    rintro _ ⟨⟩
    exact returns.plain (settles obeys)

/-- An operand may be a promise in a lazy body only. -/
theorem operand_observes (policy : Policy)
    (obeys : e.Obeys .dressed false) (prompt : AllPrompt frame.isLazy e.functions)
    (bears : m.Bears frame) :
    (operand policy e frame).plan.Observes promptness m (operand policy e frame).Delivers := by
  refine .ite (fun _ => .sub ⟨obeys.strict, prompt, bears⟩ ?_) fun isLazy => ?_
  · rintro ⟨value, next⟩ m' reaches ⟨returns, settles, continues⟩
    exact ⟨(returns.plain (settles obeys)).fits, continues⟩
  · cases policy with
    | strict =>
      refine .sub ⟨obeys.strict, prompt, bears⟩ ?_
      rintro ⟨value, next⟩ m' reaches ⟨returns, settles, continues⟩
      exact ⟨(returns.plain (settles obeys)).fits, continues⟩
    | delay =>
      have isLazy : frame.isLazy = true := by simpa using isLazy
      rw [isLazy] at prompt
      refine .sub ⟨obeys, prompt, isLazy⟩ ?_
      rintro ⟨value, next⟩ m' reaches ⟨fits, continues⟩
      exact ⟨fits.imp fun _ => ⟨isLazy, rfl⟩, continues⟩

/-- An expression is delayed in lazy bodies only, as a promise. -/
theorem delayed_observes (tidy : m.Tidy) (obeys : e.Obeys .dressed false)
    (prompt : AllPrompt true e.functions) (isLazy : frame.isLazy = true) :
    (delayed e frame).plan.Observes promptness m (delayed e frame).Delivers := by
  have bears : ∀ m' : Machine, m'.Bears frame := fun _ strict => by cases strict.symm.trans isLazy
  have inBody : AllPrompt frame.isLazy e.functions := by rwa [isLazy]
  cases e with
  | var mark name =>
    refine .step (Prompt.lookup tidy name (bears m)) ?_
    rintro value m' reaches ⟨fits, -⟩
    exact ⟨fits.imp fun _ => trivial, rfl, bears m'⟩
  | lit | fn =>
    refine .sub ⟨obeys.strict, inBody, bears m⟩ ?_
    rintro ⟨value, next⟩ m' reaches ⟨returns, settles, continues⟩
    exact ⟨(returns.plain (settles obeys)).fits, continues⟩
  | _ =>
    refine .step (Prompt.stores.newPromise tidy ⟨obeys, prompt⟩) ?_
    rintro _ m' reaches ⟨ref, rfl⟩
    exact ⟨.inr ⟨rfl, trivial⟩, rfl, bears m'⟩

/-- Operands fit the callee that they are evaluated for. -/
theorem operands_observes (policy : Policy)
    (obey : AllObey .dressed es) (prompt : AllPrompt frame.isLazy (functionsOfAll es))
    (bears : m.Bears frame) :
    (operands policy es frame).plan.Observes promptness m (operands policy es frame).Delivers := by
  cases es with
  | nil => exact ⟨allFit_nil, rfl, bears⟩
  | cons e rest =>
    simp only [AllObey] at obey
    obtain ⟨inFirst, inRest⟩ := allPrompt_append.mp prompt
    refine .ask ⟨obey.1, inFirst, bears⟩ ?_
    rintro ⟨value, frame₁⟩ m₁ reaches₁ ⟨fits, continues₁⟩
    refine .ask ⟨obey.2, continues₁.prompt inRest, continues₁.bears⟩ ?_
    rintro ⟨others, frame₂⟩ m₂ reaches₂ ⟨fit, continues₂⟩
    rw [continues₁.isLazy] at fit
    exact ⟨.cons (fits.mono reaches₂.leads) fit, continues₁.trans continues₂⟩

/-- Keyword operands fit the callee that they are evaluated for. -/
theorem keywords_observes (policy : Policy) {es : List (String × Expr)}
    (obey : AllNamedObey .dressed es) (prompt : AllPrompt frame.isLazy (functionsOfKwargs es))
    (bears : m.Bears frame) :
    (keywords policy es frame).plan.Observes promptness m (keywords policy es frame).Delivers := by
  cases es with
  | nil => exact ⟨namedFit_nil, rfl, bears⟩
  | cons named rest =>
    simp only [AllNamedObey] at obey
    obtain ⟨inFirst, inRest⟩ := allPrompt_append.mp prompt
    refine .ask ⟨obey.1, inFirst, bears⟩ ?_
    rintro ⟨value, frame₁⟩ m₁ reaches₁ ⟨fits, continues₁⟩
    refine .ask ⟨obey.2, continues₁.prompt inRest, continues₁.bears⟩ ?_
    rintro ⟨others, frame₂⟩ m₂ reaches₂ ⟨fit, continues₂⟩
    rw [continues₁.isLazy] at fit
    exact ⟨.cons (fits.mono reaches₂.leads) fit, continues₁.trans continues₂⟩

/-- The arm that is chosen returns what its body returns. -/
theorem evalArms_observes {arms : List (Expr × Expr)} {alt : Option Expr}
    (ofArms : ArmsObey .dressed true arms) (inArms : AllPrompt frame.isLazy (functionsOfArms arms))
    (ofAlt : ∀ e ∈ alt, e.Obeys .dressed true ∧ AllPrompt frame.isLazy e.functions)
    (bears : m.Bears frame) :
    (evalArms arms alt frame).plan.Observes promptness m (evalArms arms alt frame).Delivers := by
  cases arms with
  | nil =>
    cases alt with
    | none =>
      have nothing : Value.nil.Plain m := trivial
      exact ⟨nothing.returns, fun _ _ => rfl, rfl, bears⟩
    | some e =>
      obtain ⟨obeys, prompt⟩ := ofAlt e rfl
      refine .sub ⟨obeys, prompt, bears⟩ ?_
      rintro ⟨value, next⟩ m' reaches ⟨returns, settles, continues⟩
      exact ⟨returns, fun _ strict => settles (strict e rfl), continues⟩
  | cons arm rest =>
    simp only [ArmsObey] at ofArms
    obtain ⟨ofTest, ofBody, ofRest⟩ := ofArms
    simp only [functionsOfArms, allPrompt_append] at inArms
    obtain ⟨⟨inTest, inBody⟩, inRest⟩ := inArms
    refine .ask ⟨ofTest.strict, inTest, bears⟩ ?_
    rintro ⟨test, frame₁⟩ m₁ reaches₁ ⟨-, -, continues₁⟩
    refine .ite (fun _ => .sub ⟨ofBody, continues₁.prompt inBody, continues₁.bears⟩ ?_) fun _ => ?_
    · rintro ⟨value, next⟩ m₂ reaches₂ ⟨returns, settles, continues₂⟩
      refine ⟨returns, fun strict _ => settles ?_, continues₁.trans continues₂⟩
      simp only [ArmsObey] at strict
      exact strict.2.1
    · have ofAlt : ∀ e ∈ alt, e.Obeys .dressed true ∧ AllPrompt frame₁.isLazy e.functions :=
        fun e member => ⟨(ofAlt e member).1, continues₁.prompt (ofAlt e member).2⟩
      refine .sub ⟨ofRest, continues₁.prompt inRest, ofAlt, continues₁.bears⟩ ?_
      rintro ⟨value, next⟩ m₂ reaches₂ ⟨returns, settles, continues₂⟩
      refine ⟨returns, fun strict => settles ?_, continues₁.trans continues₂⟩
      simp only [ArmsObey] at strict
      exact strict.2.2

/-- A connective returns one of its operands. -/
theorem evalShort_observes (op : Connective)
    (obeys : LastObeys .dressed true es) (prompt : AllPrompt frame.isLazy (functionsOfAll es))
    (ofLast : last.Returns m) (bears : m.Bears frame) :
    (evalShort op es last frame).plan.Observes promptness m
      (evalShort op es last frame).Delivers := by
  cases es with
  | nil => exact ⟨ofLast, fun _ => id, rfl, bears⟩
  | cons e rest =>
    obtain ⟨ofFirst, -, ofRest⟩ := obeys.first
    obtain ⟨inFirst, inRest⟩ := allPrompt_append.mp prompt
    refine .ask ⟨ofFirst, inFirst, bears⟩ ?_
    rintro ⟨value, frame₁⟩ m₁ reaches₁ ⟨returns, settles, continues₁⟩
    refine .ite (fun _ => ?_) fun _ =>
      .sub ⟨ofRest, continues₁.prompt inRest, returns, continues₁.bears⟩ ?_
    · exact ⟨returns, fun strict _ => settles strict.first.1, continues₁⟩
    · rintro ⟨value', frame₂⟩ m₂ reaches₂ ⟨returns', settles', continues₂⟩
      refine ⟨returns', fun strict _ => ?_, continues₁.trans continues₂⟩
      exact settles' strict.first.2.2 (settles strict.first.1)

/-- A block returns its last item. -/
theorem evalItems_observes (obeys : LastObeys .dressed true es)
    (prompt : AllPrompt frame.isLazy (functionsOfAll es)) (ofLast : last.Returns m)
    (bears : m.Bears frame) :
    (evalItems es last frame).plan.Observes promptness m (evalItems es last frame).Delivers := by
  cases es with
  | nil => exact ⟨ofLast, fun _ => id, rfl, bears⟩
  | cons e rest =>
    obtain ⟨ofFirst, -, ofRest⟩ := obeys.first
    obtain ⟨inFirst, inRest⟩ := allPrompt_append.mp prompt
    refine .ask ⟨ofFirst, inFirst, bears⟩ ?_
    rintro ⟨value, frame₁⟩ m₁ reaches₁ ⟨returns, settles, continues₁⟩
    refine .sub ⟨ofRest, continues₁.prompt inRest, returns, continues₁.bears⟩ ?_
    rintro ⟨value', frame₂⟩ m₂ reaches₂ ⟨returns', settles', continues₂⟩
    refine ⟨returns', fun strict _ => ?_, continues₁.trans continues₂⟩
    exact settles' strict.first.2.2 (settles strict.first.1)

/-- A loop returns no promise. -/
theorem evalLoop_observes {test body : Expr}
    (ofTest : test.Obeys .dressed false) (ofBody : body.Obeys .dressed false)
    (prompt : AllPrompt frame.isLazy (test.functions ++ body.functions)) (bears : m.Bears frame) :
    (evalLoop test body frame).plan.Observes promptness m (evalLoop test body frame).Delivers := by
  obtain ⟨inTest, inBody⟩ := allPrompt_append.mp prompt
  refine .ask ⟨ofTest.strict, inTest, bears⟩ ?_
  rintro ⟨value, frame₁⟩ m₁ reaches₁ ⟨-, -, continues₁⟩
  refine .ite (fun _ => .ask ⟨ofBody.strict, continues₁.prompt inBody, continues₁.bears⟩ ?_)
    fun _ => ?_
  · rintro ⟨value, frame₂⟩ m₂ reaches₂ ⟨-, -, continues₂⟩
    have continues := continues₁.trans continues₂
    refine .sub ⟨⟨ofTest, ofBody⟩, continues.prompt prompt, continues.bears⟩ ?_
    rintro ⟨value, frame₃⟩ m₃ reaches₃ ⟨plain, continues₃⟩
    exact ⟨plain, continues.trans continues₃⟩
  · exact ⟨trivial, continues₁⟩

end Task

end Trampoline
