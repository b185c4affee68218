import Trampoline.Proofs.Escapes.Lending

/-!
# Bodies that are lent an escape

A body looks up the name of an escape only where it calls what the name stands for, and only while
it runs. All other values that it comes to are no escapes.
-/

namespace Trampoline

open Exec

namespace Task

open Plan

variable {m : Machine}

section Rules

variable {α : Type} {post : α -> Machine -> Prop} {e : Expr} {frame : Frame}

variable {next : Value × Frame -> Plan α}

/-- An expression is evaluated, to what is no escape. -/
theorem evaluates (lets : m.Lets frame e)
    (after : ∀ value frame' m', lending.Reaches m m' -> value.Free m' -> frame.Proceeds m' frame' ->
      (next (value, frame')).Observes lending m' post) :
    (sub (eval e frame) >>= next).Observes lending m post := by
  refine .ask (.inl lets) ?_
  rintro ⟨value, frame'⟩ m' reaches ⟨-, settles, proceeds⟩
  exact after value frame' m' reaches (settles (lets.mono reaches.leads (.refl frame m'))) proceeds

/-- An expression is evaluated and its value forced, to what is no escape. -/
theorem evaluatesForced (lets : m.Lets frame e)
    (after : ∀ value frame' m', lending.Reaches m m' -> value.Free m' -> frame.Proceeds m' frame' ->
      (next (value, frame')).Observes lending m' post) :
    (sub (evalForced e frame) >>= next).Observes lending m post := by
  refine .ask (.inl lets) ?_
  rintro ⟨value, frame'⟩ m' reaches ⟨-, settles, proceeds⟩
  exact after value frame' m' reaches (settles (lets.mono reaches.leads (.refl frame m'))) proceeds

/-- What comes of an expression that is no lent name. -/
theorem givesBack {value : Value} {next : Frame} (free : value.Free m)
    (proceeds : frame.Proceeds m next) : (eval e frame).GivesBack (value, next) m :=
  ⟨.inl free, fun _ => free, proceeds⟩

end Rules

/-- What is handed to a call is applied while its point is running. -/
theorem accepts_of_handed {callable : Callable} {args : List Value}
    (handed : (Value.func callable).Handed m) (ofArgs : AllFree m args) :
    callable.Accepts m args := by
  rcases handed with free | ⟨tag, same, running⟩
  · exact .free free ofArgs
  · cases same
    exact .escape running ofArgs

variable {e : Expr} {frame : Frame} {es : List Expr} {last : Value}

/-- An expression gives back the escapes that its scope lends it. -/
theorem eval_lends (keeps : m.Keeps .free) (lets : m.Lets frame e ∨ e.IsLent (m.Lends frame)) :
    (eval e frame).plan.Observes lending m (eval e frame).GivesBack := by
  cases e with
  | lit mark value =>
    have free : (Value.ofLiteral value).Free m := Value.free_ofLiteral value
    exact givesBack free (.refl frame m)
  | var mark name =>
    rcases lets with ⟨harmless, -⟩ | lends
    · refine .step (Lending.lookup keeps harmless) ?_
      rintro value m' reaches ⟨free, -⟩
      refine .ite (fun _ => .ask (.inl free) ?_) fun _ => givesBack free (.refl frame m')
      rintro forced m'' later ⟨-, settles⟩
      exact givesBack (settles (free.mono later.leads.toSameTags)) (.refl frame m'')
    · refine .step (Lending.borrow keeps lends) ?_
      rintro value m' reaches ⟨handed, settles, -⟩
      have strict : ¬frame.isLazy = true := ne_true_of_eq_false lends.strict
      exact .ite (fun isLazy => absurd isLazy strict)
        fun _ => ⟨handed, fun lets => settles lets.1, .refl frame m'⟩
  | fn mark signature code =>
    obtain ⟨inside, confine⟩ := lets.resolve_right id
    obtain ⟨within, self⟩ := allConfine_append.mp confine
    have confines := self _ (List.mem_singleton_self _)
    refine .lift ((Lending.makeClosure keeps confines ⟨inside, within⟩).imp ?_)
    rintro ⟨value, next⟩ m' reaches ⟨free, rfl⟩
    exact givesBack free (.refl next m')
  | call mark func args kwargs =>
    obtain ⟨⟨ofFunc, ofArgs, ofKwargs⟩, confine⟩ := lets.resolve_right id
    simp only [Expr.functions, allConfine_append] at confine
    obtain ⟨⟨inFunc, inArgs⟩, inKwargs⟩ := confine
    have letsArgs : m.LetsAll frame args := ⟨ofArgs, inArgs⟩
    have letsKwargs : m.LetsNamed frame kwargs := ⟨ofKwargs, inKwargs⟩
    refine .ask (ofFunc.imp_left fun honours => ⟨honours, inFunc⟩) ?_
    rintro ⟨value, frame₁⟩ m₁ reaches₁ ⟨handed, -, proceeds₁⟩
    refine .step (Lending.stores.callable reaches₁.holds value) ?_
    rintro callee m₂ reaches₂ ⟨rfl, rfl⟩
    refine .ask (letsArgs.mono reaches₁.leads proceeds₁) ?_
    rintro ⟨values, frame₃⟩ m₃ reaches₃ ⟨free, proceeds₃⟩
    have proceeds := (proceeds₁.mono reaches₃.leads).trans proceeds₃
    refine .ask (letsKwargs.mono (reaches₁.trans reaches₃).leads proceeds) ?_
    rintro ⟨named, frame₄⟩ m₄ reaches₄ ⟨namedFree, proceeds₄⟩
    have proceeds := (proceeds.mono reaches₄.leads).trans proceeds₄
    have handed := handed.mono (reaches₃.trans reaches₄).leads
    have free := free.mono reaches₄.leads.toSameTags
    refine .ask ⟨accepts_of_handed handed free, namedFree⟩ ?_
    rintro result m₅ reaches₅ free
    exact givesBack free (proceeds.mono reaches₅.leads)
  | cond mark arms alt =>
    obtain ⟨honours, confine⟩ := lets.resolve_right id
    obtain ⟨ofArms, ofAlt⟩ := Expr.honours_cond.mp honours
    obtain ⟨inArms, inAlt⟩ := allConfine_cond.mp confine
    refine .sub ⟨⟨ofArms, inArms⟩, fun e member => ⟨ofAlt e member, inAlt e member⟩⟩ ?_
    rintro ⟨value, next⟩ m' reaches ⟨free, proceeds⟩
    exact givesBack free proceeds
  | short mark op es =>
    have lets : m.LetsAll frame es := lets.resolve_right id
    have start : (Value.bool (op = .and)).Free m := trivial
    refine .sub ⟨lets, start⟩ ?_
    rintro ⟨value, next⟩ m' reaches ⟨free, proceeds⟩
    exact givesBack free proceeds
  | seq mark es =>
    have lets : m.LetsAll frame es := lets.resolve_right id
    have start : Value.nil.Free m := trivial
    refine .ask ⟨lets, start⟩ ?_
    rintro ⟨value, next⟩ m' reaches ⟨free, proceeds⟩
    exact givesBack free proceeds.forget
  | bind mark name bindee =>
    have lets : m.Lets frame bindee := lets.resolve_right id
    have nothing : ∀ m' : Machine, Value.nil.Free m' := fun _ => trivial
    cases bindee with
    | fn inner signature code =>
      refine .step (Lending.newCell keeps fun _ => nothing m) ?_
      rintro ref m₁ reaches₁ ⟨inside, content⟩
      have untagged : (m₁.cell ref).escapeTag? = none := by
        rw [content]
        rfl
      have proceeds₁ : frame.Proceeds m₁ { frame with env := (name, ref) :: frame.env } :=
        (Frame.Proceeds.refl frame m₁).bind name inside untagged
      refine evaluates (lets.mono reaches₁.leads proceeds₁) ?_
      rintro value next m₂ reaches₂ free proceeds₂
      have untagged := (reaches₂.leads.tags ref inside).trans untagged
      refine .step (Lending.setCell reaches₂.holds untagged free) ?_
      rintro _ m₃ reaches₃ -
      have proceeds := (proceeds₁.mono reaches₂.leads).trans proceeds₂
      exact givesBack (nothing m₃) (proceeds.mono reaches₃.leads)
    | _ =>
      refine .ask lets ?_
      rintro ⟨value, next⟩ m₁ reaches₁ ⟨free, proceeds₁⟩
      refine .step (Lending.newCell reaches₁.holds fun _ => free) ?_
      rintro ref m₂ reaches₂ ⟨inside, content⟩
      have untagged : (m₂.cell ref).escapeTag? = none := by
        rw [content]
        exact free.untagged
      exact givesBack (nothing m₂) ((proceeds₁.mono reaches₂.leads).bind name inside untagged)
  | assign mark name bindee =>
    obtain ⟨⟨harmless, honours⟩, confine⟩ := lets.resolve_right id
    have lets : m.Lets frame bindee := ⟨honours, confine⟩
    refine .ask lets ?_
    rintro ⟨value, next⟩ m₁ reaches₁ ⟨free, proceeds⟩
    have harmless := (proceeds.widens reaches₁.leads).frees name trivial harmless
    refine .step (Lending.assign reaches₁.holds harmless free) ?_
    rintro _ m₂ reaches₂ -
    have nothing : Value.nil.Free m₂ := trivial
    exact givesBack nothing (proceeds.mono reaches₂.leads)
  | loop mark test body =>
    obtain ⟨⟨ofTest, ofBody⟩, confine⟩ := lets.resolve_right id
    obtain ⟨inTest, inBody⟩ := allConfine_append.mp confine
    refine .sub ⟨⟨ofTest, inTest⟩, ofBody, inBody⟩ ?_
    rintro ⟨value, next⟩ m' reaches ⟨free, proceeds⟩
    exact givesBack free proceeds
  | jump mark func args kwargs cc =>
    obtain ⟨honours, confine⟩ := lets.resolve_right id
    obtain ⟨ofFunc, ofArgs, ofKwargs, ofCc⟩ := Expr.honours_jump.mp honours
    obtain ⟨inFunc, inArgs, inKwargs, inCc⟩ := allConfine_jump.mp confine
    have letsArgs : m.LetsAll frame args := ⟨ofArgs, inArgs⟩
    have letsKwargs : m.LetsNamed frame kwargs := ⟨ofKwargs, inKwargs⟩
    have letsCc : ∀ e ∈ cc, m.Lets frame e := fun e member => ⟨ofCc e member, inCc e member⟩
    have letsFunc : m.Lets frame func := ⟨ofFunc, inFunc⟩
    refine evaluatesForced letsFunc ?_
    rintro value frame₁ m₁ reaches₁ free proceeds₁
    refine .step (Lending.callable reaches₁.holds free) ?_
    rintro target m₂ reaches₂ ofTarget
    have leads₂ := (reaches₁.trans reaches₂).leads
    have proceeds₂ := proceeds₁.mono reaches₂.leads
    refine .ask (letsArgs.mono leads₂ proceeds₂) ?_
    rintro ⟨values, frame₃⟩ m₃ reaches₃ ⟨ofArgs, proceeds₃⟩
    have leads₃ := leads₂.trans reaches₃.leads
    have proceeds₃ := (proceeds₂.mono reaches₃.leads).trans proceeds₃
    refine .ask (letsKwargs.mono leads₃ proceeds₃) ?_
    rintro ⟨named, frame₄⟩ m₄ reaches₄ ⟨ofKwargs, proceeds₄⟩
    have leads₄ := leads₃.trans reaches₄.leads
    have proceeds₄ := (proceeds₃.mono reaches₄.leads).trans proceeds₄
    refine .ask (fun e member => (letsCc e member).mono leads₄ proceeds₄) ?_
    rintro ⟨continuation, frame₅⟩ m₅ reaches₅ ⟨ofContinuation, proceeds₅⟩
    have lastly := reaches₄.trans reaches₅
    have free : Jump.Free m₅ ⟨target, values, named, continuation⟩ :=
      { target := ofTarget.mono (reaches₃.trans lastly).leads.toSameTags
        args := ofArgs.mono lastly.leads.toSameTags
        kwargs := ofKwargs.mono reaches₅.leads.toSameTags
        cc := ofContinuation }
    refine .step (Lending.stores.newJump reaches₅.holds free) ?_
    rintro _ m₆ reaches₆ ⟨ref, rfl⟩
    have made : (Value.jump ref).Free m₆ := trivial
    have proceeds := (proceeds₄.mono reaches₅.leads).trans proceeds₅
    exact givesBack made (proceeds.mono reaches₆.leads)
  | capture mark binders call => exact .lift (Lending.failing keeps trivial)

/-- So it does when its value is forced. -/
theorem evalForced_lends (lets : m.Lets frame e ∨ e.IsLent (m.Lends frame)) :
    (evalForced e frame).plan.Observes lending m (evalForced e frame).GivesBack := by
  refine .ask lets ?_
  rintro ⟨value, next⟩ m₁ reaches₁ ⟨handed, settles, proceeds⟩
  refine .ask handed ?_
  rintro forced m₂ reaches₂ ⟨handed', settles'⟩
  refine ⟨handed', fun later => ?_, proceeds.mono reaches₂.leads⟩
  -- a name that is harmless by now was so all the while
  have before : m.Lets frame e := by
    rcases lets with lets | lends
    · exact lets
    · cases e with
      | var mark name =>
        have lends : m.Lends frame name := lends
        exact ⟨lends.harmless (reaches₁.trans reaches₂).leads.toSameTags later.1, later.2⟩
      | _ => exact lends.elim
  have free := settles (before.mono reaches₁.leads (.refl frame m₁))
  exact settles' (free.mono reaches₂.leads.toSameTags)

/-- A continuation of a jump is evaluated where it may be lent to. -/
theorem evalContinuation_lends {cc : Option Expr} (lets : ∀ e ∈ cc, m.Lets frame e) :
    (evalContinuation cc frame).plan.Observes lending m (evalContinuation cc frame).GivesBack := by
  cases cc with
  | none => exact ⟨nofun, .refl frame m⟩
  | some e =>
    refine evaluatesForced (lets e rfl) ?_
    rintro value next m' reaches free proceeds
    refine ⟨?_, proceeds⟩
    rintro _ ⟨⟩
    exact free

/-- An operand gives back what it was lent, or is delayed with what it may keep. -/
theorem operand_lends (policy : Policy) (lets : m.Lets frame e) :
    (operand policy e frame).plan.Observes lending m (operand policy e frame).GivesBack := by
  refine .ite (fun _ => evaluates lets fun _ _ _ _ free proceeds => ⟨free, proceeds⟩)
    fun isLazy => ?_
  cases policy with
  | strict => exact evaluatesForced lets fun _ _ _ _ free proceeds => ⟨free, proceeds⟩
  | delay =>
    have isLazy : frame.isLazy = true := by simpa using isLazy
    exact .sub ⟨lets, isLazy⟩ fun _ _ _ known => known

/-- To a lazy body nothing is lent, so there is no escape in what it delays. -/
theorem delayed_lends (keeps : m.Keeps .free) (lets : m.Lets frame e)
    (isLazy : frame.isLazy = true) :
    (delayed e frame).plan.Observes lending m (delayed e frame).GivesBack := by
  have nothing : Widens (m.Harmless frame.env) (m.Harmless frame.env) (m.Lends frame)
      fun _ => False :=
    ⟨fun _ _ harmless => harmless, fun _ _ lends => by cases lends.strict.symm.trans isLazy⟩
  cases e with
  | var mark name =>
    refine .step (Lending.lookup keeps lets.1) ?_
    rintro value m' reaches ⟨free, -⟩
    exact ⟨free, .refl frame m'⟩
  | lit | fn => exact evaluates lets fun _ _ _ _ free proceeds => ⟨free, proceeds⟩
  | _ =>
    refine .step (Lending.stores.newPromise keeps ⟨lets.1.mono nothing, lets.2⟩) ?_
    rintro _ m' reaches ⟨ref, rfl⟩
    exact ⟨trivial, .refl frame m'⟩

/-- Operands are evaluated or delayed one after another. -/
theorem operands_lends (policy : Policy) (lets : m.LetsAll frame es) :
    (operands policy es frame).plan.Observes lending m (operands policy es frame).GivesBack := by
  cases es with
  | nil => exact ⟨trivial, .refl frame m⟩
  | cons e rest =>
    obtain ⟨ofFirst, ofRest⟩ := lets.cons
    refine .ask ofFirst ?_
    rintro ⟨value, frame₁⟩ m₁ reaches₁ ⟨free, proceeds₁⟩
    refine .ask (ofRest.mono reaches₁.leads proceeds₁) ?_
    rintro ⟨others, frame₂⟩ m₂ reaches₂ ⟨allFree, proceeds₂⟩
    exact ⟨⟨free.mono reaches₂.leads.toSameTags, allFree⟩,
      (proceeds₁.mono reaches₂.leads).trans proceeds₂⟩

/-- So are keyword arguments. -/
theorem keywords_lends (policy : Policy) {es : List (String × Expr)} (lets : m.LetsNamed frame es) :
    (keywords policy es frame).plan.Observes lending m (keywords policy es frame).GivesBack := by
  cases es with
  | nil => exact ⟨namedFree_nil, .refl frame m⟩
  | cons named rest =>
    obtain ⟨ofFirst, ofRest⟩ := lets.cons
    refine .ask ofFirst ?_
    rintro ⟨value, frame₁⟩ m₁ reaches₁ ⟨free, proceeds₁⟩
    refine .ask (ofRest.mono reaches₁.leads proceeds₁) ?_
    rintro ⟨others, frame₂⟩ m₂ reaches₂ ⟨allFree, proceeds₂⟩
    exact ⟨.cons (free.mono reaches₂.leads.toSameTags) allFree,
      (proceeds₁.mono reaches₂.leads).trans proceeds₂⟩

/-- Arms give back what they are lent, whichever is taken. -/
theorem evalArms_lends {arms : List (Expr × Expr)} {alt : Option Expr}
    (lets : m.LetsArms frame arms) (letsAlt : ∀ e ∈ alt, m.Lets frame e) :
    (evalArms arms alt frame).plan.Observes lending m (evalArms arms alt frame).GivesBack := by
  cases arms with
  | nil =>
    cases alt with
    | none => exact ⟨trivial, .refl frame m⟩
    | some e => exact evaluates (letsAlt e rfl) fun _ _ _ _ free proceeds => ⟨free, proceeds⟩
  | cons arm rest =>
    obtain ⟨ofTest, ofBody, ofRest⟩ := lets.cons
    refine evaluatesForced ofTest ?_
    rintro test frame₁ m₁ reaches₁ - proceeds₁
    refine .ite (fun _ => evaluates (ofBody.mono reaches₁.leads proceeds₁) ?_) fun _ => ?_
    · rintro value frame₂ m₂ reaches₂ free proceeds₂
      exact ⟨free, (proceeds₁.mono reaches₂.leads).trans proceeds₂⟩
    · refine .sub ⟨ofRest.mono reaches₁.leads proceeds₁,
        fun e member => (letsAlt e member).mono reaches₁.leads proceeds₁⟩ ?_
      rintro ⟨value, frame₂⟩ m₂ reaches₂ ⟨free, proceeds₂⟩
      exact ⟨free, (proceeds₁.mono reaches₂.leads).trans proceeds₂⟩

/-- The operands of a connective give back what they are lent, up to the one that decides. -/
theorem evalShort_lends (op : Connective) (lets : m.LetsAll frame es) (ofLast : last.Free m) :
    (evalShort op es last frame).plan.Observes lending m
      (evalShort op es last frame).GivesBack := by
  cases es with
  | nil => exact ⟨ofLast, .refl frame m⟩
  | cons e rest =>
    obtain ⟨ofFirst, ofRest⟩ := lets.cons
    refine evaluatesForced ofFirst ?_
    rintro value frame₁ m₁ reaches₁ free proceeds₁
    refine .ite (fun _ => ⟨free, proceeds₁⟩) fun _ =>
      .sub ⟨ofRest.mono reaches₁.leads proceeds₁, free⟩ ?_
    rintro ⟨value', frame₂⟩ m₂ reaches₂ ⟨free', proceeds₂⟩
    exact ⟨free', (proceeds₁.mono reaches₂.leads).trans proceeds₂⟩

/-- The items of a block give back what they are lent, bindings included. -/
theorem evalItems_lends (lets : m.LetsAll frame es) (ofLast : last.Free m) :
    (evalItems es last frame).plan.Observes lending m (evalItems es last frame).GivesBack := by
  cases es with
  | nil => exact ⟨ofLast, .refl frame m⟩
  | cons e rest =>
    obtain ⟨ofFirst, ofRest⟩ := lets.cons
    refine evaluates ofFirst ?_
    rintro value frame₁ m₁ reaches₁ free proceeds₁
    refine .sub ⟨ofRest.mono reaches₁.leads proceeds₁, free⟩ ?_
    rintro ⟨value', frame₂⟩ m₂ reaches₂ ⟨free', proceeds₂⟩
    exact ⟨free', (proceeds₁.mono reaches₂.leads).trans proceeds₂⟩

/-- A loop gives back in each round what it is lent. -/
theorem evalLoop_lends {test body : Expr} (letsTest : m.Lets frame test)
    (letsBody : m.Lets frame body) :
    (evalLoop test body frame).plan.Observes lending m (evalLoop test body frame).GivesBack := by
  refine evaluatesForced letsTest ?_
  rintro value frame₁ m₁ reaches₁ - proceeds₁
  refine .ite (fun _ => evaluates (letsBody.mono reaches₁.leads proceeds₁) ?_)
    fun _ => ⟨trivial, proceeds₁⟩
  rintro value frame₂ m₂ reaches₂ - proceeds₂
  have leads := (reaches₁.trans reaches₂).leads
  have proceeds := (proceeds₁.mono reaches₂.leads).trans proceeds₂
  refine .sub ⟨letsTest.mono leads proceeds, letsBody.mono leads proceeds⟩ ?_
  rintro ⟨value, frame₃⟩ m₃ reaches₃ ⟨free, proceeds₃⟩
  exact ⟨free, (proceeds.mono reaches₃.leads).trans proceeds₃⟩

end Task

end Trampoline
