import Trampoline.Proofs.Jumps.Ownership
import Trampoline.Proofs.Evaluation.Runs

/-!
# Jumps are taken once

Every task that gets the record of a jump hands it on or takes it, and none is begun while a record
is kept aside. So jumps only travel on the way back to the next trampoline, which takes them.
-/

namespace Trampoline

open Exec

namespace Task

open Plan

/-! ## Bodies -/

variable {e : Expr} {es : List Expr} {last value : Value} {own : Option Nat}
  {values args : List Value} {kwargs : Kwargs} {callable : Callable}

/-- Evaluating an expression yields at most one record, and only at the end of its body. -/
theorem eval_meets (frame : Frame) (obeys : e.Obeys .dressed true) :
    (eval e frame).plan.Meets linearity none (eval e frame).Answers := by
  cases e with
  | lit mark value => exact ⟨Value.jumpless_ofLiteral value, fun _ => rfl⟩
  | var mark name =>
    refine .step (.lookup name frame) ?_
    rintro value _ ⟨jumpless, rfl⟩
    refine .ite (fun _ => .ask jumpless ?_) fun _ => ⟨jumpless, fun _ => rfl⟩
    rintro forced own ⟨carries, settles⟩
    exact ⟨carries, fun _ => settles jumpless⟩
  | fn mark signature code =>
    have strict : (Expr.fn mark signature code).Obeys .dressed false := by
      simpa only [Expr.Obeys] using obeys
    refine .lift ((Ensures.makeClosure strict frame).imp ?_)
    rintro ⟨value, frame⟩ _ ⟨jumpless, rfl⟩
    exact ⟨jumpless, fun _ => rfl⟩
  | call mark func args kwargs =>
    simp only [Expr.Obeys] at obeys
    obtain ⟨ofFunc, ofArgs, ofKwargs⟩ := obeys
    refine .ask ⟨ofFunc.strict, rfl⟩ ?_
    rintro ⟨value, frame⟩ own ⟨carries, settles⟩
    obtain rfl := settles ofFunc
    refine .step (.callable carries) ?_
    rintro callee _ ⟨ofCallee, rfl⟩
    refine .ask ⟨ofArgs, rfl⟩ ?_
    rintro ⟨values, frame⟩ _ ⟨ofValues, rfl⟩
    refine .ask ⟨ofKwargs, rfl⟩ ?_
    rintro ⟨named, frame⟩ _ ⟨ofNamed, rfl⟩
    refine .ask ⟨ofCallee.may, ofValues, ofNamed, rfl⟩ ?_
    rintro result own ⟨carries, settles⟩
    exact ⟨carries, fun _ => settles ofCallee⟩
  | cond mark arms alt =>
    obtain ⟨ofArms, ofAlt⟩ := Expr.obeys_cond.mp obeys
    refine .sub ⟨ofArms, ofAlt, rfl⟩ ?_
    rintro ⟨value, frame⟩ own ⟨carries, settles⟩
    refine ⟨carries, fun strict => ?_⟩
    obtain ⟨ofArms, ofAlt⟩ := Expr.obeys_cond.mp strict
    exact settles ofArms ofAlt
  | short mark op es =>
    simp only [Expr.Obeys] at obeys
    refine .sub ⟨obeys, trivial, fun _ => rfl⟩ ?_
    rintro ⟨value, frame⟩ own ⟨carries, settles⟩
    refine ⟨carries, fun strict => ?_⟩
    simp only [Expr.Obeys] at strict
    exact settles strict trivial
  | seq mark es =>
    simp only [Expr.Obeys] at obeys
    refine .ask ⟨obeys, trivial, fun _ => rfl⟩ ?_
    rintro ⟨value, frame⟩ own ⟨carries, settles⟩
    refine ⟨carries, fun strict => ?_⟩
    simp only [Expr.Obeys] at strict
    exact settles strict trivial
  | bind mark name bindee =>
    simp only [Expr.Obeys] at obeys
    cases bindee with
    | fn inner signature code =>
      refine .step (.newCell trivial) ?_
      rintro ref _ ⟨-, rfl⟩
      refine .ask ⟨obeys.strict, rfl⟩ ?_
      rintro ⟨value, frame⟩ own ⟨carries, settles⟩
      obtain rfl := settles obeys
      refine .step (.setCell ref carries) ?_
      rintro _ _ rfl
      exact ⟨trivial, fun _ => rfl⟩
    | _ =>
      refine .ask ⟨obeys, rfl⟩ ?_
      rintro ⟨value, frame⟩ _ ⟨jumpless, rfl⟩
      refine .step (.newCell jumpless) ?_
      rintro ref _ ⟨-, rfl⟩
      exact ⟨trivial, fun _ => rfl⟩
  | assign mark name bindee =>
    simp only [Expr.Obeys] at obeys
    refine .ask ⟨obeys, rfl⟩ ?_
    rintro ⟨value, frame⟩ _ ⟨jumpless, rfl⟩
    refine .step (.assign name jumpless frame) ?_
    rintro _ _ rfl
    exact ⟨trivial, fun _ => rfl⟩
  | loop mark test body =>
    simp only [Expr.Obeys] at obeys
    refine .sub ⟨obeys.1, obeys.2, rfl⟩ ?_
    rintro ⟨value, frame⟩ _ ⟨jumpless, rfl⟩
    exact ⟨jumpless, fun _ => rfl⟩
  | jump mark func args kwargs cc =>
    obtain ⟨-, ofFunc, ofArgs, ofKwargs, ofCc⟩ := Expr.obeys_jump.mp obeys
    refine .ask ⟨ofFunc.strict, rfl⟩ ?_
    rintro ⟨value, frame⟩ own ⟨carries, settles⟩
    obtain rfl := settles ofFunc
    refine .step (.callable carries) ?_
    rintro target _ ⟨ofTarget, rfl⟩
    refine .ask ⟨ofArgs, rfl⟩ ?_
    rintro ⟨values, frame⟩ _ ⟨ofValues, rfl⟩
    refine .ask ⟨ofKwargs, rfl⟩ ?_
    rintro ⟨named, frame⟩ _ ⟨ofNamed, rfl⟩
    refine .ask ⟨ofCc, rfl⟩ ?_
    rintro ⟨continuation, frame⟩ _ ⟨ofContinuation, rfl⟩
    refine .step (.newJump ⟨ofTarget, ofValues, ofNamed, ofContinuation⟩) ?_
    intro value own carries
    refine ⟨carries, fun strict => ?_⟩
    cases (Expr.obeys_jump.mp strict).1
  | capture mark binders call => exact .lift (.failing trivial)

/-- An expression that is evaluated and forced hands on at most one record. -/
theorem evalForced_meets (frame : Frame) (obeys : e.Obeys .dressed true) :
    (evalForced e frame).plan.Meets linearity none (evalForced e frame).Answers := by
  refine .ask ⟨obeys, rfl⟩ ?_
  rintro ⟨value, frame⟩ own ⟨carries, settles⟩
  refine .ask carries ?_
  rintro forced own' ⟨carries', settles'⟩
  refine ⟨carries', fun strict => settles' ?_⟩
  obtain rfl := settles strict
  exact carries

/-- The continuation that a jump names is evaluated without a record. -/
theorem evalContinuation_meets {cc : Option Expr} (frame : Frame)
    (obeys : ∀ e ∈ cc, e.Obeys .dressed false) :
    (evalContinuation cc frame).plan.Meets linearity none (evalContinuation cc frame).Answers := by
  cases cc with
  | none => exact ⟨nofun, rfl⟩
  | some e =>
    refine .ask ⟨(obeys e rfl).strict, rfl⟩ ?_
    rintro ⟨value, frame⟩ own ⟨carries, settles⟩
    obtain rfl := settles (obeys e rfl)
    refine ⟨?_, rfl⟩
    rintro _ ⟨⟩
    exact carries

/-- An operand is evaluated without a record, or is delayed. -/
theorem operand_meets (policy : Policy) (frame : Frame) (obeys : e.Obeys .dressed false) :
    (operand policy e frame).plan.Meets linearity none (operand policy e frame).Answers := by
  refine .ite (fun _ => .sub ⟨obeys.strict, rfl⟩ ?_) fun _ => ?_
  · rintro ⟨value, frame⟩ own ⟨carries, settles⟩
    obtain rfl := settles obeys
    exact ⟨carries, rfl⟩
  · cases policy with
    | strict =>
      refine .sub ⟨obeys.strict, rfl⟩ ?_
      rintro ⟨value, frame⟩ own ⟨carries, settles⟩
      obtain rfl := settles obeys
      exact ⟨carries, rfl⟩
    | delay => exact .sub ⟨obeys, rfl⟩ fun _ _ holds => holds

/-- Delaying an expression makes a promise whose body holds no record. -/
theorem delayed_meets (frame : Frame) (obeys : e.Obeys .dressed false) :
    (delayed e frame).plan.Meets linearity none (delayed e frame).Answers := by
  cases e with
  | var mark name =>
    refine .step (.lookup name frame) ?_
    rintro value _ ⟨jumpless, rfl⟩
    exact ⟨jumpless, rfl⟩
  | lit | fn =>
    refine .sub ⟨obeys.strict, rfl⟩ ?_
    rintro ⟨value, frame⟩ own ⟨carries, settles⟩
    obtain rfl := settles obeys
    exact ⟨carries, rfl⟩
  | _ =>
    refine .step (.newPromise obeys) ?_
    rintro value _ ⟨jumpless, rfl⟩
    exact ⟨jumpless, rfl⟩

/-- Operands leave no record behind. -/
theorem operands_meets (policy : Policy) (frame : Frame) (obey : AllObey .dressed es) :
    (operands policy es frame).plan.Meets linearity none (operands policy es frame).Answers := by
  cases es with
  | nil => exact ⟨trivial, rfl⟩
  | cons e rest =>
    simp only [AllObey] at obey
    refine .ask ⟨obey.1, rfl⟩ ?_
    rintro ⟨value, frame⟩ _ ⟨jumpless, rfl⟩
    refine .ask ⟨obey.2, rfl⟩ ?_
    rintro ⟨others, frame⟩ _ ⟨ofOthers, rfl⟩
    exact ⟨⟨jumpless, ofOthers⟩, rfl⟩

/-- Keyword arguments leave no record behind. -/
theorem keywords_meets (policy : Policy) {es : List (String × Expr)} (frame : Frame)
    (obey : AllNamedObey .dressed es) :
    (keywords policy es frame).plan.Meets linearity none (keywords policy es frame).Answers := by
  cases es with
  | nil => exact ⟨fun _ member => absurd member List.not_mem_nil, rfl⟩
  | cons named rest =>
    simp only [AllNamedObey] at obey
    refine .ask ⟨obey.1, rfl⟩ ?_
    rintro ⟨value, frame⟩ _ ⟨jumpless, rfl⟩
    refine .ask ⟨obey.2, rfl⟩ ?_
    rintro ⟨others, frame⟩ _ ⟨ofOthers, rfl⟩
    exact ⟨List.forall_mem_cons.mpr ⟨jumpless, ofOthers⟩, rfl⟩

/-- The arm that is chosen hands on the record of its body. -/
theorem evalArms_meets {arms : List (Expr × Expr)} {alt : Option Expr} (frame : Frame)
    (ofArms : ArmsObey .dressed true arms) (ofAlt : ∀ e ∈ alt, e.Obeys .dressed true) :
    (evalArms arms alt frame).plan.Meets linearity none (evalArms arms alt frame).Answers := by
  cases arms with
  | nil =>
    cases alt with
    | none => exact ⟨trivial, fun _ _ => rfl⟩
    | some e =>
      refine .sub ⟨ofAlt e rfl, rfl⟩ ?_
      rintro ⟨value, frame⟩ own ⟨carries, settles⟩
      exact ⟨carries, fun _ strict => settles (strict e rfl)⟩
  | cons arm rest =>
    simp only [ArmsObey] at ofArms
    refine .ask ⟨ofArms.1.strict, rfl⟩ ?_
    rintro ⟨test, frame⟩ own ⟨-, settles⟩
    obtain rfl := settles ofArms.1
    refine .ite (fun _ => .sub ⟨ofArms.2.1, rfl⟩ ?_) fun _ => .sub ⟨ofArms.2.2, ofAlt, rfl⟩ ?_
    · rintro ⟨value, frame⟩ own ⟨carries, settles⟩
      refine ⟨carries, fun strict _ => settles ?_⟩
      simp only [ArmsObey] at strict
      exact strict.2.1
    · rintro ⟨value, frame⟩ own ⟨carries, settles⟩
      refine ⟨carries, fun strict => settles ?_⟩
      simp only [ArmsObey] at strict
      exact strict.2.2

/-- A connective holds a record only after its last operand. -/
theorem evalShort_meets (op : Connective) (frame : Frame)
    (obeys : LastObeys .dressed true es) (carries : last.Carries own)
    (free : es ≠ [] -> own = none) :
    (evalShort op es last frame).plan.Meets linearity own (evalShort op es last frame).Answers := by
  cases es with
  | nil => exact ⟨carries, fun _ jumpless => carries.eq_none jumpless⟩
  | cons e rest =>
    obtain rfl := free (List.cons_ne_nil _ _)
    obtain ⟨ofFirst, strictly, ofRest⟩ := obeys.first
    refine .ask ⟨ofFirst, rfl⟩ ?_
    rintro ⟨value, frame⟩ own ⟨carries, settles⟩
    refine .ite (fun _ => ?_) fun _ =>
      .sub ⟨ofRest, carries, fun more => settles (strictly more)⟩ ?_
    · exact ⟨carries, fun strict _ => settles strict.first.1⟩
    · rintro ⟨value', frame⟩ own' ⟨carries', settles'⟩
      refine ⟨carries', fun strict _ => settles' strict.first.2.2 ?_⟩
      obtain rfl := settles strict.first.1
      exact carries

/-- A block holds a record only after its last item. -/
theorem evalItems_meets (frame : Frame)
    (obeys : LastObeys .dressed true es) (carries : last.Carries own)
    (free : es ≠ [] -> own = none) :
    (evalItems es last frame).plan.Meets linearity own (evalItems es last frame).Answers := by
  cases es with
  | nil => exact ⟨carries, fun _ jumpless => carries.eq_none jumpless⟩
  | cons e rest =>
    obtain rfl := free (List.cons_ne_nil _ _)
    obtain ⟨ofFirst, strictly, ofRest⟩ := obeys.first
    refine .ask ⟨ofFirst, rfl⟩ ?_
    rintro ⟨value, frame⟩ own ⟨carries, settles⟩
    refine .sub ⟨ofRest, carries, fun more => settles (strictly more)⟩ ?_
    rintro ⟨value', frame⟩ own' ⟨carries', settles'⟩
    refine ⟨carries', fun strict _ => settles' strict.first.2.2 ?_⟩
    obtain rfl := settles strict.first.1
    exact carries

/-- A loop ends without a record, since neither its test nor its body ends with a jump. -/
theorem evalLoop_meets {test body : Expr} (frame : Frame) (ofTest : test.Obeys .dressed false)
    (ofBody : body.Obeys .dressed false) :
    (evalLoop test body frame).plan.Meets linearity none (evalLoop test body frame).Answers := by
  refine .ask ⟨ofTest.strict, rfl⟩ ?_
  rintro ⟨value, frame⟩ own ⟨-, settles⟩
  obtain rfl := settles ofTest
  refine .ite (fun _ => .ask ⟨ofBody.strict, rfl⟩ ?_) fun _ => ⟨trivial, rfl⟩
  rintro ⟨value, frame⟩ own ⟨-, settles⟩
  obtain rfl := settles ofBody
  exact .sub ⟨ofTest, ofBody, rfl⟩ fun _ _ holds => holds

/-! ## Promises -/

/-- Forcing a value hands on the record that the value carries. -/
theorem force_meets (carries : value.Carries own) :
    (force value).plan.Meets linearity own (force value).Answers := by
  cases value with
  | promise ref =>
    obtain rfl := carries.eq_none trivial
    have looks : Ensures linearity none (read fun m : Machine => m.promise ref)
        fun state own => state.Jumpless ∧ own = none := .reads fun m clean => clean.promise ref
    refine .step looks ?_
    rintro state _ ⟨jumpless, rfl⟩
    cases state with
    | forced value => exact ⟨jumpless, fun _ => rfl⟩
    | forcing => exact .lift (.failing trivial)
    | pending thunk =>
      refine ⟨fun value own => value.Jumpless ∧ own = none, ?_, ?_, ?_⟩
      · refine .step (.setPromise ref trivial) ?_
        rintro _ _ rfl
        refine .step (.tell _) ?_
        rintro _ _ rfl
        refine .ask ⟨jumpless, rfl⟩ ?_
        rintro value _ ⟨ofValue, rfl⟩
        refine .sub ofValue ?_
        rintro forced own ⟨carries, settles⟩
        obtain rfl := settles ofValue
        exact ⟨carries, rfl⟩
      · rintro value _ ⟨ofValue, rfl⟩
        refine .step (.setPromise ref ofValue) ?_
        rintro _ _ rfl
        exact ⟨ofValue, fun _ => rfl⟩
      · rintro error _ ⟨ofError, rfl⟩
        refine .step (.setPromise ref jumpless) ?_
        rintro _ _ rfl
        exact .lift (.failing ofError)
  | _ => exact ⟨carries, fun jumpless => carries.eq_none jumpless⟩

/-- A thunk settles without a record. -/
theorem runThunk_meets {thunk : Thunk} (jumpless : thunk.Jumpless) :
    (runThunk thunk).plan.Meets linearity none (runThunk thunk).Answers := by
  cases thunk with
  | expr e env =>
    refine .ask ⟨Expr.Obeys.strict jumpless, rfl⟩ ?_
    rintro ⟨value, frame⟩ own ⟨carries, settles⟩
    obtain rfl := settles jumpless
    exact ⟨carries, rfl⟩
  | global name =>
    have looks : Ensures linearity none (read fun m : Machine => m.global? name)
        fun found own => (∀ value ∈ found, value.Jumpless) ∧ own = none :=
      .reads fun m clean value found => clean.keeps.global found
    refine .step looks ?_
    rintro found _ ⟨ofFound, rfl⟩
    cases found with
    | none => exact .lift (.failing trivial)
    | some value =>
      have ofValue := ofFound value rfl
      cases value with
      | func callable =>
        exact .sub
          ⟨Callable.Obeys.may ofValue, trivial, fun _ member => absurd member List.not_mem_nil, rfl⟩
          fun _ _ holds => holds
      | _ =>
        refine .sub ofValue ?_
        rintro forced own ⟨carries, settles⟩
        obtain rfl := settles ofValue
        exact ⟨carries, rfl⟩

/-- Forcing a value deeply leaves no record behind. -/
theorem forceDeep_meets (jumpless : value.Jumpless) :
    (forceDeep value).plan.Meets linearity none (forceDeep value).Answers := by
  refine .ask jumpless ?_
  rintro forced own ⟨carries, settles⟩
  obtain rfl := settles jumpless
  cases forced with
  | list ref =>
    have looks : Ensures linearity none (read fun m : Machine => m.items ref)
        fun items own => AllJumpless items.toList ∧ own = none :=
      .reads fun m clean => clean.items ref
    refine .step looks ?_
    rintro items _ ⟨ofItems, rfl⟩
    refine .ask ⟨ofItems, rfl⟩ ?_
    rintro items _ ⟨ofItems, rfl⟩
    refine .step (.setItems ref ofItems) ?_
    rintro _ _ rfl
    exact ⟨trivial, rfl⟩
  | tuple items =>
    refine .ask ⟨carries, rfl⟩ ?_
    rintro items _ ⟨ofItems, rfl⟩
    exact ⟨ofItems, rfl⟩
  | _ => exact ⟨carries, rfl⟩

/-- Forcing all of several values leaves no record behind. -/
theorem forceAll_meets (jumpless : AllJumpless values) :
    (forceAll values).plan.Meets linearity none (forceAll values).Answers := by
  cases values with
  | nil => exact ⟨trivial, rfl⟩
  | cons value rest =>
    refine .ask ⟨jumpless.1, rfl⟩ ?_
    rintro forced _ ⟨ofForced, rfl⟩
    refine .ask ⟨jumpless.2, rfl⟩ ?_
    rintro others _ ⟨ofOthers, rfl⟩
    exact ⟨⟨ofForced, ofOthers⟩, rfl⟩

/-- Forcing the arguments of a strict callee leaves no record behind. -/
theorem forceArgs_meets (jumpless : AllJumpless values) :
    (forceArgs values).plan.Meets linearity none (forceArgs values).Answers := by
  cases values with
  | nil => exact ⟨trivial, rfl⟩
  | cons value rest =>
    refine .ask jumpless.1 ?_
    rintro forced own ⟨carries, settles⟩
    obtain rfl := settles jumpless.1
    refine .ask ⟨jumpless.2, rfl⟩ ?_
    rintro others _ ⟨ofOthers, rfl⟩
    exact ⟨⟨carries, ofOthers⟩, rfl⟩

/-- Forcing the keyword arguments of a strict callee leaves no record behind. -/
theorem forceKwargs_meets (jumpless : NamedJumpless kwargs) :
    (forceKwargs kwargs).plan.Meets linearity none (forceKwargs kwargs).Answers := by
  cases kwargs with
  | nil => exact ⟨jumpless, rfl⟩
  | cons named rest =>
    obtain ⟨ofFirst, ofRest⟩ := List.forall_mem_cons.mp jumpless
    refine .ask ofFirst ?_
    rintro forced own ⟨carries, settles⟩
    obtain rfl := settles ofFirst
    refine .ask ⟨ofRest, rfl⟩ ?_
    rintro others _ ⟨ofOthers, rfl⟩
    exact ⟨List.forall_mem_cons.mpr ⟨carries, ofOthers⟩, rfl⟩

/-- Whatever the variant of the trampoline forces for its callee, no record is left behind. -/
theorem forceForStrict_meets (variant : Variant) (callee : Callable)
    (ofArgs : AllJumpless args) (ofKwargs : NamedJumpless kwargs) :
    (forceForStrict variant callee args kwargs).plan.Meets linearity none
      (forceForStrict variant callee args kwargs).Answers := by
  refine .ite (fun _ => .ask ⟨ofArgs, rfl⟩ ?_) fun _ => ⟨ofArgs, ofKwargs, rfl⟩
  rintro forced _ ⟨ofForced, rfl⟩
  refine .ask ⟨ofKwargs, rfl⟩ ?_
  rintro named _ ⟨ofNamed, rfl⟩
  exact ⟨ofForced, ofNamed, rfl⟩

/-- Forcing the keys of a cache leaves no record behind. -/
theorem forceKeys_meets (jumpless : AllJumpless values) :
    (forceKeys values).plan.Meets linearity none (forceKeys values).Answers := by
  cases values with
  | nil => exact ⟨trivial, rfl⟩
  | cons value rest =>
    refine .ask jumpless.1 ?_
    rintro forced own ⟨carries, settles⟩
    obtain rfl := settles jumpless.1
    cases key : forced.memoKey? with
    | none =>
      exact .lift (.failing trivial)
    | some known =>
      refine .ask ⟨jumpless.2, rfl⟩ ?_
      rintro ⟨others, keys⟩ _ ⟨ofOthers, rfl⟩
      exact ⟨⟨carries, ofOthers⟩, rfl⟩

/-- Forcing the keyword keys of a cache leaves no record behind. -/
theorem forceKwargKeys_meets (jumpless : NamedJumpless kwargs) :
    (forceKwargKeys kwargs).plan.Meets linearity none (forceKwargKeys kwargs).Answers := by
  cases kwargs with
  | nil => exact ⟨jumpless, rfl⟩
  | cons named rest =>
    obtain ⟨ofFirst, ofRest⟩ := List.forall_mem_cons.mp jumpless
    refine .ask ofFirst ?_
    rintro forced own ⟨carries, settles⟩
    obtain rfl := settles ofFirst
    cases key : forced.memoKey? with
    | none =>
      exact .lift (.failing trivial)
    | some known =>
      refine .ask ⟨ofRest, rfl⟩ ?_
      rintro ⟨others, keys⟩ _ ⟨ofOthers, rfl⟩
      exact ⟨List.forall_mem_cons.mpr ⟨carries, ofOthers⟩, rfl⟩

/-- Showing values leaves no record behind. -/
theorem shownDeep_meets (jumpless : AllJumpless values) :
    (shownDeep values).plan.Meets linearity none (shownDeep values).Answers := by
  cases values with
  | nil => exact rfl
  | cons value rest =>
    refine .ask ⟨jumpless.1, rfl⟩ ?_
    rintro forced _ ⟨-, rfl⟩
    have shows : Ensures linearity none (read fun m : Machine => m.display forced)
        fun _ own => True ∧ own = none := .reads fun _ _ => trivial
    refine .step shows ?_
    rintro shown _ ⟨-, rfl⟩
    refine .ask ⟨jumpless.2, rfl⟩ ?_
    rintro others _ rfl
    exact rfl

/-! ## Calls -/

/-- Applying a callable that may return jumps hands on at most the record that it returns. -/
theorem apply_meets (obeys : callable.Obeys true) (ofArgs : AllJumpless args)
    (ofKwargs : NamedJumpless kwargs) :
    (apply callable args kwargs).plan.Meets linearity none
      (apply callable args kwargs).Answers := by
  cases callable with
  | closure ref function env =>
    refine .step (.parameterScope _ env ofArgs ofKwargs) ?_
    rintro scope _ rfl
    exact .ask ⟨obeys, rfl⟩ fun _ _ holds => holds
  | native op =>
    refine .step (.noKwargs _ kwargs) ?_
    rintro _ _ rfl
    have applies : (sub (applyNative op args)).Meets linearity none
        (apply (.native op) args kwargs).Answers :=
      .sub ⟨ofArgs, rfl⟩ fun _ _ holds => ⟨holds.2 ▸ holds.1, fun _ => holds.2⟩
    cases op.arity with
    | none => exact applies
    | some expected => exact .ite (fun _ => applies) fun _ => .lift (.failing trivial)
  | trampolined inner variant =>
    refine .ask ⟨obeys, ofArgs, ofKwargs, rfl⟩ ?_
    rintro first own ⟨carries, -⟩
    refine .sub carries ?_
    rintro value _ ⟨jumpless, rfl⟩
    exact ⟨jumpless, fun _ => rfl⟩
  | memoized inner cache =>
    refine .ask ⟨ofArgs, rfl⟩ ?_
    rintro ⟨args, argKeys⟩ _ ⟨ofArgs, rfl⟩
    refine .ask ⟨ofKwargs, rfl⟩ ?_
    rintro ⟨kwargs, kwargKeys⟩ _ ⟨ofKwargs, rfl⟩
    refine .step (.cached cache _) ?_
    rintro hit _ ⟨ofHit, rfl⟩
    cases hit with
    | some value => exact ⟨ofHit value rfl, fun _ => rfl⟩
    | none =>
      refine .ask ⟨obeys, ofArgs, ofKwargs, rfl⟩ ?_
      rintro value _ ⟨jumpless, rfl⟩
      refine .step (.remember cache _ jumpless) ?_
      rintro _ _ rfl
      exact ⟨jumpless, fun _ => rfl⟩
  | looped | loopHandle => exact obeys.elim
  | escapePoint inner =>
    refine .step .enterPoint ?_
    rintro tag _ ⟨-, rfl⟩
    refine ⟨_, .sub ⟨obeys, ⟨trivial, ofArgs⟩, ofKwargs, rfl⟩ fun _ _ holds => holds, ?_, ?_⟩
    · rintro value own ⟨carries, settles⟩
      refine .step (.leavePoint tag) ?_
      rintro _ _ rfl
      exact ⟨carries, settles⟩
    · rintro error _ ⟨ofError, rfl⟩
      cases error with
      | escape target value =>
        refine .step (.leavePoint tag) ?_
        rintro _ _ rfl
        refine .ite (fun _ => .step (.tell _) ?_) fun _ => .lift (.failing ofError)
        rintro _ _ rfl
        exact ⟨ofError, fun _ => rfl⟩
      | _ =>
        refine .step (.leavePoint tag) ?_
        rintro _ _ rfl
        exact .lift (.failing ofError)
  | escape tag =>
    have looks : Ensures linearity none (Run.pointRunning tag) fun _ own => True ∧ own = none :=
      .reads fun _ _ => trivial
    refine .step looks ?_
    rintro running _ ⟨-, rfl⟩
    refine .ite (fun _ => .lift (.failing trivial)) fun _ => .step (.noKwargs _ kwargs) ?_
    rintro _ _ rfl
    exact .lift (.failing (Value.Jumpless.pack ofArgs))
  | contEnabled inner =>
    refine .ite (fun _ => .sub ⟨obeys, ofArgs, ofKwargs, rfl⟩ fun _ _ holds => holds) fun _ => ?_
    refine .step .newIdentity ?_
    rintro identity _ ⟨ofIdentity, rfl⟩
    have ofNamed : NamedJumpless (kwargs ++ [(continuationParam, .func identity)]) :=
      List.forall_mem_append.mpr ⟨ofKwargs, List.forall_mem_singleton.mpr ofIdentity⟩
    exact .sub ⟨obeys, ofArgs, ofNamed, rfl⟩ fun _ _ holds => holds
  | lazyFn inner => exact .sub ⟨obeys, ofArgs, ofKwargs, rfl⟩ fun _ _ holds => holds
  | continuation ref function env extent isLazy =>
    have looks : Ensures linearity none (Run.extentValid extent) fun _ own => True ∧ own = none :=
      .reads fun _ _ => trivial
    refine .step looks ?_
    rintro valid _ ⟨-, rfl⟩
    refine .ite (fun _ => .lift (.failing trivial)) fun _ => .step (.noKwargs _ kwargs) ?_
    rintro _ _ rfl
    cases resumes : resumeValues function.signature.params.length args with
    | error error => exact .lift (.failing (Ensures.resumeValues_fails resumes))
    | ok values =>
      refine .step (.bindValues _ env (Ensures.resumeValues_jumpless ofArgs resumes)) ?_
      rintro scope _ rfl
      exact .ask ⟨obeys, rfl⟩ fun _ _ holds => holds
  | identity ref =>
    refine .step (.noKwargs _ kwargs) ?_
    rintro _ _ rfl
    exact ⟨Value.Jumpless.pack ofArgs, fun _ => rfl⟩

/-- A call takes the record that its callee returned. -/
theorem call_meets (obeys : callable.Obeys true) (ofArgs : AllJumpless args)
    (ofKwargs : NamedJumpless kwargs) :
    (call callable args kwargs).plan.Meets linearity none (call callable args kwargs).Answers := by
  refine .ask ⟨obeys, ofArgs, ofKwargs, rfl⟩ ?_
  rintro value own ⟨carries, -⟩
  cases own with
  | some ref =>
    obtain rfl : value = .jump ref := carries
    exact .sub rfl fun _ _ holds => holds
  | none =>
    cases value with
    | jump ref => exact carries.elim
    | _ => exact ⟨carries, rfl⟩

theorem trampoline_meets (variant : Variant) {first : Value} (carries : first.Carries own) :
    (trampoline variant first).plan.Meets linearity own (trampoline variant first).Answers :=
  ⟨_, .sub carries fun _ _ holds => holds, fun _ _ holds => holds⟩

/-- Each round of a trampoline takes the record in hand before it gets the next one. -/
theorem runJumps_meets (variant : Variant) {current : Value} (carries : current.Carries own) :
    (runJumps variant current).plan.Meets linearity own (runJumps variant current).Answers := by
  cases own with
  | some ref =>
    obtain rfl : current = .jump ref := carries
    exact .ask rfl fun next own carries => .sub carries fun _ _ holds => holds
  | none =>
    cases current with
    | jump ref => exact carries.elim
    | _ => exact ⟨carries, rfl⟩

/-- The record that is taken is our own, and what the target returns is the next. -/
theorem takeStep_meets (variant : Variant) (ref : Nat) :
    (takeStep variant ref).plan.Meets linearity (some ref) (takeStep variant ref).Answers := by
  refine .step (.takeJump ref) ?_
  rintro jump _ ⟨jumpless, rfl⟩
  refine .ask ⟨jumpless.args, jumpless.kwargs, rfl⟩ ?_
  rintro ⟨args, kwargs⟩ _ ⟨ofArgs, ofKwargs, rfl⟩
  refine .step (.tell _) ?_
  rintro _ _ rfl
  have obeys := jumpless.target.underTrampoline
  have applies : (sub (apply jump.target.underTrampoline args kwargs)).Meets linearity none
      (takeStep variant ref).Answers :=
    .sub ⟨obeys, ofArgs, ofKwargs, rfl⟩ fun _ _ holds => holds.1
  cases continuation : jump.cc with
  | none => exact applies
  | some cc =>
    have ofCc := jumpless.cc cc continuation
    refine .ite (fun _ => ?_) fun _ => .ite (fun _ => applies) fun _ => ?_
    · exact .sub ⟨obeys, ofArgs, ofKwargs.replaceCc ofCc, rfl⟩ fun _ _ holds => holds.1
    · refine .ask ⟨jumpless.target.may, ofArgs, ofKwargs, rfl⟩ ?_
      rintro result _ ⟨ofResult, rfl⟩
      refine .step (.callable ofCc) ?_
      rintro next _ ⟨ofNext, rfl⟩
      have noKwargs : NamedJumpless [] := fun _ member => absurd member List.not_mem_nil
      exact .lift (.newJump ⟨ofNext, ⟨ofResult, trivial⟩, noKwargs, nofun⟩)

/-- A native gets values without jumps and returns one. -/
theorem applyNative_meets (op : Native) (jumpless : AllJumpless args) :
    (applyNative op args).plan.Meets linearity none (applyNative op args).Answers := by
  have both := Value.Jumpless.two jumpless
  cases op with
  | print =>
    refine .ask ⟨jumpless, rfl⟩ ?_
    rintro parts _ rfl
    refine .step (.write _) ?_
    rintro _ _ rfl
    exact ⟨trivial, rfl⟩
  | str =>
    refine .ask ⟨jumpless, rfl⟩ ?_
    rintro parts _ rfl
    exact ⟨trivial, rfl⟩
  | raise =>
    refine .ask ⟨jumpless, rfl⟩ ?_
    rintro parts _ rfl
    exact .lift (.failing trivial)
  | assertEq =>
    refine .ask ⟨both.1, rfl⟩ ?_
    rintro left _ ⟨-, rfl⟩
    refine .ask ⟨both.2, rfl⟩ ?_
    rintro right _ ⟨-, rfl⟩
    have compares : Ensures linearity none (read fun m : Machine => m.equal left right)
        fun _ own => True ∧ own = none := .reads fun _ _ => trivial
    refine .step compares ?_
    rintro equal _ ⟨-, rfl⟩
    have shows : Ensures linearity none (read fun m : Machine => (m.repr left, m.repr right))
        fun _ own => True ∧ own = none := .reads fun _ _ => trivial
    refine .ite (fun _ => ⟨trivial, rfl⟩) fun _ => .step shows ?_
    rintro shown _ ⟨-, rfl⟩
    exact .lift (.failing trivial)
  | force =>
    have ofValue := Value.Jumpless.one jumpless
    refine .sub ofValue ?_
    rintro forced own ⟨carries, settles⟩
    obtain rfl := settles ofValue
    exact ⟨carries, rfl⟩
  | forceDeep => exact .sub ⟨.one jumpless, rfl⟩ fun _ _ holds => holds
  | attempt =>
    have noKwargs : NamedJumpless [] := fun _ member => absurd member List.not_mem_nil
    refine .step (.callable both.1) ?_
    rintro thunk _ ⟨ofThunk, rfl⟩
    refine .step (.callable both.2) ?_
    rintro handler _ ⟨ofHandler, rfl⟩
    have calls : (sub (call thunk [] [])).Meets linearity none (call thunk [] []).Answers :=
      .sub ⟨ofThunk.may, trivial, noKwargs, rfl⟩ fun _ _ holds => holds
    refine ⟨_, ⟨_, calls, fun _ _ holds => holds⟩, fun value own holds => holds, ?_⟩
    rintro error _ ⟨ofError, rfl⟩
    refine .ite (fun _ => .lift (.failing ofError)) fun _ => ?_
    have looks : Ensures linearity none (read fun m : Machine => m.passed error)
        fun _ own => True ∧ own = none := .reads fun _ _ => trivial
    refine .step looks ?_
    rintro passes _ ⟨-, rfl⟩
    refine .ite (fun _ => .lift (.failing ofError)) fun _ => .step (.tell _) ?_
    rintro _ _ rfl
    exact .sub ⟨ofHandler.may, ⟨trivial, trivial⟩, noKwargs, rfl⟩ fun _ _ holds => holds
  | _ =>
    simp only [plan]
    split
    · rename_i computes
      exact .lift (.compute jumpless computes)
    · exact ⟨trivial, rfl⟩

end Task

/-! ## Runs -/

/-- All tasks keep to it that at most one record waits. -/
theorem linearity_kept : linearity.Kept := by
  intro task own asks
  cases task with
  | eval e frame => obtain ⟨obeys, rfl⟩ := asks; exact Task.eval_meets frame obeys
  | evalForced e frame => obtain ⟨obeys, rfl⟩ := asks; exact Task.evalForced_meets frame obeys
  | evalContinuation cc frame =>
    obtain ⟨obeys, rfl⟩ := asks; exact Task.evalContinuation_meets frame obeys
  | operand policy e frame =>
    obtain ⟨obeys, rfl⟩ := asks; exact Task.operand_meets policy frame obeys
  | delayed e frame => obtain ⟨obeys, rfl⟩ := asks; exact Task.delayed_meets frame obeys
  | operands policy es frame =>
    obtain ⟨obey, rfl⟩ := asks; exact Task.operands_meets policy frame obey
  | keywords policy es frame =>
    obtain ⟨obey, rfl⟩ := asks; exact Task.keywords_meets policy frame obey
  | evalArms arms alt frame =>
    obtain ⟨ofArms, ofAlt, rfl⟩ := asks; exact Task.evalArms_meets frame ofArms ofAlt
  | evalShort op es last frame => exact Task.evalShort_meets op frame asks.1 asks.2.1 asks.2.2
  | evalItems es last frame => exact Task.evalItems_meets frame asks.1 asks.2.1 asks.2.2
  | evalLoop test body frame =>
    obtain ⟨ofTest, ofBody, rfl⟩ := asks; exact Task.evalLoop_meets frame ofTest ofBody
  | force value => exact Task.force_meets asks
  | runThunk thunk => obtain ⟨jumpless, rfl⟩ := asks; exact Task.runThunk_meets jumpless
  | forceDeep value => obtain ⟨jumpless, rfl⟩ := asks; exact Task.forceDeep_meets jumpless
  | forceAll values => obtain ⟨jumpless, rfl⟩ := asks; exact Task.forceAll_meets jumpless
  | apply callable args kwargs =>
    obtain ⟨obeys, ofArgs, ofKwargs, rfl⟩ := asks; exact Task.apply_meets obeys ofArgs ofKwargs
  | call callable args kwargs =>
    obtain ⟨obeys, ofArgs, ofKwargs, rfl⟩ := asks; exact Task.call_meets obeys ofArgs ofKwargs
  | trampoline variant first => exact Task.trampoline_meets variant asks
  | runJumps variant current => exact Task.runJumps_meets variant asks
  | takeStep variant ref => obtain rfl := asks; exact Task.takeStep_meets variant ref
  | forceForStrict variant callee args kwargs =>
    obtain ⟨ofArgs, ofKwargs, rfl⟩ := asks
    exact Task.forceForStrict_meets variant callee ofArgs ofKwargs
  | forceArgs args => obtain ⟨jumpless, rfl⟩ := asks; exact Task.forceArgs_meets jumpless
  | forceKwargs kwargs => obtain ⟨jumpless, rfl⟩ := asks; exact Task.forceKwargs_meets jumpless
  | forceKeys args => obtain ⟨jumpless, rfl⟩ := asks; exact Task.forceKeys_meets jumpless
  | forceKwargKeys kwargs =>
    obtain ⟨jumpless, rfl⟩ := asks; exact Task.forceKwargKeys_meets jumpless
  | shownDeep values => obtain ⟨jumpless, rfl⟩ := asks; exact Task.shownDeep_meets jumpless
  | applyNative op args => obtain ⟨jumpless, rfl⟩ := asks; exact Task.applyNative_meets op jumpless

/-- Toplevel forms are run one after another, each with no record waiting. -/
theorem toplevels_meets {top : List Toplevel} {last : Value}
    (obey : AllObey .dressed (top.map Toplevel.expr)) (jumpless : last.Jumpless) :
    (Plan.toplevels top last).Meets linearity none
      fun value own => value.Jumpless ∧ own = none := by
  induction top generalizing last with
  | nil => exact ⟨jumpless, rfl⟩
  | cons form rest ih =>
    simp only [List.map_cons, AllObey] at obey
    obtain ⟨obeys, others⟩ := obey
    have evaluates : (Plan.ask (.eval form.expr Frame.toplevel) fun ended =>
        .done ended.1).Meets linearity none fun value own => value.Jumpless ∧ own = none := by
      refine ⟨⟨obeys.strict, rfl⟩, ?_⟩
      rintro ⟨value, frame⟩ own ⟨carries, settles⟩
      obtain rfl := settles obeys
      exact ⟨carries, rfl⟩
    cases form with
    | define name bindee =>
      refine ⟨_, evaluates, ?_⟩
      rintro value _ ⟨ofValue, rfl⟩
      refine .step (.defineToplevel name ofValue) ?_
      rintro _ _ rfl
      exact ih others jumpless
    | exec e =>
      refine ⟨_, evaluates, ?_⟩
      rintro value _ ⟨ofValue, rfl⟩
      refine .ask ofValue ?_
      rintro forced own ⟨carries, settles⟩
      obtain rfl := settles ofValue
      exact ih others carries

namespace Machine

/-- A new machine owes no record. -/
theorem owes_startLetting (errors : EvalError -> Bool) (closedOutput : Bool) :
    (startLetting errors closedOutput).Owes none where
  clean :=
    { globals := by
        intro named member
        rcases List.mem_append.mp member with native | identity
        · obtain ⟨op, -, rfl⟩ := List.mem_map.mp native
          trivial
        · obtain rfl := List.mem_singleton.mp identity
          trivial
      cells := fun _ member => absurd member (Array.not_mem_empty _)
      lists := fun _ member => absurd member (Array.not_mem_empty _)
      promises := fun _ member => absurd member (Array.not_mem_empty _)
      jumps := fun _ member => absurd member (Array.not_mem_empty _)
      caches := fun _ member => absurd member (Array.not_mem_empty _) }
  waits ref := by simp [jump, startLetting, start]

variable {m : Machine}

/-- Where no record waits, all were consumed. -/
theorem Owes.consumed (owes : m.Owes none) : ∀ record ∈ m.jumps, record = .consumed := by
  intro record member
  obtain ⟨ref, inside, rfl⟩ := Array.mem_iff_getElem.mp member
  cases state : m.jumps[ref] with
  | consumed => rfl
  | pending jump =>
    have waits : m.jump ref = .pending jump := by
      rw [Machine.jump, Array.getD_eq_getD_getElem?, Array.getElem?_eq_getElem inside, state]
      rfl
    cases (owes.waits ref).mp ⟨jump, waits⟩

/-- A machine that owes no record has no warnings to give. -/
theorem Owes.warnings (owes : m.Owes none) : m.warnings = [] := by
  have nothing : m.abandoned = [] := by
    rw [abandoned, List.filterMap_eq_nil_iff]
    intro record member
    rw [owes.consumed record (Array.mem_toList_iff.mp member)]
  simp [Machine.warnings, nothing]

end Machine

/-- The program can be run on the machine: it is the first one, or a run of the program left it. -/
inductive Program.RunsFrom (program : Program) (first : Machine) : Machine -> Prop where
  | first : RunsFrom program first first
  | again {m : Machine} {outcome : Outcome Machine Value} (earlier : RunsFrom program first m)
      (ends : program.EndsOn m outcome) : RunsFrom program first outcome.2

section Programs

variable {program : Program} (obey : AllObey .dressed (program.top.map Toplevel.expr))
include obey

variable {m : Machine}

/-- A run of a program whose machine owes nothing ends owing nothing, and takes no record twice. -/
theorem Program.run_linear (owes : m.Owes none) {outcome : Outcome Machine Value}
    (ends : program.EndsOn m outcome) :
    outcome.2.Owes none ∧ outcome.1 ≠ .error .jumpConsumed := by
  obtain ⟨fuel, ran⟩ := ends
  rw [Program.run, ← Plan.run_toplevels] at ran
  have jumpless : Value.nil.Jumpless := trivial
  have admits := (toplevels_meets obey jumpless).run (linearity_kept.task fuel) m outcome owes ran
  obtain ⟨result, last⟩ := outcome
  cases result with
  | ok value =>
    obtain ⟨own, ⟨-, rfl⟩, owes⟩ := admits
    refine ⟨owes, ?_⟩
    rintro ⟨⟩
  | error error =>
    obtain ⟨own, ⟨ofError, rfl⟩, owes⟩ := admits
    refine ⟨owes, ?_⟩
    rintro ⟨⟩
    exact ofError

/-- No step of a session leaves a record behind. -/
theorem Program.RunsFrom.owes {first : Machine} (runs : program.RunsFrom first m)
    (owes : first.Owes none) : m.Owes none := by
  induction runs with
  | first => exact owes
  | again _ ends ih => exact (Program.run_linear obey ih ends).1

/-- Whenever a trampoline takes a record, it waits. -/
theorem Program.takes_pending (owes : m.Owes none) {n : Nat} {top : Call}
    {callers : List Call} (stack : Entry.Stack (.program program) n m (top :: callers))
    {variant : Variant} {ref : Nat} (takes : top.task = .takeStep variant ref) :
    ∃ jump, top.machine.jump ref = .pending jump := by
  have jumpless : Value.nil.Jumpless := trivial
  have started : ∀ call, (Entry.program program).Makes n m call ->
      ∃ own, linearity.asks call.task own ∧ linearity.holds own call.machine := by
    rintro call ⟨rfl, asks⟩
    exact (toplevels_meets obey jumpless).asks (linearity_kept.task _) owes asks
  obtain ⟨own, asks, owes⟩ := linearity_kept.stack started stack
  rw [takes] at asks
  exact (owes.waits ref).mpr asks

end Programs

/-- Jump records are linear. In a program without written jumps and handles, under any table of
decorators, every run consumes every record, however it ends, and none of them twice: no error says
so, handled or not, and whenever a trampoline takes a record, it waits. -/
theorem Program.jumps_linear {source : String} {path : Option String} {program : Program}
    (parsed : Program.parse source path = .ok program)
    (noJumps : ∀ node ∈ program.nodes, node.isJump = false)
    (noHandles : ∀ function ∈ program.functions, ∀ written ∈ function.signature.decorators,
      written.1 ≠ Decorator.looped.name)
    {table : DecoratorTable} {escapes : List String} {transformed : Transformed}
    (succeeds : program.transform table escapes = .ok transformed)
    {errors : EvalError -> Bool} {closedOutput : Bool} {m : Machine}
    (runs : transformed.program.RunsFrom (.startLetting errors closedOutput) m) :
    (∀ outcome, transformed.program.EndsOn m outcome ->
      (∀ record ∈ outcome.2.jumps, record = .consumed) ∧ outcome.2.warnings = [] ∧
        outcome.1 ≠ .error .jumpConsumed) ∧
    ∀ n top callers variant ref,
      Entry.Stack (.program transformed.program) n m (top :: callers) ->
        top.task = .takeStep variant ref -> ∃ jump, top.machine.jump ref = .pending jump := by
  have obey := Program.transform_obeys ⟨noJumps, noHandles⟩ (Program.parse_isSource parsed) succeeds
  have owes := runs.owes obey (Machine.owes_startLetting errors closedOutput)
  refine ⟨fun outcome ends => ?_, fun n top callers variant ref stack takes => ?_⟩
  · obtain ⟨owes, different⟩ := Program.run_linear obey owes ends
    exact ⟨owes.consumed, owes.warnings, different⟩
  · exact Program.takes_pending obey owes stack takes

/-- Two functions that jump to each other, the one in a block for continuations. -/
def alternatingCalls : String :=
  "(continuations
    (defn f (n) (if (= n 0) n (g (- n 1)))))
  (tco
    (defn g (n) :decorators (memoize) (if (= n 0) n (f (- n 1)))))
  (f 2)"

/-- Two functions that call each other by jumps are an instance, with records that were all
taken. -/
theorem alternatingCalls_linear : ∃ transformed outcome,
    (Program.ofText alternatingCalls).transform .default [] = .ok transformed ∧
    transformed.program.EndsOn (.startLetting (fun _ => true) false) outcome ∧
    0 < outcome.2.jumps.size ∧ (∀ record ∈ outcome.2.jumps, record = .consumed) := by
  have ⟨reads, noJumps, noHandles, ran⟩ :
      (Program.parse alternatingCalls none).toOption.isSome = true ∧
      (∀ node ∈ (Program.ofText alternatingCalls).nodes, node.isJump = false) ∧
      (∀ function ∈ (Program.ofText alternatingCalls).functions,
        ∀ written ∈ function.signature.decorators, written.1 ≠ Decorator.looped.name) ∧
      ((Program.ofText alternatingCalls).transform .default []).toOption.any (fun transformed =>
        (transformed.program.run 60 (.startLetting (fun _ => true) false)).any fun outcome =>
          0 < outcome.2.jumps.size) = true := by
    rw [Program.ofText, alternatingCalls, Program.parse_ofList]
    decide +kernel
  cases succeeds : (Program.ofText alternatingCalls).transform .default [] with
  | error error => simp [succeeds, Except.toOption] at ran
  | ok transformed =>
    simp only [succeeds, Except.toOption, Option.any_some] at ran
    obtain ⟨outcome, ran, jumps⟩ := (Option.any_eq_true _ _).mp ran
    have ends : transformed.program.EndsOn _ outcome := ⟨60, ran⟩
    have runs : transformed.program.RunsFrom (.startLetting (fun _ => true) false) _ := .first
    have linear := Program.jumps_linear (Program.parse_ofText reads) noJumps noHandles succeeds runs
    exact ⟨transformed, outcome, rfl, ends, of_decide_eq_true jumps, (linear.1 outcome ends).1⟩

end Trampoline
