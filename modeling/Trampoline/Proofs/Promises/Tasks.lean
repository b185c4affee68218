import Trampoline.Proofs.Jumps.Linearity
import Trampoline.Proofs.Promises.Bodies

/-!
# Promises stay in cells and jumps

Every task observes the discipline, and so do the runs of programs. What delays its arguments
without knowing the callee is a jump, and its trampoline forces them if the callee takes no
promises.
-/

namespace Trampoline

open Exec

namespace Task

open Plan

variable {m : Machine}

/-! ## Promises -/

variable {value : Value} {values args : List Value} {kwargs : Kwargs} {variant : Variant}
  {callable : Callable}

/-- The value that is forced, unless it is a promise. -/
theorem force_observes (tidy : m.Tidy) (known : value.isJump = true ∨ value.Fits True m) :
    (force value).plan.Observes promptness m (force value).Delivers := by
  cases value with
  | promise ref =>
    refine .step (.read tidy _) ?_
    rintro state m₁ reaches ⟨rfl, rfl⟩
    have sound := Prompt.stores.promise tidy ref
    cases state : m₁.promise ref with
    | forced value =>
      rw [state] at sound
      have plain : value.Plain m₁ := sound
      exact ⟨plain.returns, fun _ => plain.not_jump⟩
    | forcing => exact .lift (Prompt.failing tidy trivial)
    | pending thunk =>
      rw [state] at sound
      have prompt : thunk.Prompt := sound
      refine ⟨fun value m => value.Plain m, ?_, ?_, ?_⟩
      · have running : Promise.forcing.Sound m₁ := trivial
        refine .step (Prompt.stores.setPromise tidy ref running) ?_
        rintro _ m₂ reaches₂ -
        refine .step (Prompt.stores.tell reaches₂.holds _) ?_
        rintro _ m₃ reaches₃ -
        refine .ask prompt ?_
        rintro value m₄ reaches₄ plain
        refine .sub (.inr plain.fits) ?_
        rintro forced m₅ reaches₅ ⟨returns, settles⟩
        exact returns.plain (settles plain.not_jump)
      · rintro value m₂ reaches₂ plain
        have forced : (Promise.forced value).Sound m₂ := plain
        refine .step (Prompt.stores.setPromise reaches₂.holds ref forced) ?_
        rintro _ m₃ reaches₃ -
        have plain := plain.mono reaches₃.leads
        exact ⟨plain.returns, fun _ => plain.not_jump⟩
      · rintro error m₂ reaches₂ plain
        have again : (Promise.pending thunk).Sound m₂ := prompt
        refine .step (Prompt.stores.setPromise reaches₂.holds ref again) ?_
        rintro _ m₃ reaches₃ -
        exact .lift (Prompt.failing reaches₃.holds (plain.mono reaches₃.leads))
  | _ => exact ⟨known.imp_right fun fits => fits.of_solid rfl, id⟩

/-- A thunk comes to what its body or its global returns. -/
theorem runThunk_observes (tidy : m.Tidy) {thunk : Thunk} (prompt : thunk.Prompt) :
    (runThunk thunk).plan.Observes promptness m (runThunk thunk).Delivers := by
  cases thunk with
  | expr e env =>
    obtain ⟨obeys, prompt⟩ := prompt
    refine .ask ⟨obeys.strict, prompt, nofun⟩ ?_
    rintro ⟨value, frame⟩ m' reaches ⟨returns, settles, -⟩
    exact returns.plain (settles obeys)
  | global name =>
    refine .step (.read tidy _) ?_
    rintro found m₁ reaches ⟨rfl, rfl⟩
    cases found : m₁.global? name with
    | none => exact .lift (Prompt.failing tidy trivial)
    | some value =>
      have plain := (Machine.tidy_iff.mp tidy).global found
      cases value with
      | func callable => exact .sub ⟨plain, allFit_nil, namedFit_nil⟩ fun _ _ _ known => known
      | _ =>
        refine .sub (.inr plain.fits) ?_
        rintro forced m₂ reaches₂ ⟨returns, settles⟩
        exact returns.plain (settles plain.not_jump)

/-- A deep force answers with a plain value. -/
theorem forceDeep_observes (fits : value.Fits True m) :
    (forceDeep value).plan.Observes promptness m (forceDeep value).Delivers := by
  refine .ask (.inr fits) ?_
  rintro forced m₁ reaches₁ ⟨returns, settles⟩
  have plain := returns.plain (settles fits.not_jump)
  cases forced with
  | list ref =>
    refine .step (.read reaches₁.holds _) ?_
    rintro items m₂ reaches₂ ⟨rfl, rfl⟩
    have stored : AllPlain m₂ (m₂.items ref).toList :=
      allPlain_iff.mpr (Prompt.stores.items reaches₂.holds ref)
    refine .ask stored.fit ?_
    rintro items m₃ reaches₃ ofItems
    refine .step (Prompt.stores.setItems reaches₃.holds ref (allPlain_iff.mp ofItems)) ?_
    rintro _ m₄ reaches₄ -
    exact trivial
  | tuple items =>
    have ofItems : AllPlain m₁ items := plain
    refine .ask ofItems.fit ?_
    rintro items m₂ reaches₂ ofItems
    exact ofItems
  | _ => exact plain

/-- Deep forces of several values answer with plain values. -/
theorem forceAll_observes (fit : AllFit True m values) :
    (forceAll values).plan.Observes promptness m (forceAll values).Delivers := by
  cases values with
  | nil => exact trivial
  | cons value rest =>
    obtain ⟨ofFirst, ofRest⟩ := List.forall_mem_cons.mp fit
    refine .ask ofFirst ?_
    rintro forced m₁ reaches₁ plain
    refine .ask (AllFit.mono ofRest reaches₁.leads) ?_
    rintro others m₂ reaches₂ ofOthers
    exact ⟨plain.mono reaches₂.leads, ofOthers⟩

/-- Arguments that were forced are plain. -/
theorem forceArgs_observes (fit : AllFit True m values) :
    (forceArgs values).plan.Observes promptness m (forceArgs values).Delivers := by
  cases values with
  | nil => exact trivial
  | cons value rest =>
    obtain ⟨ofFirst, ofRest⟩ := List.forall_mem_cons.mp fit
    refine .ask (.inr ofFirst) ?_
    rintro forced m₁ reaches₁ ⟨returns, settles⟩
    have plain := returns.plain (settles ofFirst.not_jump)
    refine .ask (AllFit.mono ofRest reaches₁.leads) ?_
    rintro others m₂ reaches₂ ofOthers
    exact ⟨plain.mono reaches₂.leads, ofOthers⟩

/-- Keyword arguments that were forced are plain. -/
theorem forceKwargs_observes (fit : NamedFit True m kwargs) :
    (forceKwargs kwargs).plan.Observes promptness m (forceKwargs kwargs).Delivers := by
  cases kwargs with
  | nil => exact namedFit_nil
  | cons named rest =>
    obtain ⟨ofFirst, ofRest⟩ := List.forall_mem_cons.mp fit
    refine .ask (.inr ofFirst) ?_
    rintro forced m₁ reaches₁ ⟨returns, settles⟩
    have plain := returns.plain (settles ofFirst.not_jump)
    refine .ask (NamedFit.mono ofRest reaches₁.leads) ?_
    rintro others m₂ reaches₂ ofOthers
    exact .cons (plain.mono reaches₂.leads).fits ofOthers

/-- A trampoline gives its targets what they take. -/
theorem forceForStrict_observes (aware : variant = .promiseAware)
    (callee : Callable) (fit : AllFit True m args) (namedFit : NamedFit True m kwargs) :
    (forceForStrict variant callee args kwargs).plan.Observes promptness m
      (forceForStrict variant callee args kwargs).Delivers := by
  refine .ite (fun _ => .ask fit ?_) fun forces => ?_
  · rintro forced m₁ reaches₁ ofForced
    refine .ask (namedFit.mono reaches₁.leads) ?_
    rintro named m₂ reaches₂ ofNamed
    exact ⟨(ofForced.mono reaches₂.leads).fit, ofNamed.imp False.elim⟩
  · have isLazy : callee.isLazy = true := by simpa [aware] using forces
    exact ⟨fit.imp fun _ => isLazy, namedFit.imp fun _ => isLazy⟩

/-- The arguments of a cached call are plain once their keys are known. -/
theorem forceKeys_observes (fit : AllFit True m values) :
    (forceKeys values).plan.Observes promptness m (forceKeys values).Delivers := by
  cases values with
  | nil => exact trivial
  | cons value rest =>
    obtain ⟨ofFirst, ofRest⟩ := List.forall_mem_cons.mp fit
    refine .ask (.inr ofFirst) ?_
    rintro forced m₁ reaches₁ ⟨returns, settles⟩
    have plain := returns.plain (settles ofFirst.not_jump)
    cases key : forced.memoKey? with
    | none => exact .lift (Prompt.failing reaches₁.holds trivial)
    | some known =>
      refine .ask (AllFit.mono ofRest reaches₁.leads) ?_
      rintro ⟨others, keys⟩ m₂ reaches₂ ofOthers
      exact ⟨plain.mono reaches₂.leads, ofOthers⟩

/-- The keyword arguments of a cached call are plain once their keys are known. -/
theorem forceKwargKeys_observes (fit : NamedFit True m kwargs) :
    (forceKwargKeys kwargs).plan.Observes promptness m (forceKwargKeys kwargs).Delivers := by
  cases kwargs with
  | nil => exact namedFit_nil
  | cons named rest =>
    obtain ⟨ofFirst, ofRest⟩ := List.forall_mem_cons.mp fit
    refine .ask (.inr ofFirst) ?_
    rintro forced m₁ reaches₁ ⟨returns, settles⟩
    have plain := returns.plain (settles ofFirst.not_jump)
    cases key : forced.memoKey? with
    | none => exact .lift (Prompt.failing reaches₁.holds trivial)
    | some known =>
      refine .ask (NamedFit.mono ofRest reaches₁.leads) ?_
      rintro ⟨others, keys⟩ m₂ reaches₂ ofOthers
      exact .cons (plain.mono reaches₂.leads).fits ofOthers

/-- Values are shown after they have been forced. -/
theorem shownDeep_observes (fit : AllFit True m values) :
    (shownDeep values).plan.Observes promptness m (shownDeep values).Delivers := by
  cases values with
  | nil => exact trivial
  | cons value rest =>
    obtain ⟨ofFirst, ofRest⟩ := List.forall_mem_cons.mp fit
    refine .ask ofFirst ?_
    rintro forced m₁ reaches₁ -
    refine .step (.read reaches₁.holds _) ?_
    rintro shown m₂ reaches₂ -
    refine .ask (AllFit.mono ofRest (reaches₁.trans reaches₂).leads) ?_
    rintro others m₃ reaches₃ -
    exact trivial

/-! ## Calls -/

/-- Applying a callable to what it takes returns a plain value or a jump. -/
theorem apply_observes (tidy : m.Tidy)
    (obeys : callable.Obeys true) (sound : callable.Sound m) (fit : AllFit callable.Takes m args)
    (namedFit : NamedFit callable.Takes m kwargs) :
    (apply callable args kwargs).plan.Observes promptness m
      (apply callable args kwargs).Delivers := by
  cases callable with
  | closure ref function env =>
    obtain ⟨prompt, solid⟩ := sound
    refine .step (Prompt.parameterScope tidy _ fit namedFit fun strict => ?_) ?_
    · exact solid (eq_false_of_ne_true strict)
    · rintro scope m₁ reaches₁ solid
      refine .ask ⟨obeys, prompt, fun strict => solid (ne_true_of_eq_false strict)⟩ ?_
      rintro ⟨value, frame⟩ m₂ reaches₂ ⟨returns, settles, -⟩
      exact ⟨returns, settles⟩
  | native op =>
    refine .step (Prompt.stores.noKwargs tidy _ kwargs) ?_
    rintro _ m₁ reaches₁ rfl
    have applies : (sub (applyNative op args)).Observes promptness m₁
        (apply (.native op) args kwargs).Delivers :=
      .sub (fit.plain id) fun value m' reaches plain => ⟨plain.returns, fun _ => plain.not_jump⟩
    cases op.arity with
    | none => exact applies
    | some expected => exact .ite (fun _ => applies) fun _ => .lift (Prompt.failing tidy trivial)
  | trampolined inner variant =>
    refine .ask ⟨⟨obeys, sound.2⟩, fit, namedFit⟩ ?_
    rintro first m₁ reaches₁ ⟨returns, -⟩
    refine .sub ⟨sound.1, returns⟩ ?_
    rintro value m₂ reaches₂ plain
    exact ⟨plain.returns, fun _ => plain.not_jump⟩
  | memoized inner cache =>
    obtain ⟨tight, sound⟩ := sound
    refine .ask (fit.imp fun _ => trivial) ?_
    rintro ⟨args, argKeys⟩ m₁ reaches₁ plain
    refine .ask ((namedFit.mono reaches₁.leads).imp fun _ => trivial) ?_
    rintro ⟨kwargs, kwargKeys⟩ m₂ reaches₂ named
    refine .step (Prompt.stores.cached reaches₂.holds cache _) ?_
    rintro hit m₃ reaches₃ ofHit
    cases hit with
    | some value =>
      have plain := ofHit value rfl
      exact ⟨plain.returns, fun _ => plain.not_jump⟩
    | none =>
      have sound := sound.mono ((reaches₁.trans reaches₂).trans reaches₃).leads
      have plain := plain.mono (reaches₂.trans reaches₃).leads
      have named : NamedFit inner.Takes m₃ kwargs := (named.mono reaches₃.leads).imp False.elim
      refine .ask ⟨⟨tight, sound⟩, plain.fit, named⟩ ?_
      rintro value m₄ reaches₄ plain
      refine .step (Prompt.stores.remember reaches₄.holds cache _ plain) ?_
      rintro _ m₅ reaches₅ -
      have plain := plain.mono reaches₅.leads
      exact ⟨plain.returns, fun _ => plain.not_jump⟩
  | looped | loopHandle => exact obeys.elim
  | escapePoint inner =>
    refine .step (Prompt.enterPoint tidy) ?_
    rintro tag m₁ reaches₁ -
    have escape : (Value.func (.escape tag)).Plain m₁ := ⟨trivial, trivial⟩
    have ofArgs := AllFit.cons escape.fits (fit.mono reaches₁.leads)
    have ofInner : inner.Sound m₁ := Callable.Sound.mono sound reaches₁.leads
    have applies : (sub (apply inner (.func (.escape tag) :: args) kwargs)).Observes promptness m₁
        (apply inner (.func (.escape tag) :: args) kwargs).Delivers :=
      .sub ⟨⟨obeys, ofInner⟩, ofArgs, namedFit.mono reaches₁.leads⟩ fun _ _ _ known => known
    refine ⟨_, applies, ?_, ?_⟩
    · rintro value m₂ reaches₂ ⟨returns, settles⟩
      refine .step (Prompt.leavePoint reaches₂.holds tag) ?_
      rintro _ m₃ reaches₃ -
      exact ⟨returns.mono reaches₃.leads, settles⟩
    · rintro error m₂ reaches₂ plain
      cases error with
      | escape target value =>
        refine .step (Prompt.leavePoint reaches₂.holds tag) ?_
        rintro _ m₃ reaches₃ -
        have plain : value.Plain m₃ := Value.Plain.mono reaches₃.leads plain
        refine .ite (fun _ => .step (Prompt.stores.tell reaches₃.holds _) ?_) fun _ => ?_
        · rintro _ m₄ reaches₄ -
          have plain := plain.mono reaches₄.leads
          exact ⟨plain.returns, fun _ => plain.not_jump⟩
        · exact .lift (Prompt.failing reaches₃.holds plain)
      | _ =>
        refine .step (Prompt.leavePoint reaches₂.holds tag) ?_
        rintro _ m₃ reaches₃ -
        exact .lift (Prompt.failing reaches₃.holds trivial)
  | escape tag =>
    refine .step (.read tidy _) ?_
    rintro running m₁ reaches₁ ⟨-, rfl⟩
    refine .ite (fun _ => .lift (Prompt.failing tidy trivial)) fun _ => ?_
    refine .step (Prompt.stores.noKwargs tidy _ kwargs) ?_
    rintro _ m₂ reaches₂ rfl
    have plain : AllPlain m₂ args := fit.plain id
    exact .lift (Prompt.failing tidy (Value.Plain.pack plain))
  | contEnabled inner =>
    have ofInner : inner.Sound m := sound
    refine .ite (fun _ => .sub ⟨⟨obeys, ofInner⟩, fit, namedFit⟩ fun _ _ _ known => known)
      fun _ => ?_
    refine .step (Prompt.stores.newIdentity tidy) ?_
    rintro _ m₁ reaches₁ ⟨ref, rfl⟩
    have plain : (Value.func (.identity ref)).Plain m₁ := ⟨trivial, trivial⟩
    have named : NamedFit inner.Takes m₁ (kwargs ++ [(continuationParam, .func (.identity ref))]) :=
      List.forall_mem_append.mpr
        ⟨namedFit.mono reaches₁.leads, List.forall_mem_singleton.mpr plain.fits⟩
    exact .sub ⟨⟨obeys, ofInner.mono reaches₁.leads⟩, fit.mono reaches₁.leads, named⟩
      fun _ _ _ known => known
  | lazyFn inner =>
    exact .sub ⟨⟨obeys, sound.2⟩, fit, namedFit⟩ fun _ _ _ known => known
  | continuation ref function env extent isLazy =>
    obtain ⟨isLazy, prompt⟩ := sound
    subst isLazy
    refine .step (.read tidy _) ?_
    rintro valid m₁ reaches₁ ⟨-, rfl⟩
    refine .ite (fun _ => .lift (Prompt.failing tidy trivial)) fun _ => ?_
    refine .step (Prompt.stores.noKwargs tidy _ kwargs) ?_
    rintro _ m₂ reaches₂ rfl
    cases resumes : resumeValues function.signature.params.length args with
    | error error => exact .lift (Prompt.failing tidy (Prompt.resumeValues_fails resumes))
    | ok values =>
      refine .step (Prompt.bindValues tidy _ env (Prompt.resumeValues_fit fit resumes)) ?_
      rintro scope m₃ reaches₃ -
      refine .ask ⟨obeys, prompt, nofun⟩ ?_
      rintro ⟨value, frame⟩ m₄ reaches₄ ⟨returns, settles, -⟩
      exact ⟨returns, settles⟩
  | identity ref =>
    refine .step (Prompt.stores.noKwargs tidy _ kwargs) ?_
    rintro _ m₁ reaches₁ rfl
    have plain := Value.Plain.pack (fit.plain id)
    exact ⟨plain.returns, fun _ => plain.not_jump⟩

/-- A call comes to a plain value. -/
theorem call_observes (obeys : callable.Obeys false) (sound : callable.Sound m)
    (fit : AllFit callable.Takes m args) (namedFit : NamedFit callable.Takes m kwargs) :
    (call callable args kwargs).plan.Observes promptness m
      (call callable args kwargs).Delivers := by
  refine .ask ⟨⟨obeys.may, sound⟩, fit, namedFit⟩ ?_
  rintro value m' reaches ⟨returns, settles⟩
  have plain := returns.plain (settles obeys)
  cases value with
  | jump ref => exact plain.elim
  | _ => exact plain

/-- A trampoline that is aware of promises comes to a plain value. -/
theorem trampoline_observes (aware : variant = .promiseAware) {first : Value}
    (returns : first.Returns m) :
    (trampoline variant first).plan.Observes promptness m (trampoline variant first).Delivers := by
  refine ⟨_, .sub ⟨aware, returns⟩ fun _ _ _ known => known, ?_⟩
  rintro value last m' - plain leaves
  exact plain.mono leaves.leads

/-- A loop over jumps that is aware of promises comes to a plain value. -/
theorem runJumps_observes (aware : variant = .promiseAware) {current : Value}
    (returns : current.Returns m) :
    (runJumps variant current).plan.Observes promptness m (runJumps variant current).Delivers := by
  cases current with
  | jump ref =>
    refine .ask aware ?_
    rintro next m' reaches returns
    exact .sub ⟨aware, returns⟩ fun _ _ _ known => known
  | _ => exact returns.plain rfl

/-- What a jump delays its trampoline forces if the target is strict. -/
theorem takeStep_observes (tidy : m.Tidy) (aware : variant = .promiseAware) (ref : Nat) :
    (takeStep variant ref).plan.Observes promptness m (takeStep variant ref).Delivers := by
  refine .step (Prompt.stores.takeJump tidy ref) ?_
  rintro jump m₁ reaches₁ sound
  refine .ask ⟨aware, sound.args, sound.kwargs⟩ ?_
  rintro ⟨args, kwargs⟩ m₂ reaches₂ ⟨fit, namedFit⟩
  refine .step (Prompt.stores.tell reaches₂.holds _) ?_
  rintro _ m₃ reaches₃ -
  have sound := sound.mono (reaches₂.trans reaches₃).leads
  have under := sound.target.underTrampoline
  have fit := (fit.imp under.takes).mono reaches₃.leads
  have namedFit := (namedFit.imp under.takes).mono reaches₃.leads
  have applies : ∀ kwargs, NamedFit jump.target.underTrampoline.Takes m₃ kwargs ->
      (sub (apply jump.target.underTrampoline args kwargs)).Observes promptness m₃
        (takeStep variant ref).Delivers := fun kwargs namedFit =>
    .sub ⟨⟨sound.obeys.underTrampoline, under⟩, fit, namedFit⟩ fun _ _ _ known => known.1
  cases continuation : jump.cc with
  | none => exact applies kwargs namedFit
  | some cc =>
    have ofCc := sound.cc cc continuation
    refine .ite (fun _ => applies _ (namedFit.replaceCc ofCc)) fun _ => ?_
    refine .ite (fun _ => applies _ namedFit) fun _ => ?_
    have takes := jump.target.takes_underTrampoline
    refine .ask ⟨⟨sound.obeys, sound.target⟩, fit.imp takes.mp, namedFit.imp takes.mp⟩ ?_
    rintro result m₄ reaches₄ plain
    refine .step (Prompt.callable reaches₄.holds (ofCc.mono reaches₄.leads)) ?_
    rintro next m₅ reaches₅ ⟨ofNext, nextSound⟩
    have plain := plain.mono reaches₅.leads
    have handsOn : Jump.Sound m₅ ⟨next, [result], [], none⟩ :=
      { obeys := ofNext
        target := nextSound
        args := .cons plain.fits allFit_nil
        kwargs := namedFit_nil
        cc := nofun }
    refine .step (Prompt.stores.newJump reaches₅.holds handsOn) ?_
    rintro _ m₆ reaches₆ ⟨ref, rfl⟩
    exact .inl rfl

/-- A native gets plain values and returns one. -/
theorem applyNative_observes (tidy : m.Tidy) (op : Native) (plain : AllPlain m args) :
    (applyNative op args).plan.Observes promptness m (applyNative op args).Delivers := by
  have both := Value.Plain.two plain
  cases op with
  | print =>
    refine .ask plain.fit ?_
    rintro parts m₁ reaches₁ -
    refine .step (Prompt.stores.write reaches₁.holds _) ?_
    rintro _ m₂ reaches₂ -
    exact trivial
  | str =>
    refine .ask plain.fit ?_
    rintro parts m₁ reaches₁ -
    exact trivial
  | raise =>
    refine .ask plain.fit ?_
    rintro parts m₁ reaches₁ -
    exact .lift (Prompt.failing reaches₁.holds trivial)
  | assertEq =>
    refine .ask both.1.fits ?_
    rintro left m₁ reaches₁ -
    refine .ask (both.2.mono reaches₁.leads).fits ?_
    rintro right m₂ reaches₂ -
    refine .step (.read reaches₂.holds _) ?_
    rintro equal m₃ reaches₃ -
    refine .ite (fun _ => trivial) fun _ => .step (.read reaches₃.holds _) ?_
    rintro shown m₄ reaches₄ -
    exact .lift (Prompt.failing reaches₄.holds trivial)
  | force =>
    have ofValue := Value.Plain.one plain
    refine .sub (.inr ofValue.fits) ?_
    rintro forced m₁ reaches₁ ⟨returns, settles⟩
    exact returns.plain (settles ofValue.not_jump)
  | forceDeep => exact .sub (Value.Plain.one plain).fits fun _ _ _ known => known
  | attempt =>
    refine .step (Prompt.callable tidy both.1) ?_
    rintro thunk m₁ reaches₁ ofThunk
    refine .step (Prompt.callable reaches₁.holds (both.2.mono reaches₁.leads)) ?_
    rintro handler m₂ reaches₂ ofHandler
    have thunkSound := ofThunk.2.mono reaches₂.leads
    have calls : (sub (call thunk [] [])).Observes promptness m₂ (call thunk [] []).Delivers :=
      .sub ⟨⟨ofThunk.1, thunkSound⟩, allFit_nil, namedFit_nil⟩ fun _ _ _ known => known
    refine ⟨fun value m => value.Plain m, ⟨_, calls, ?_⟩, fun _ _ _ plain => plain, ?_⟩
    · rintro value last m' - plain leaves
      exact plain.mono leaves.leads
    · rintro error m₃ reaches₃ plain
      refine .ite (fun _ => .lift (Prompt.failing reaches₃.holds plain)) fun _ => ?_
      refine .step (.read reaches₃.holds _) ?_
      rintro passes m₄ reaches₄ ⟨-, rfl⟩
      refine .ite (fun _ => .lift (Prompt.failing reaches₃.holds plain)) fun _ => ?_
      refine .step (Prompt.stores.tell reaches₃.holds _) ?_
      rintro _ m₅ reaches₅ -
      have message : (Value.str error.message).Plain m₅ := trivial
      have sound := ofHandler.2.mono (reaches₃.trans reaches₅).leads
      exact .sub ⟨⟨ofHandler.1, sound⟩, .cons message.fits allFit_nil, namedFit_nil⟩
        fun _ _ _ known => known
  | _ =>
    simp only [plan]
    split
    · rename_i computes
      exact .lift (Prompt.stores.compute tidy (allPlain_iff.mp plain) computes)
    · exact trivial

end Task

/-- All tasks observe the discipline. -/
theorem promptness_kept : promptness.Kept := by
  intro task m tidy asks
  cases task with
  | eval e frame => exact Task.eval_observes tidy asks.1 asks.2.1 asks.2.2
  | evalForced e frame => exact Task.evalForced_observes asks.1 asks.2.1 asks.2.2
  | evalContinuation cc frame => exact Task.evalContinuation_observes asks.1 asks.2
  | operand policy e frame => exact Task.operand_observes policy asks.1 asks.2.1 asks.2.2
  | delayed e frame => exact Task.delayed_observes tidy asks.1 asks.2.1 asks.2.2
  | operands policy es frame => exact Task.operands_observes policy asks.1 asks.2.1 asks.2.2
  | keywords policy es frame => exact Task.keywords_observes policy asks.1 asks.2.1 asks.2.2
  | evalArms arms alt frame =>
    obtain ⟨ofArms, inArms, ofAlt, bears⟩ := asks
    exact Task.evalArms_observes ofArms inArms ofAlt bears
  | evalShort op es last frame =>
    obtain ⟨obeys, prompt, ofLast, bears⟩ := asks
    exact Task.evalShort_observes op obeys prompt ofLast bears
  | evalItems es last frame =>
    obtain ⟨obeys, prompt, ofLast, bears⟩ := asks
    exact Task.evalItems_observes obeys prompt ofLast bears
  | evalLoop test body frame =>
    obtain ⟨⟨ofTest, ofBody⟩, prompt, bears⟩ := asks
    exact Task.evalLoop_observes ofTest ofBody prompt bears
  | force value => exact Task.force_observes tidy asks
  | runThunk thunk => exact Task.runThunk_observes tidy asks
  | forceDeep value => exact Task.forceDeep_observes asks
  | forceAll values => exact Task.forceAll_observes asks
  | apply callable args kwargs =>
    obtain ⟨⟨obeys, sound⟩, fit, namedFit⟩ := asks
    exact Task.apply_observes tidy obeys sound fit namedFit
  | call callable args kwargs =>
    obtain ⟨⟨obeys, sound⟩, fit, namedFit⟩ := asks
    exact Task.call_observes obeys sound fit namedFit
  | trampoline variant first => exact Task.trampoline_observes asks.1 asks.2
  | runJumps variant current => exact Task.runJumps_observes asks.1 asks.2
  | takeStep variant ref => exact Task.takeStep_observes tidy asks ref
  | forceForStrict variant callee args kwargs =>
    exact Task.forceForStrict_observes asks.1 callee asks.2.1 asks.2.2
  | forceArgs args => exact Task.forceArgs_observes asks
  | forceKwargs kwargs => exact Task.forceKwargs_observes asks
  | forceKeys args => exact Task.forceKeys_observes asks
  | forceKwargKeys kwargs => exact Task.forceKwargKeys_observes asks
  | shownDeep values => exact Task.shownDeep_observes asks
  | applyNative op args => exact Task.applyNative_observes tidy op asks

/-! ## Programs -/

/-- Toplevel forms are strict bodies of their own. -/
theorem toplevels_observe {top : List Toplevel} {last : Value} {m : Machine}
    (obey : AllObey .dressed (top.map Toplevel.expr))
    (prompt : AllPrompt false (functionsOfAll (top.map Toplevel.expr))) (plain : last.Plain m) :
    (Plan.toplevels top last).Observes promptness m fun value m' => value.Plain m' := by
  induction top generalizing last m with
  | nil => exact plain
  | cons form rest ih =>
    simp only [List.map_cons, AllObey] at obey
    obtain ⟨obeys, others⟩ := obey
    obtain ⟨inForm, inRest⟩ := allPrompt_append.mp prompt
    have evaluates : (Plan.ask (.eval form.expr Frame.toplevel) fun ended =>
        .done ended.1).Observes promptness m fun value m' => value.Plain m' := by
      have nothing : m.Solid [] := fun _ member => absurd member List.not_mem_nil
      refine ⟨⟨obeys.strict, inForm, fun _ => nothing⟩, ?_⟩
      rintro ⟨value, frame⟩ m' reaches ⟨returns, settles, -⟩
      exact returns.plain (settles obeys)
    cases form with
    | define name bindee =>
      refine ⟨_, evaluates, ?_⟩
      rintro value m₁ m₂ reaches₁ ofValue reaches₂
      have ofValue := ofValue.mono reaches₂.leads
      refine .step (Prompt.stores.defineToplevel reaches₂.holds name ofValue) ?_
      rintro _ m₃ reaches₃ -
      exact ih others inRest (plain.mono ((reaches₁.trans reaches₂).trans reaches₃).leads)
    | exec e =>
      refine ⟨_, evaluates, ?_⟩
      rintro value m₁ m₂ reaches₁ ofValue reaches₂
      refine .ask (.inr (ofValue.mono reaches₂.leads).fits) ?_
      rintro forced m₃ reaches₃ ⟨returns, settles⟩
      exact ih others inRest (returns.plain (settles ofValue.not_jump))

/-- A new machine holds no promise. -/
theorem Machine.tidy_startLetting (errors : EvalError -> Bool) (closedOutput : Bool) :
    (startLetting errors closedOutput).Tidy where
  globals := by
    intro named member
    rcases List.mem_append.mp member with native | identity
    · obtain ⟨op, -, rfl⟩ := List.mem_map.mp native
      exact ⟨trivial, trivial⟩
    · obtain rfl := List.mem_singleton.mp identity
      exact ⟨trivial, trivial⟩
  cells _ member := absurd member (Array.not_mem_empty _)
  lists _ member := absurd member (Array.not_mem_empty _)
  promises _ member := absurd member (Array.not_mem_empty _)
  jumps _ member := absurd member (Array.not_mem_empty _)
  caches _ member := absurd member (Array.not_mem_empty _)

/-- What stands at the toplevel of a program that keeps promises where they may be. -/
structure Program.Prompt (program : Program) : Prop where
  obey : AllObey .dressed (program.top.map Toplevel.expr)
  prompt : AllPrompt false (functionsOfAll (program.top.map Toplevel.expr))

namespace Program.Prompt

variable {program : Program} (prompt : program.Prompt) {m : Machine} (tidy : m.Tidy)
include prompt tidy

/-- A run of a program that keeps promises where they may be ends with a plain value. -/
theorem run {outcome : Outcome Machine Value} (ends : program.EndsOn m outcome) :
    promptness.Admits m (fun value m' => value.Plain m') outcome := by
  obtain ⟨fuel, ran⟩ := ends
  rw [Program.run, ← Plan.run_toplevels] at ran
  have nothing : Value.nil.Plain m := trivial
  have observes := toplevels_observe prompt.obey prompt.prompt nothing
  exact observes.run tidy (promptness_kept.performs fuel) outcome ran

theorem runs {last : Machine} (runs : program.RunsFrom m last) : last.Tidy := by
  induction runs with
  | first => exact tidy
  | again _ ends ih => exact (prompt.run ih ends).reaches.holds

variable {n : Nat} {call : Call} {callers : List Call}

/-- Every call of a run can rely on promises being where they may be. -/
theorem stack (stack : Entry.Stack (.program program) n m (call :: callers)) :
    call.task.Expects call.machine ∧ call.machine.Tidy := by
  have nothing : Value.nil.Plain m := trivial
  have observes := toplevels_observe prompt.obey prompt.prompt nothing
  refine promptness_kept.stack (fun call made => ?_) stack
  obtain ⟨rfl, asks⟩ := made
  have asked := observes.asks tidy (promptness_kept.performs _) asks
  exact ⟨asked.1, asked.2.holds⟩

/-- Every call of a run ends as its task answers. -/
theorem ends (stack : Entry.Stack (.program program) n m (call :: callers))
    {outcome : Outcome Machine call.task.Answer} (ends : call.Ends outcome) :
    promptness.Admits call.machine call.task.Delivers outcome := by
  obtain ⟨asks, tidy⟩ := prompt.stack tidy stack
  exact promptness_kept.performs call.fuel call.task call.machine tidy asks outcome ends

end Program.Prompt

end Trampoline
