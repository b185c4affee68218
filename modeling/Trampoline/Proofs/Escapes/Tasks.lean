import Trampoline.Proofs.Escapes.Bodies
import Trampoline.Proofs.Jumps.Linearity

/-!
# Escapes stay where they are lent

Every task observes the discipline. The application of an escape point lends a new escape to the
function inside, and when it ends the point is left, and no one has kept the escape. So in runs of
programs no escape is called outside the extent of its point.
-/

namespace Trampoline

open Exec

namespace Task

open Plan

variable {m : Machine}

/-! ## Promises -/

variable {value : Value} {values args : List Value} {kwargs : Kwargs} {callable : Callable}

/-- A force gives back a value that holds no escape. -/
theorem force_lends (keeps : m.Keeps .free) (handed : value.Handed m) :
    (force value).plan.Observes lending m (force value).GivesBack := by
  cases value with
  | promise ref =>
    refine .step (.read keeps _) ?_
    rintro state m₁ reaches ⟨rfl, rfl⟩
    have stored := Lending.stores.promise keeps ref
    cases state : m₁.promise ref with
    | forced value =>
      rw [state] at stored
      have free : value.Free m₁ := stored
      exact ⟨.inl free, fun _ => free⟩
    | forcing => exact .lift (Lending.failing keeps trivial)
    | pending thunk =>
      rw [state] at stored
      have ofThunk : thunk.Free m₁ := stored
      refine ⟨fun value m => value.Free m, ?_, ?_, ?_⟩
      · have running : Promise.forcing.Free m₁ := trivial
        refine .step (Lending.stores.setPromise keeps ref running) ?_
        rintro _ m₂ reaches₂ -
        refine .step (Lending.stores.tell reaches₂.holds _) ?_
        rintro _ m₃ reaches₃ -
        refine .ask (ofThunk.mono (reaches₂.trans reaches₃).leads.toSameTags) ?_
        rintro value m₄ reaches₄ free
        refine .sub (.inl free) ?_
        rintro forced m₅ reaches₅ ⟨-, settles⟩
        exact settles (free.mono reaches₅.leads.toSameTags)
      · rintro value m₂ reaches₂ free
        have forced : (Promise.forced value).Free m₂ := free
        refine .step (Lending.stores.setPromise reaches₂.holds ref forced) ?_
        rintro _ m₃ reaches₃ -
        have free := free.mono reaches₃.leads.toSameTags
        exact ⟨.inl free, fun _ => free⟩
      · rintro error m₂ reaches₂ confined
        have again : (Promise.pending thunk).Free m₂ := ofThunk.mono reaches₂.leads.toSameTags
        refine .step (Lending.stores.setPromise reaches₂.holds ref again) ?_
        rintro _ m₃ reaches₃ -
        exact .lift (Lending.failing reaches₃.holds (confined.mono reaches₃.leads.toSameTags))
  | _ => exact ⟨handed, id⟩

/-- A value that is no escape is forced to what is none. -/
theorem forces {α : Type} {post : α -> Machine -> Prop} {next : Value -> Plan α}
    (free : value.Free m)
    (after : ∀ forced m', lending.Reaches m m' -> forced.Free m' ->
      (next forced).Observes lending m' post) :
    (sub (force value) >>= next).Observes lending m post := by
  refine .ask (.inl free) ?_
  rintro forced m' reaches ⟨-, settles⟩
  exact after forced m' reaches (settles (free.mono reaches.leads.toSameTags))

/-- A thunk gives back a value that holds no escape. -/
theorem runThunk_lends (keeps : m.Keeps .free) {thunk : Thunk} (ofThunk : thunk.Free m) :
    (runThunk thunk).plan.Observes lending m (runThunk thunk).GivesBack := by
  cases thunk with
  | expr e env =>
    obtain ⟨honours, confine⟩ := ofThunk
    have widens : Widens (m.Harmless env) (m.Harmless env) (fun _ => False)
        (m.Lends ⟨env, true, none⟩) := ⟨fun _ _ harmless => harmless, fun _ _ => False.elim⟩
    have lets : m.Lets ⟨env, true, none⟩ e := ⟨honours.mono widens, confine⟩
    exact evaluates lets fun _ _ _ _ free _ => free
  | global name =>
    refine .step (.read keeps _) ?_
    rintro found m₁ reaches ⟨rfl, rfl⟩
    cases found : m₁.global? name with
    | none => exact .lift (Lending.failing keeps trivial)
    | some value =>
      have keeps : m₁.Keeps .free := keeps
      have free : value.Free m₁ := keeps.global found
      cases value with
      | func callable =>
        exact .sub ⟨free, trivial, namedFree_nil⟩ fun _ _ _ known => known
      | _ => exact forces free fun _ _ _ free => free

/-- A deep force gives back a value that holds no escape. -/
theorem forceDeep_lends (free : value.Free m) :
    (forceDeep value).plan.Observes lending m (forceDeep value).GivesBack := by
  refine forces free ?_
  rintro forced m₁ reaches₁ free
  cases forced with
  | list ref =>
    refine .step (.read reaches₁.holds _) ?_
    rintro items m₂ reaches₂ ⟨rfl, rfl⟩
    have stored : AllFree m₂ (m₂.items ref).toList :=
      allFree_iff.mpr (Lending.stores.items reaches₂.holds ref)
    refine .ask stored ?_
    rintro items m₃ reaches₃ ofItems
    refine .step (Lending.stores.setItems reaches₃.holds ref (allFree_iff.mp ofItems)) ?_
    rintro _ m₄ reaches₄ -
    exact trivial
  | tuple items =>
    have ofItems : AllFree m₁ items := free
    refine .ask ofItems ?_
    rintro items m₂ reaches₂ ofItems
    exact ofItems
  | _ => exact free

/-- Deep forces one after another give back such values. -/
theorem forceAll_lends (free : AllFree m values) :
    (forceAll values).plan.Observes lending m (forceAll values).GivesBack := by
  cases values with
  | nil => exact trivial
  | cons value rest =>
    refine .ask free.1 ?_
    rintro forced m₁ reaches₁ ofForced
    refine .ask (free.2.mono reaches₁.leads.toSameTags) ?_
    rintro others m₂ reaches₂ ofOthers
    exact ⟨ofForced.mono reaches₂.leads.toSameTags, ofOthers⟩

/-- Forced arguments are free if the arguments were. -/
theorem forceArgs_lends (free : AllFree m values) :
    (forceArgs values).plan.Observes lending m (forceArgs values).GivesBack := by
  cases values with
  | nil => exact trivial
  | cons value rest =>
    refine forces free.1 ?_
    rintro forced m₁ reaches₁ ofForced
    refine .ask (free.2.mono reaches₁.leads.toSameTags) ?_
    rintro others m₂ reaches₂ ofOthers
    exact ⟨ofForced.mono reaches₂.leads.toSameTags, ofOthers⟩

/-- So are forced keyword arguments. -/
theorem forceKwargs_lends (free : NamedFree m kwargs) :
    (forceKwargs kwargs).plan.Observes lending m (forceKwargs kwargs).GivesBack := by
  cases kwargs with
  | nil => exact namedFree_nil
  | cons named rest =>
    obtain ⟨ofFirst, ofRest⟩ := List.forall_mem_cons.mp free
    refine forces ofFirst ?_
    rintro forced m₁ reaches₁ ofForced
    refine .ask (NamedFree.mono reaches₁.leads.toSameTags ofRest) ?_
    rintro others m₂ reaches₂ ofOthers
    exact .cons (ofForced.mono reaches₂.leads.toSameTags) ofOthers

/-- So is what a strict callee is given. -/
theorem forceForStrict_lends (variant : Variant) (callee : Callable)
    (free : AllFree m args) (named : NamedFree m kwargs) :
    (forceForStrict variant callee args kwargs).plan.Observes lending m
      (forceForStrict variant callee args kwargs).GivesBack := by
  refine .ite (fun _ => .ask free ?_) fun _ => ⟨free, named⟩
  rintro forced m₁ reaches₁ ofForced
  refine .ask (named.mono reaches₁.leads.toSameTags) ?_
  rintro others m₂ reaches₂ ofOthers
  exact ⟨ofForced.mono reaches₂.leads.toSameTags, ofOthers⟩

/-- Arguments that are forced for a key stay free. -/
theorem forceKeys_lends (free : AllFree m values) :
    (forceKeys values).plan.Observes lending m (forceKeys values).GivesBack := by
  cases values with
  | nil => exact trivial
  | cons value rest =>
    refine forces free.1 ?_
    rintro forced m₁ reaches₁ ofForced
    cases key : forced.memoKey? with
    | none => exact .lift (Lending.failing reaches₁.holds trivial)
    | some known =>
      refine .ask (free.2.mono reaches₁.leads.toSameTags) ?_
      rintro ⟨others, keys⟩ m₂ reaches₂ ofOthers
      exact ⟨ofForced.mono reaches₂.leads.toSameTags, ofOthers⟩

/-- So do keyword arguments. -/
theorem forceKwargKeys_lends (free : NamedFree m kwargs) :
    (forceKwargKeys kwargs).plan.Observes lending m (forceKwargKeys kwargs).GivesBack := by
  cases kwargs with
  | nil => exact namedFree_nil
  | cons named rest =>
    obtain ⟨ofFirst, ofRest⟩ := List.forall_mem_cons.mp free
    refine forces ofFirst ?_
    rintro forced m₁ reaches₁ ofForced
    cases key : forced.memoKey? with
    | none => exact .lift (Lending.failing reaches₁.holds trivial)
    | some known =>
      refine .ask (NamedFree.mono reaches₁.leads.toSameTags ofRest) ?_
      rintro ⟨others, keys⟩ m₂ reaches₂ ofOthers
      exact .cons (ofForced.mono reaches₂.leads.toSameTags) ofOthers

/-- Values are shown without any escape getting out. -/
theorem shownDeep_lends (free : AllFree m values) :
    (shownDeep values).plan.Observes lending m (shownDeep values).GivesBack := by
  cases values with
  | nil => exact trivial
  | cons value rest =>
    refine .ask free.1 ?_
    rintro forced m₁ reaches₁ -
    refine .step (.read reaches₁.holds _) ?_
    rintro shown m₂ reaches₂ -
    refine .ask (free.2.mono (reaches₁.trans reaches₂).leads.toSameTags) ?_
    rintro others m₃ reaches₃ -
    exact trivial

/-! ## Calls -/

/-- Nothing that the body mentions is an escape, but for one that it is lent. -/
theorem closure_lends (keeps : m.Keeps .free) (ref : Nat) {function : Function} {env : Env}
    (accepts : (Callable.closure ref function env).Accepts m args) (named : NamedFree m kwargs) :
    (apply (.closure ref function env) args kwargs).plan.Observes lending m
      (apply (.closure ref function env) args kwargs).GivesBack := by
  cases accepts with
  | free encloses ofArgs =>
    obtain ⟨honours, confine⟩ : m.Encloses function env := encloses
    -- parameters stand for no escapes
    let fine : String -> Option Nat -> Prop := fun _ found => found = none
    have harmless : ∀ name, fine name none := fun _ => rfl
    have bounds : Lending.BoundFine fine m (bindPositional function.signature.params args) :=
      Lending.bindPositional_fine harmless ofArgs
    refine .step (Lending.parameterScope harmless keeps _ env bounds named) ?_
    rintro scope m₁ reaches₁ scopes
    have lets : m₁.Lets ⟨scope, function.signature.isLazy, none⟩ function.body := by
      refine ⟨honours.mono ⟨fun name _ harmless ref known => ?_, fun _ _ => False.elim⟩, confine⟩
      rcases scopes name ref known with old | new
      · exact harmless.mono reaches₁.leads.toSameTags ref old
      · exact new
    exact evaluates lets fun _ _ _ _ free _ => free
  | @lent _ tag rest takes running ofRest =>
    obtain ⟨⟨strict, param, params, first, calls⟩, honours, confine⟩ :
      function.TakesEscape ∧ m.Encloses function env := takes
    -- the first parameter may stand for the escape
    let fine : String -> Option Nat -> Prop := fun name found =>
      found = none ∨ name = param ∧ found = some tag
    have bounds : Lending.BoundFine fine m (bindPositional function.signature.params
        (.func (.escape tag) :: rest)) := by
      rw [first]
      refine List.forall_mem_cons.mpr ⟨?_, Lending.bindPositional_fine (fun _ => .inl rfl) ofRest⟩
      rintro _ ⟨⟩
      exact ⟨.inr ⟨rfl, rfl⟩, nofun⟩
    refine .step (Lending.parameterScope (fun _ => .inl rfl) keeps _ env bounds named) ?_
    rintro scope m₁ reaches₁ scopes
    have relends : Relends (m.Harmless env) (· ≠ param) (m₁.Harmless scope) (· = param)
        (m₁.Lends ⟨scope, function.signature.isLazy, none⟩) := by
      refine ⟨fun name harmless other ref known => ?_, ?_⟩
      · rcases scopes name ref known with old | ⟨inside, untagged | ⟨same, -⟩⟩
        · exact harmless.mono reaches₁.leads.toSameTags ref old
        · exact ⟨inside, untagged⟩
        · exact absurd same other
      · rintro name harmless -
        refine ⟨strict, fun ref known => ?_⟩
        rcases scopes name ref known with old | ⟨inside, untagged | ⟨-, tagged⟩⟩
        · obtain ⟨inside, untagged⟩ := harmless.mono reaches₁.leads.toSameTags ref old
          exact ⟨inside, fun _ tagged => by cases untagged.symm.trans tagged⟩
        · exact ⟨inside, fun _ tagged => by cases untagged.symm.trans tagged⟩
        · refine ⟨inside, fun found same => ?_⟩
          obtain rfl := Option.some.inj (tagged.symm.trans same)
          exact (reaches₁.leads.points tag).trans running
    have lets : m₁.Lets ⟨scope, function.signature.isLazy, none⟩ function.body :=
      ⟨calls.relent relends honours, confine⟩
    exact evaluates lets fun _ _ _ _ free _ => free

/-- All applications but those of escape points. -/
theorem apply_lends (keeps : m.Keeps .free) (noPoint : ∀ inner, callable ≠ .escapePoint inner)
    (accepts : callable.Accepts m args) (named : NamedFree m kwargs) :
    (apply callable args kwargs).plan.Observes lending m
      (apply callable args kwargs).GivesBack := by
  cases callable with
  | closure ref function env => exact closure_lends keeps ref accepts named
  | escapePoint inner => exact absurd rfl (noPoint inner)
  | continuation =>
    cases accepts with
    | free free => exact free.elim
    | lent takes => exact takes.elim
  | escape tag =>
    cases accepts with
    | free free => exact free.elim
    | lent takes => exact takes.elim
    | escape running ofArgs =>
      refine .step (.read keeps _) ?_
      rintro runs m₁ reaches₁ ⟨answers, rfl⟩
      have answers : runs = true := answers.trans running
      refine .ite (fun stopped => ?_) fun _ => ?_
      · rw [answers] at stopped
        cases stopped
      · refine .step (Lending.stores.noKwargs keeps _ kwargs) ?_
        rintro _ m₂ reaches₂ rfl
        have packed : (Value.pack args).Free m₂ :=
          Lending.stores.pack (allFree_iff.mp ofArgs)
        exact .lift (Lending.failing keeps packed)
  | contEnabled inner =>
    have later : ∀ {m'}, m.Upholds m' -> inner.Accepts m' args := by
      intro m' upholds
      have same := upholds.toSameTags
      cases accepts with
      | free free ofArgs => exact .free (Callable.Free.mono same free) (ofArgs.mono same)
      | lent takes running ofRest =>
        exact .lent (Callable.TakesEscape.mono same takes) ((upholds.points _).trans running)
          (ofRest.mono same)
    refine .ite (fun _ => .sub ⟨later (.refl m), named⟩ fun _ _ _ known => known) fun _ => ?_
    refine .step (Lending.stores.newIdentity keeps) ?_
    rintro _ m₁ reaches₁ ⟨ref, rfl⟩
    have identity : (Value.func (.identity ref)).Free m₁ := trivial
    have named : NamedFree m₁ (kwargs ++ [(continuationParam, .func (.identity ref))]) :=
      List.forall_mem_append.mpr
        ⟨named.mono reaches₁.leads.toSameTags, List.forall_mem_singleton.mpr identity⟩
    exact .sub ⟨later reaches₁.leads, named⟩ fun _ _ _ known => known
  | native op =>
    obtain ⟨free, ofArgs⟩ | _ | takes := accepts
    · refine .step (Lending.stores.noKwargs keeps _ kwargs) ?_
      rintro _ m₁ reaches₁ rfl
      have applies : (sub (applyNative op args)).Observes lending m₁
          (apply (.native op) args kwargs).GivesBack := .sub ofArgs fun _ _ _ known => known
      cases op.arity with
      | none => exact applies
      | some expected =>
        exact .ite (fun _ => applies) fun _ => .lift (Lending.failing keeps trivial)
    · exact takes.elim
  | trampolined inner variant =>
    obtain ⟨free, ofArgs⟩ | _ | takes := accepts
    · refine .ask ⟨.free free ofArgs, named⟩ ?_
      rintro first m₁ reaches₁ free
      exact .sub free fun _ _ _ known => known
    · exact takes.elim
  | memoized inner cache =>
    obtain ⟨free, ofArgs⟩ | _ | takes := accepts
    · have free : inner.Free m := free
      refine .ask ofArgs ?_
      rintro ⟨args, argKeys⟩ m₁ reaches₁ ofArgs
      refine .ask (named.mono reaches₁.leads.toSameTags) ?_
      rintro ⟨kwargs, kwargKeys⟩ m₂ reaches₂ named
      refine .step (Lending.stores.cached reaches₂.holds cache _) ?_
      rintro hit m₃ reaches₃ ofHit
      cases hit with
      | some value => exact ofHit value rfl
      | none =>
        have lastly := reaches₂.trans reaches₃
        refine .ask ⟨free.mono (reaches₁.trans lastly).leads.toSameTags,
          ofArgs.mono lastly.leads.toSameTags, named.mono reaches₃.leads.toSameTags⟩ ?_
        rintro value m₄ reaches₄ free
        refine .step (Lending.stores.remember reaches₄.holds cache _ free) ?_
        rintro _ m₅ reaches₅ -
        exact free.mono reaches₅.leads.toSameTags
    · exact takes.elim
  | looped inner =>
    obtain ⟨free, ofArgs⟩ | _ | takes := accepts
    · refine .step (Lending.stores.newHandle keeps) ?_
      rintro ref m₁ reaches₁ -
      have same := reaches₁.leads.toSameTags
      have free : inner.Free m₁ := Callable.Free.mono same free
      have ofArgs : AllFree m₁ (.func (.loopHandle ref inner) :: args) := ⟨free, ofArgs.mono same⟩
      refine .ask ⟨.free free ofArgs, named.mono same⟩ ?_
      rintro first m₂ reaches₂ free
      exact .sub free fun _ _ _ known => known
    · exact takes.elim
  | loopHandle ref inner =>
    obtain ⟨free, ofArgs⟩ | _ | takes := accepts
    · have free : inner.Free m := free
      have jumps : Jump.Free m ⟨inner, .func (.loopHandle ref inner) :: args, kwargs, none⟩ :=
        { target := free, args := ⟨free, ofArgs⟩, kwargs := named, cc := nofun }
      refine .lift ((Lending.stores.newJump keeps jumps).imp ?_)
      rintro _ m₁ reaches₁ ⟨ref, rfl⟩
      exact trivial
    · exact takes.elim
  | lazyFn inner =>
    obtain ⟨free, ofArgs⟩ | _ | takes := accepts
    · exact .sub ⟨.free free ofArgs, named⟩ fun _ _ _ known => known
    · exact takes.elim
  | identity ref =>
    obtain ⟨free, ofArgs⟩ | _ | takes := accepts
    · refine .step (Lending.stores.noKwargs keeps _ kwargs) ?_
      rintro _ m₁ reaches₁ rfl
      exact Lending.stores.pack (allFree_iff.mp ofArgs)
    · exact takes.elim

/-- The new escape is lent to the function inside, and nobody has it when the point is left. -/
theorem escapePoint_lends {n : Nat} (performs : lending.Performs (Task.run n))
    (keeps : m.Keeps .free) {inner : Callable}
    (accepts : (Callable.escapePoint inner).Accepts m args) (named : NamedFree m kwargs) :
    Exec.Observes lending m ((apply (.escapePoint inner) args kwargs).run (n + 1))
      (apply (.escapePoint inner) args kwargs).GivesBack := by
  intro outcome ends
  have leads := Task.leads _ _ m outcome.1 outcome.2 ends
  rw [run, apply_escapePoint, Option.map_eq_some_iff] at ends
  obtain ⟨⟨result, last⟩, ran, rfl⟩ := ends
  have entering : m.SameTags m.entering := .of_eq rfl
  have nothing : Machine.Adds .free m m.entering := .of_same rfl rfl rfl rfl rfl rfl
  have keepsInside : m.entering.Keeps .free := nothing.keeps entering.lasts keeps
  have accepted : inner.Accepts m.entering (.func (.escape m.points.size) :: args) := by
    cases accepts with
    | free takes ofArgs =>
      refine .lent (Callable.TakesEscape.mono entering takes) ?_ (ofArgs.mono entering)
      simp [Machine.entering_running]
    | lent takes => exact takes.elim
  have admits := performs (.apply inner (.func (.escape m.points.size) :: args) kwargs) m.entering
    keepsInside ⟨accepted, named.mono entering⟩ _ ran
  have leaves : ∀ {left : Machine}, left.globals = last.globals -> left.cells = last.cells ->
      left.lists = last.lists -> left.promises = last.promises -> left.jumps = last.jumps ->
      left.caches = last.caches -> last.SameTags left ∧ left.Keeps .free := by
    intro left globals cells lists promises jumps caches
    have same : last.SameTags left := .of_eq cells
    have nothing : Machine.Adds .free last left :=
      .of_same globals cells lists promises jumps caches
    exact ⟨same, nothing.keeps same.lasts admits.reaches.holds⟩
  have reached : ∀ {left : Machine}, last.SameTags left ∧ left.Keeps .free -> m.SamePoints left ->
      lending.Reaches m left := fun left points =>
    ⟨⟨(entering.trans admits.reaches.leads.toSameTags).trans left.1, points⟩, left.2⟩
  have left : last.SameTags (Run.leavePoint m.points.size last) ∧
      (Run.leavePoint m.points.size last).Keeps .free := leaves rfl rfl rfl rfl rfl rfl
  rcases result with error | value
  · have confined : error.Confined last := admits.ends
    cases error with
    | escape target value =>
      simp only [leavingPoint] at leads ⊢
      split at leads <;> rename_i arrives
      · rw [if_pos arrives]
        let told : Machine :=
          { Run.leavePoint m.points.size last with trace := .escaped m.points.size :: last.trace }
        have left : last.SameTags told ∧ told.Keeps .free := leaves rfl rfl rfl rfl rfl rfl
        exact ⟨reached left leads.points, Value.Free.mono left.1 confined⟩
      · rw [if_neg arrives]
        exact ⟨reached left leads.points, Value.Free.mono left.1 confined⟩
    | _ => exact ⟨reached left leads.points, confined.mono left.1⟩
  · have free : value.Free last := admits.ends
    exact ⟨reached left leads.points, free.mono left.1⟩

/-- A free callable called with free arguments gives back a free value. -/
theorem call_lends (free : callable.Free m) (ofArgs : AllFree m args) (named : NamedFree m kwargs) :
    (call callable args kwargs).plan.Observes lending m (call callable args kwargs).GivesBack := by
  refine .ask ⟨.free free ofArgs, named⟩ ?_
  rintro value m' reaches free
  cases value with
  | jump ref => exact .sub trivial fun _ _ _ known => known
  | _ => exact free

/-- A trampoline gives back a free value if it begins with one. -/
theorem trampoline_lends (variant : Variant) {first : Value} (free : first.Free m) :
    (trampoline variant first).plan.Observes lending m (trampoline variant first).GivesBack := by
  refine ⟨_, .sub free fun _ _ _ known => known, ?_⟩
  rintro value last m' - free leaves
  exact free.mono leaves.leads.toSameTags

/-- Jumps are run from free values to free ones. -/
theorem runJumps_lends (variant : Variant) {current : Value} (free : current.Free m) :
    (runJumps variant current).plan.Observes lending m (runJumps variant current).GivesBack := by
  cases current with
  | jump ref =>
    refine .ask trivial ?_
    rintro next m' reaches free
    exact .sub free fun _ _ _ known => known
  | _ => exact free

/-- The step that a jump takes gives back a free value. -/
theorem takeStep_lends (keeps : m.Keeps .free) (variant : Variant) (ref : Nat) :
    (takeStep variant ref).plan.Observes lending m (takeStep variant ref).GivesBack := by
  refine .step (Lending.stores.takeJump keeps ref) ?_
  rintro jump m₁ reaches₁ ofJump
  have ofJump : jump.Free m₁ := ofJump
  refine .ask ⟨ofJump.args, ofJump.kwargs⟩ ?_
  rintro ⟨args, kwargs⟩ m₂ reaches₂ ⟨ofArgs, named⟩
  refine .step (Lending.stores.tell reaches₂.holds _) ?_
  rintro _ m₃ reaches₃ -
  have ofJump := ofJump.mono (reaches₂.trans reaches₃).leads.toSameTags
  have ofArgs := ofArgs.mono reaches₃.leads.toSameTags
  have named := named.mono reaches₃.leads.toSameTags
  have under := ofJump.target.underTrampoline
  have applies : ∀ kwargs, NamedFree m₃ kwargs ->
      (sub (apply jump.target.underTrampoline args kwargs)).Observes lending m₃
        (takeStep variant ref).GivesBack := fun kwargs named =>
    .sub ⟨.free under ofArgs, named⟩ fun _ _ _ known => known
  cases continuation : jump.cc with
  | none => exact applies kwargs named
  | some cc =>
    have ofCc := ofJump.cc cc continuation
    refine .ite (fun _ => applies _ (named.replaceCc ofCc)) fun _ => ?_
    refine .ite (fun _ => applies _ named) fun _ => ?_
    refine .ask ⟨ofJump.target, ofArgs, named⟩ ?_
    rintro result m₄ reaches₄ free
    refine .step (Lending.callable reaches₄.holds (ofCc.mono reaches₄.leads.toSameTags)) ?_
    rintro next m₅ reaches₅ ofNext
    have handsOn : Jump.Free m₅ ⟨next, [result], [], none⟩ :=
      { target := ofNext
        args := ⟨free.mono reaches₅.leads.toSameTags, trivial⟩
        kwargs := namedFree_nil
        cc := nofun }
    refine .step (Lending.stores.newJump reaches₅.holds handsOn) ?_
    rintro _ m₆ reaches₆ ⟨ref, rfl⟩
    exact trivial

/-- A native applied to free arguments gives back a free value. -/
theorem applyNative_lends (keeps : m.Keeps .free) (op : Native) (free : AllFree m args) :
    (applyNative op args).plan.Observes lending m (applyNative op args).GivesBack := by
  have both : (Native.two args).1.Free m ∧ (Native.two args).2.Free m :=
    Lending.stores.two (allFree_iff.mp free)
  have one : (Native.one args).Free m := Lending.stores.one (allFree_iff.mp free)
  cases op with
  | print =>
    refine .ask free ?_
    rintro parts m₁ reaches₁ -
    refine .step (Lending.stores.write reaches₁.holds _) ?_
    rintro _ m₂ reaches₂ -
    exact trivial
  | str =>
    refine .ask free ?_
    rintro parts m₁ reaches₁ -
    exact trivial
  | raise =>
    refine .ask free ?_
    rintro parts m₁ reaches₁ -
    exact .lift (Lending.failing reaches₁.holds trivial)
  | assertEq =>
    refine .ask both.1 ?_
    rintro left m₁ reaches₁ -
    refine .ask (both.2.mono reaches₁.leads.toSameTags) ?_
    rintro right m₂ reaches₂ -
    refine .step (.read reaches₂.holds _) ?_
    rintro equal m₃ reaches₃ -
    refine .ite (fun _ => trivial) fun _ => .step (.read reaches₃.holds _) ?_
    rintro shown m₄ reaches₄ -
    exact .lift (Lending.failing reaches₄.holds trivial)
  | force => exact forces one fun _ _ _ free => free
  | forceDeep => exact .sub one fun _ _ _ known => known
  | attempt =>
    refine .step (Lending.callable keeps both.1) ?_
    rintro thunk m₁ reaches₁ ofThunk
    refine .step (Lending.callable reaches₁.holds (both.2.mono reaches₁.leads.toSameTags)) ?_
    rintro handler m₂ reaches₂ ofHandler
    have ofThunk := ofThunk.mono reaches₂.leads.toSameTags
    have calls : (sub (call thunk [] [])).Observes lending m₂ (call thunk [] []).GivesBack :=
      .sub ⟨ofThunk, trivial, namedFree_nil⟩ fun _ _ _ known => known
    refine ⟨fun value m => value.Free m, ⟨_, calls, ?_⟩, fun _ _ _ free => free, ?_⟩
    · rintro value last m' - free leaves
      exact free.mono leaves.leads.toSameTags
    · rintro error m₃ reaches₃ confined
      refine .ite (fun _ => .lift (Lending.failing reaches₃.holds confined)) fun _ => ?_
      refine .step (.read reaches₃.holds _) ?_
      rintro passes m₄ reaches₄ ⟨-, rfl⟩
      refine .ite (fun _ => .lift (Lending.failing reaches₃.holds confined)) fun _ => ?_
      refine .step (Lending.stores.tell reaches₃.holds _) ?_
      rintro _ m₅ reaches₅ -
      have ofHandler := ofHandler.mono (reaches₃.trans reaches₅).leads.toSameTags
      exact .sub ⟨ofHandler, ⟨trivial, trivial⟩, namedFree_nil⟩ fun _ _ _ known => known
  | _ =>
    simp only [plan]
    split
    · rename_i computes
      exact .lift (Lending.stores.compute keeps (allFree_iff.mp free) computes)
    · exact trivial

/-- The plans of all tasks but the applications of escape points observe the discipline. -/
theorem lends (task : Task) (keeps : m.Keeps .free) (borrows : task.Borrows m)
    (noPoint : ∀ inner args kwargs, task ≠ apply (.escapePoint inner) args kwargs) :
    task.plan.Observes lending m task.GivesBack := by
  cases task with
  | eval e frame => exact eval_lends keeps borrows
  | evalForced e frame => exact evalForced_lends borrows
  | evalContinuation cc frame => exact evalContinuation_lends borrows
  | operand policy e frame => exact operand_lends policy borrows
  | delayed e frame => exact delayed_lends keeps borrows.1 borrows.2
  | operands policy es frame => exact operands_lends policy borrows
  | keywords policy es frame => exact keywords_lends policy borrows
  | evalArms arms alt frame => exact evalArms_lends borrows.1 borrows.2
  | evalShort op es last frame => exact evalShort_lends op borrows.1 borrows.2
  | evalItems es last frame => exact evalItems_lends borrows.1 borrows.2
  | evalLoop test body frame => exact evalLoop_lends borrows.1 borrows.2
  | force value => exact force_lends keeps borrows
  | runThunk thunk => exact runThunk_lends keeps borrows
  | forceDeep value => exact forceDeep_lends borrows
  | forceAll values => exact forceAll_lends borrows
  | apply callable args kwargs =>
    refine apply_lends keeps ?_ borrows.1 borrows.2
    rintro inner rfl
    exact noPoint inner args kwargs rfl
  | call callable args kwargs => exact call_lends borrows.1 borrows.2.1 borrows.2.2
  | trampoline variant first => exact trampoline_lends variant borrows
  | runJumps variant current => exact runJumps_lends variant borrows
  | takeStep variant ref => exact takeStep_lends keeps variant ref
  | forceForStrict variant callee args kwargs =>
    exact forceForStrict_lends variant callee borrows.1 borrows.2
  | forceArgs args => exact forceArgs_lends borrows
  | forceKwargs kwargs => exact forceKwargs_lends borrows
  | forceKeys args => exact forceKeys_lends borrows
  | forceKwargKeys kwargs => exact forceKwargKeys_lends borrows
  | shownDeep values => exact shownDeep_lends borrows
  | applyNative op args => exact applyNative_lends keeps op borrows

end Task

/-- All tasks observe the discipline. -/
theorem lending_performs (n : Nat) : lending.Performs (Task.run n) := by
  refine Discipline.performs_of_step (fun n performs task m keeps borrows => ?_) n
  by_cases point : ∃ inner args kwargs, task = .apply (.escapePoint inner) args kwargs
  · obtain ⟨inner, args, kwargs, rfl⟩ := point
    exact Task.escapePoint_lends performs keeps borrows.1 borrows.2
  · rw [Task.run_succ]
    refine (task.lends keeps borrows ?_).run keeps performs
    exact fun inner args kwargs same => point ⟨inner, args, kwargs, same⟩

/-! ## Programs -/

/-- Toplevel forms are strict bodies of their own, in whose scope there is nothing. -/
theorem toplevels_lend {top : List Toplevel} {last : Value} {m : Machine}
    (confine : AllConfine (functionsOfAll (top.map Toplevel.expr))) (free : last.Free m) :
    (Plan.toplevels top last).Observes lending m fun value m' => value.Free m' := by
  induction top generalizing last m with
  | nil => exact free
  | cons form rest ih =>
    obtain ⟨inForm, inRest⟩ := allConfine_append.mp confine
    have evaluates : (Plan.ask (.eval form.expr Frame.toplevel) fun ended =>
        .done ended.1).Observes lending m fun value m' => value.Free m' := by
      have lets : m.Lets Frame.toplevel form.expr :=
        ⟨form.expr.honours_of_free fun name => Machine.harmless_nil name, inForm⟩
      exact Task.evaluates lets fun _ _ _ _ free _ => free
    cases form with
    | define name bindee =>
      refine ⟨_, evaluates, ?_⟩
      rintro value m₁ m₂ reaches₁ ofValue reaches₂
      have ofValue := ofValue.mono reaches₂.leads.toSameTags
      refine .step (Lending.stores.defineToplevel reaches₂.holds name ofValue) ?_
      rintro _ m₃ reaches₃ -
      have reaches := (reaches₁.trans reaches₂).trans reaches₃
      exact ih inRest (free.mono reaches.leads.toSameTags)
    | exec e =>
      refine ⟨_, evaluates, ?_⟩
      rintro value m₁ m₂ reaches₁ ofValue reaches₂
      refine Task.forces (ofValue.mono reaches₂.leads.toSameTags) ?_
      rintro forced m₃ reaches₃ free
      exact ih inRest free

/-- A new machine holds no escapes, whatever errors its handlers let pass. -/
theorem Machine.keeps_free_startLetting (errors : EvalError -> Bool) (closedOutput : Bool) :
    (startLetting errors closedOutput).Keeps .free where
  globals := by
    intro named member
    rcases List.mem_append.mp member with native | identity
    · obtain ⟨op, -, rfl⟩ := List.mem_map.mp native
      exact trivial
    · obtain rfl := List.mem_singleton.mp identity
      exact trivial
  cells _ member := absurd member (Array.not_mem_empty _)
  lists _ member := absurd member (Array.not_mem_empty _)
  promises _ member := absurd member (Array.not_mem_empty _)
  jumps _ member := absurd member (Array.not_mem_empty _)
  caches _ member := absurd member (Array.not_mem_empty _)

namespace Program

variable {program : Program} (confine : AllConfine program.functions) {m : Machine}
variable (keeps : m.Keeps .free)
include confine keeps

/-- A run of the program gives back a free value, or raises a confined error. -/
theorem run_lends {outcome : Outcome Machine Value} (ends : program.EndsOn m outcome) :
    lending.Admits m (fun value m' => value.Free m') outcome := by
  obtain ⟨fuel, ran⟩ := ends
  rw [Program.run, ← Plan.run_toplevels] at ran
  have nothing : Value.nil.Free m := trivial
  have inside : AllConfine (functionsOfAll (program.top.map Toplevel.expr)) :=
    fun function member => confine function (Program.mem_functions_iff.mpr member)
  exact (toplevels_lend inside nothing).run keeps (lending_performs fuel) outcome ran

/-- No run leaves an escape behind. -/
theorem runs_keep_free {last : Machine} (runs : program.RunsFrom m last) : last.Keeps .free := by
  induction runs with
  | first => exact keeps
  | again _ ends ih => exact (run_lends confine ih ends).reaches.holds

end Program

end Trampoline
