import Trampoline.Proofs.Loops.Basic
import Trampoline.Proofs.Rewriting.Closure
import Trampoline.Proofs.Escapes.Returns
import Trampoline.Proofs.Rewriting.Nesting
import Trampoline.Proofs.Rewriting.Origins

/-!
# Loops and the transformation

It does not matter whether a program is transformed before its loop becomes a recursive function or
after. The loop stays a loop, and its only wrapper is the one that was written.
-/

namespace Trampoline

open Transform

variable {name handle : String} {escapes : List String} {table : DecoratorTable}
  {step : Function -> Transform Function}

/-! ## Bodies -/

/-- Replacing a callee commutes with a step on functions. -/
theorem Expr.unloopCallee_mapFunctions (e : Expr) :
    (e.unloopCallee handle name).mapFunctions step =
      Expr.unloopCallee handle name <$> e.mapFunctions step := by
  cases e with
  | jump _ _ _ _ cc => cases cc <;> simp [unloopCallee, mapFunctions]
  | cond _ _ alt => cases alt <;> simp [unloopCallee, mapFunctions]
  | _ => simp [unloopCallee, mapFunctions]

mutual

/-- A step on every function is the same before and after returned calls of the handle become calls
of the function. -/
theorem Expr.unloop_mapFunctions : ∀ e : Expr, (e.unloop handle name).mapFunctions step =
    Expr.unloop handle name <$> e.mapFunctions step
  | .seq _ items => by
    simp [Expr.unloop, Expr.mapFunctions, unloopLast_mapFunctions items]
  | .short _ _ operands => by
    simp [Expr.unloop, Expr.mapFunctions, unloopLast_mapFunctions operands]
  | .cond _ arms none => by
    simp [Expr.unloop, Expr.mapFunctions, unloopArms_mapFunctions arms]
  | .cond _ arms (some alt) => by
    simp [Expr.unloop, Expr.mapFunctions, unloopArms_mapFunctions arms, alt.unloop_mapFunctions]
  | .call _ func _ _ => by
    simp [Expr.unloop, Expr.mapFunctions, func.unloopCallee_mapFunctions]
  | .jump _ _ _ _ none | .jump _ _ _ _ (some _) => by
    simp [Expr.unloop, Expr.mapFunctions]
  | .lit .. | .var .. | .fn .. | .bind .. | .assign .. | .loop .. | .capture .. => by
    simp [Expr.unloop, Expr.mapFunctions]

theorem unloopLast_mapFunctions : ∀ es : List Expr,
    mapFunctionsOfAll step (unloopLast handle name es) =
      unloopLast handle name <$> mapFunctionsOfAll step es
  | [] => by simp [unloopLast, mapFunctionsOfAll]
  | [e] => by simp [unloopLast, mapFunctionsOfAll, e.unloop_mapFunctions]
  | e :: next :: rest => by
    have others := unloopLast_mapFunctions (next :: rest)
    have cut : unloopLast handle name (e :: next :: rest) =
        e :: unloopLast handle name (next :: rest) := rfl
    rw [cut, mapFunctionsOfAll, others]
    simp [unloopLast, mapFunctionsOfAll]

theorem unloopArms_mapFunctions : ∀ arms : List (Expr × Expr),
    mapFunctionsOfArms step (unloopArms handle name arms) =
      unloopArms handle name <$> mapFunctionsOfArms step arms
  | [] => by simp [unloopArms, mapFunctionsOfArms]
  | (test, body) :: rest => by
    simp [unloopArms, mapFunctionsOfArms, body.unloop_mapFunctions, unloopArms_mapFunctions rest]

end

theorem Expr.unloopCallee_hasCapture (e : Expr) :
    (e.unloopCallee handle name).hasCapture = e.hasCapture := by
  cases e <;> rfl

mutual

/-- Replacing loops adds no capture and removes none. -/
theorem Expr.unloop_hasCapture : ∀ e : Expr, (e.unloop handle name).hasCapture = e.hasCapture
  | .seq _ items => by simp [Expr.unloop, Expr.hasCapture, unloopLast_anyCapture items]
  | .short _ _ operands => by simp [Expr.unloop, Expr.hasCapture, unloopLast_anyCapture operands]
  | .cond _ arms none => by simp [Expr.unloop, Expr.hasCapture, unloopArms_anyCapture arms]
  | .cond _ arms (some alt) => by
    simp [Expr.unloop, Expr.hasCapture, unloopArms_anyCapture arms, alt.unloop_hasCapture]
  | .call _ func _ _ => by simp [Expr.unloop, Expr.hasCapture, func.unloopCallee_hasCapture]
  | .lit .. | .var .. | .fn .. | .bind .. | .assign .. | .loop .. | .jump .. | .capture .. => rfl

theorem unloopLast_anyCapture :
    ∀ es : List Expr, anyCapture (unloopLast handle name es) = anyCapture es
  | [] => rfl
  | [e] => by simp [unloopLast, anyCapture, e.unloop_hasCapture]
  | e :: next :: rest => congrArg (e.hasCapture || ·) (unloopLast_anyCapture (next :: rest))

theorem unloopArms_anyCapture : ∀ arms : List (Expr × Expr),
    anyCaptureInArms (unloopArms handle name arms) = anyCaptureInArms arms
  | [] => rfl
  | (test, body) :: rest => by
    simp [unloopArms, anyCaptureInArms, body.unloop_hasCapture, unloopArms_anyCapture rest]

end

/-! ## Functions -/

/-- A function of the source that stands outside all blocks. -/
structure Signature.Outside (signature : Signature) : Prop where
  plain : signature.kind = .plain
  outside : signature.regions = .none

/-- Apply a step to every function inside a function. -/
def Function.mapInner (step : Function -> Transform Function) (function : Function) :
    Transform Function := do
  let body ← function.body.mapFunctions step
  pure ⟨function.signature, body⟩

variable {function : Function} {e e' bindee : Expr} {top top' : List Toplevel} {program : Program}
  {transformed : Transformed} {becomes : Function -> Function -> Prop} {wrappers : List Decorator}

theorem Function.mapInner_signature {inner : Function}
    (makes : Makes (function.mapInner step) inner) : inner.signature = function.signature := by
  obtain ⟨_, -, _, _, ⟨⟩⟩ := makes.bind
  rfl

/-- Replacing the loop of a function commutes with a step on the functions inside it. -/
theorem Function.unloop_mapInner (function : Function) :
    (function.unloop name).mapInner step = Function.unloop name <$> function.mapInner step := by
  obtain ⟨signature, body⟩ := function
  cases params : signature.params with
  | nil => simp [unloop, mapInner, params]
  | cons handle rest => simp [unloop, mapInner, params, body.unloop_mapFunctions]

/-- Outside all blocks it does not matter when a body is changed. -/
theorem functionBody_unloop (outside : function.signature.Outside) :
    functionBody escapes (function.unloop name) =
      Function.unloop name <$> functionBody escapes function := by
  obtain ⟨signature, body⟩ := function
  have regions : signature.regions = .none := outside.outside
  cases params : signature.params with
  | nil => simp [Function.unloop, functionBody, params, regions, Regions.none]
  | cons handle rest =>
    simp [Function.unloop, functionBody, params, regions, Regions.none, forbidCapture,
      body.unloop_hasCapture, Signature.owner]

/-! ## Wrappers -/

/-- Which wrappers a function gets does not depend on what was done before. -/
theorem functionWrappers_uniform (function : Function) :
    Uniform (functionWrappers table function) := by
  unfold functionWrappers
  cases resolveWrappers table function.signature with
  | error error => exact fun _ ⟨_, _, ends⟩ => nomatch ends
  | ok wrappers =>
    have recorded (event : TransformEvent) : Uniform (record event) := fun _ _ =>
      (record_produces event).imp fun _ _ => rfl
    cases wrappers with
    | nil => exact .pure _
    | cons first rest => exact .bind (recorded _) fun _ => .pure _

mutual

/-- A step that is uniform on functions is uniform on an expression. -/
theorem Expr.mapFunctions_uniform (uniform : ∀ function, Uniform (step function)) :
    ∀ e : Expr, Uniform (e.mapFunctions step)
  | .lit .. | .var .. => .pure _
  | .fn _ _ body => .bind (body.mapFunctions_uniform uniform) fun _ => .bind (uniform _) fun _ =>
    .pure _
  | .call _ func args kwargs =>
    .bind (func.mapFunctions_uniform uniform) fun _ =>
      .bind (mapFunctionsOfAll_uniform uniform args) fun _ =>
        .bind (mapFunctionsOfKwargs_uniform uniform kwargs) fun _ => .pure _
  | .cond _ arms none => .bind (mapFunctionsOfArms_uniform uniform arms) fun _ => .pure _
  | .cond _ arms (some alt) =>
    .bind (mapFunctionsOfArms_uniform uniform arms) fun _ =>
      .bind (alt.mapFunctions_uniform uniform) fun _ => .pure _
  | .short _ _ es | .seq _ es => .bind (mapFunctionsOfAll_uniform uniform es) fun _ => .pure _
  | .bind _ _ e | .assign _ _ e | .capture _ _ e =>
    .bind (e.mapFunctions_uniform uniform) fun _ => .pure _
  | .loop _ test body =>
    .bind (test.mapFunctions_uniform uniform) fun _ =>
      .bind (body.mapFunctions_uniform uniform) fun _ => .pure _
  | .jump _ func args kwargs none =>
    .bind (func.mapFunctions_uniform uniform) fun _ =>
      .bind (mapFunctionsOfAll_uniform uniform args) fun _ =>
        .bind (mapFunctionsOfKwargs_uniform uniform kwargs) fun _ => .pure _
  | .jump _ func args kwargs (some cc) =>
    .bind (func.mapFunctions_uniform uniform) fun _ =>
      .bind (mapFunctionsOfAll_uniform uniform args) fun _ =>
        .bind (mapFunctionsOfKwargs_uniform uniform kwargs) fun _ =>
          .bind (cc.mapFunctions_uniform uniform) fun _ => .pure _

theorem mapFunctionsOfAll_uniform (uniform : ∀ function, Uniform (step function)) :
    ∀ es : List Expr, Uniform (mapFunctionsOfAll step es)
  | [] => .pure _
  | e :: rest => .bind (e.mapFunctions_uniform uniform) fun _ =>
    .bind (mapFunctionsOfAll_uniform uniform rest) fun _ => .pure _

theorem mapFunctionsOfKwargs_uniform (uniform : ∀ function, Uniform (step function)) :
    ∀ kwargs : List (String × Expr), Uniform (mapFunctionsOfKwargs step kwargs)
  | [] => .pure _
  | (_, e) :: rest => .bind (e.mapFunctions_uniform uniform) fun _ =>
    .bind (mapFunctionsOfKwargs_uniform uniform rest) fun _ => .pure _

theorem mapFunctionsOfArms_uniform (uniform : ∀ function, Uniform (step function)) :
    ∀ arms : List (Expr × Expr), Uniform (mapFunctionsOfArms step arms)
  | [] => .pure _
  | (test, body) :: rest => .bind (test.mapFunctions_uniform uniform) fun _ =>
    .bind (body.mapFunctions_uniform uniform) fun _ =>
      .bind (mapFunctionsOfArms_uniform uniform rest) fun _ => .pure _

end

theorem Function.mapInner_uniform (uniform : ∀ function, Uniform (step function))
    (function : Function) : Uniform (function.mapInner step) :=
  .bind (function.body.mapFunctions_uniform uniform) fun _ => .pure _

/-- Outside all blocks a recursive function gets no wrappers where the loop gets some. -/
theorem functionWrappers_unloop {dressed : Function} (outside : function.signature.Outside)
    (dresses : Dresses table function dressed) :
    Produces False (functionWrappers table (function.unloop name)) (· = dressed.unloop name) := by
  obtain ⟨wrappers, rfl⟩ := dresses.eq
  obtain ⟨signature, body⟩ := function
  cases params : signature.params with
  | nil => simpa [Function.unloop, params] using functionWrappers_uniform _ _ dresses
  | cons handle rest =>
    have bare :
      resolveWrappers table { signature with params := rest, decorators := [], wrappers := [] } =
        .ok [] := by
      have plain : signature.kind = .plain := outside.plain
      have regions : signature.regions = .none := outside.outside
      simp only [resolveWrappers, impliedWrappers, plain, regions]
      rfl
    simp only [Function.unloop, params, functionWrappers, bare]
    exact .pure rfl

/-! ## Toplevel forms -/

/-- A step on a function expression is one on the functions inside it and then one on itself. -/
theorem Expr.mapFunctions_fn (step : Function -> Transform Function) (mark : Mark)
    (function : Function) :
    (Expr.fn mark function.signature function.body).mapFunctions step = (do
      let function ← function.mapInner step
      let function ← step function
      pure (.fn mark function.signature function.body)) := by
  simp [mapFunctions, Function.mapInner]

theorem Expr.unloopFunction_of_none (none : e.function? = none) : e.unloopFunction name = e := by
  cases e <;> first | rfl | cases none

/-- Outside all blocks it does not matter when the bodies in a bindee are changed. -/
theorem Expr.unloopFunction_mapFunctions
    (outside : ∀ function, e.function? = some function -> function.signature.Outside) :
    (e.unloopFunction name).mapFunctions (functionBody escapes) =
      Expr.unloopFunction name <$> e.mapFunctions (functionBody escapes) := by
  cases e with
  | fn mark signature body =>
    have outside : signature.Outside := outside ⟨signature, body⟩ rfl
    have each (body : Expr) : functionBody escapes (Function.unloop name ⟨signature, body⟩) =
        Function.unloop name <$> functionBody escapes ⟨signature, body⟩ :=
      functionBody_unloop outside
    have whole := mapFunctions_fn (functionBody escapes) mark ⟨signature, body⟩
    have whole' :=
      mapFunctions_fn (functionBody escapes) mark (Function.unloop name ⟨signature, body⟩)
    rw [unloopFunction, whole, whole', Function.unloop_mapInner]
    simp [Function.mapInner, each, unloopFunction]
  | jump _ _ _ _ cc => cases cc <;> simp [unloopFunction, mapFunctions]
  | cond _ _ alt => cases alt <;> simp [unloopFunction, mapFunctions]
  | _ => simp [unloopFunction, mapFunctions]

/-- Toplevel forms define functions of the name outside all blocks only. -/
def OutsideBlocks (top : List Toplevel) (name : String) : Prop :=
  ∀ bindee, .define name bindee ∈ top -> ∀ function, bindee.function? = some function ->
    function.signature.Outside

theorem OutsideBlocks.rest {form : Toplevel} {rest : List Toplevel}
    (outside : OutsideBlocks (form :: rest) name) : OutsideBlocks rest name :=
  fun bindee member => outside bindee (List.mem_cons_of_mem _ member)

/-- Rewriting bodies commutes with replacing the loops of functions outside all blocks. -/
theorem mapFunctionsOfTop_unloop (outside : OutsideBlocks top name) :
    mapFunctionsOfTop (functionBody escapes) (top.map (Toplevel.unloop name)) =
      List.map (Toplevel.unloop name) <$> mapFunctionsOfTop (functionBody escapes) top := by
  induction top with
  | nil => simp [mapFunctionsOfTop]
  | cons form rest ih =>
    have others := ih outside.rest
    cases form with
    | exec e => simp [mapFunctionsOfTop, Toplevel.unloop, others]
    | define other bindee =>
      by_cases same : other = name
      · subst same
        have first : (bindee.unloopFunction other).mapFunctions (functionBody escapes) =
            Expr.unloopFunction other <$> bindee.mapFunctions (functionBody escapes) :=
          Expr.unloopFunction_mapFunctions (outside bindee List.mem_cons_self)
        simp [mapFunctionsOfTop, Toplevel.unloop, others, first]
      · simp [mapFunctionsOfTop, Toplevel.unloop, others, same]

/-- Wrappers are given to the recursive function as they are to the loop. -/
theorem Expr.unloopFunction_dresses
    (outside : ∀ function, e.function? = some function -> function.signature.Outside)
    (makes : Makes (e.mapFunctions (functionWrappers table)) e') :
    Produces False ((e.unloopFunction name).mapFunctions (functionWrappers table))
      (· = e'.unloopFunction name) := by
  have mapping : Mapping (Dresses table) e e' :=
    makes.of (e.mapFunctions_mapping Dresses.stepsOn fun _ _ => trivial)
  rcases mapping.split with @⟨mark, signature, body, _, _, rfl, rfl, -, -⟩ | ⟨held, held', -, -⟩
  · have whole := mapFunctions_fn (functionWrappers table) mark ⟨signature, body⟩
    have whole' := mapFunctions_fn (functionWrappers table) mark
      (Function.unloop name ⟨signature, body⟩)
    rw [whole] at makes
    obtain ⟨inner, inside, makes⟩ := makes.bind
    obtain ⟨dressed, dresses, made⟩ := makes.bind
    rw [made.pure]
    have outside : inner.signature.Outside := by
      rw [Function.mapInner_signature inside]
      exact outside ⟨signature, body⟩ rfl
    have inside' : Produces False ((Function.unloop name ⟨signature, body⟩).mapInner
        (functionWrappers table)) (· = inner.unloop name) := by
      rw [Function.unloop_mapInner, map_eq_pure_bind]
      refine .bind (Function.mapInner_uniform functionWrappers_uniform _ inner inside) ?_
      rintro _ rfl
      exact .pure rfl
    rw [unloopFunction, whole']
    refine .bind inside' ?_
    rintro _ rfl
    refine .bind (functionWrappers_unloop outside dresses) ?_
    rintro _ rfl
    exact .pure rfl
  · rw [unloopFunction_of_none held, unloopFunction_of_none held']
    exact e.mapFunctions_uniform functionWrappers_uniform e' makes

/-- Giving wrappers succeeds for the program without loops if it does for the other. -/
theorem mapFunctionsOfTop_dresses (outside : OutsideBlocks top name)
    (makes : Makes (mapFunctionsOfTop (functionWrappers table) top) top') :
    Produces False (mapFunctionsOfTop (functionWrappers table) (top.map (Toplevel.unloop name)))
      (· = top'.map (Toplevel.unloop name)) := by
  induction top generalizing top' with
  | nil =>
    obtain ⟨_, _, ⟨⟩⟩ := makes
    exact .pure rfl
  | cons form rest ih =>
    cases form with
    | exec e =>
      obtain ⟨e', first, makes⟩ := makes.bind
      obtain ⟨rest', others, ⟨_, _, ⟨⟩⟩⟩ := makes.bind
      refine .bind (e.mapFunctions_uniform functionWrappers_uniform e' first) ?_
      rintro _ rfl
      refine .bind (ih outside.rest others) ?_
      rintro _ rfl
      exact .pure rfl
    | define other bindee =>
      obtain ⟨bindee', first, makes⟩ := makes.bind
      obtain ⟨rest', others, ⟨_, _, ⟨⟩⟩⟩ := makes.bind
      have each : Produces False ((if other = name then bindee.unloopFunction name else
          bindee).mapFunctions (functionWrappers table))
          (· = if other = name then bindee'.unloopFunction name else bindee') := by
        by_cases same : other = name
        · subst same
          simpa using bindee.unloopFunction_dresses (outside bindee List.mem_cons_self) first
        · simpa [same] using bindee.mapFunctions_uniform functionWrappers_uniform bindee' first
      refine .bind each ?_
      rintro _ rfl
      refine .bind (ih outside.rest others) ?_
      rintro _ rfl
      exact .pure rfl

theorem Expr.unloopFunction_hasCapture (e : Expr) :
    (e.unloopFunction name).hasCapture = e.hasCapture := by
  cases e <;> rfl

/-- The check at the toplevel comes to the same without loops. -/
theorem checkTop_unloop (top : List Toplevel) :
    checkTop (top.map (Toplevel.unloop name)) = checkTop top := by
  induction top with
  | nil => rfl
  | cons form rest ih =>
    have same : (form.unloop name).expr.hasCapture = form.expr.hasCapture := by
      cases form with
      | exec e => rfl
      | define other bindee =>
        by_cases here : other = name
        · simp [Toplevel.unloop, Toplevel.expr, here, bindee.unloopFunction_hasCapture]
        · simp [Toplevel.unloop, here]
    simp only [List.map_cons, checkTop, forbidCapture, same, ih]

/-- A program with a recursive function is transformed to what comes of the transformed program, if
the loop stands outside all blocks. -/
theorem Program.transform_unloop (outside : OutsideBlocks program.top name)
    (succeeds : program.transform table escapes = .ok transformed) :
    ∃ transformed', (program.unloop name).transform table escapes = .ok transformed' ∧
      transformed'.program.top = (transformed.program.unloop name).top := by
  obtain ⟨checked, middle, rewritten, log, checks, rewrites, dresses⟩ := transform_stages succeeds
  have outside' : OutsideBlocks middle name := by
    intro bindee' member function' held'
    have mapping : MappingTop (Rewrites escapes) program.top middle :=
      (mapFunctionsOfTop_mapping Rewrites.stepsOn _ fun _ _ _ _ => trivial).of_ok rewrites
    obtain ⟨bindee, listed, became⟩ := mapping.defined member
    rcases became.split with ⟨rfl, rfl, -, self⟩ | ⟨-, never, -, -⟩
    · cases held'
      obtain ⟨params, same⟩ := self.of (functionBody_signature _)
      obtain ⟨plain, regions⟩ := outside _ listed _ rfl
      rw [same]
      exact ⟨plain, regions⟩
    · cases never.symm.trans held'
  have dressing : Produces False (mapFunctionsOfTop (functionWrappers table)
      (middle.map (Toplevel.unloop name)))
      (· = transformed.program.top.map (Toplevel.unloop name)) :=
    mapFunctionsOfTop_dresses outside' ⟨_, _, dresses⟩
  obtain ⟨top', later, dresses', rfl⟩ | ⟨never, -⟩ := dressing.ends rewritten
  · have rewrites' : (mapFunctionsOfTop (functionBody escapes)
        (program.top.map (Toplevel.unloop name))).run checked =
          .ok (middle.map (Toplevel.unloop name), rewritten) := by
      rw [mapFunctionsOfTop_unloop outside, StateT.run_map, rewrites]
      rfl
    refine ⟨⟨⟨_, later.counters⟩, later.log.reverse⟩, ?_, rfl⟩
    have whole : (toplevels table escapes (program.unloop name).top).run ⟨program.counters, []⟩ =
        .ok (transformed.program.top.map (Toplevel.unloop name), later) := by
      rw [toplevels, unloop, checkTop_unloop, StateT.run_bind, checks]
      show (mapFunctionsOfTop _ _ >>= fun top => mapFunctionsOfTop _ top : Transform _).run
        checked = _
      rw [StateT.run_bind, rewrites']
      exact dresses'
    exact congrArg (Except.map _) whole
  · exact never.elim

/-! ## Loops -/

/-- Forms around a definition become forms around what it becomes. -/
theorem mapFunctionsOfTop_around {before after : List Toplevel}
    (makes : Makes (mapFunctionsOfTop step (before ++ .define name bindee :: after)) top') :
    ∃ before' bindee' after', top' = before' ++ .define name bindee' :: after' ∧
      MappingTop (fun function => Makes (step function)) before before' ∧
      Makes (bindee.mapFunctions step) bindee' ∧
      MappingTop (fun function => Makes (step function)) after after' := by
  have maps : StepsOn True (fun _ => True) (fun function => Makes (step function)) step :=
    fun _ _ _ _ _ _ => .makes _
  induction before generalizing top' with
  | nil =>
    obtain ⟨bindee', ofBindee, makes⟩ := makes.bind
    obtain ⟨after', others, made⟩ := makes.bind
    rw [made.pure]
    exact ⟨[], bindee', after', rfl, .nil, ofBindee,
      others.of (mapFunctionsOfTop_mapping maps _ fun _ _ _ _ => trivial)⟩
  | cons form rest ih =>
    cases form with
    | exec e | define other e =>
      obtain ⟨e', first, makes⟩ := makes.bind
      obtain ⟨rest', others, made⟩ := makes.bind
      obtain ⟨before', bindee', after', rfl, mapping, around⟩ := ih others
      have mapped := first.of (e.mapFunctions_mapping maps fun _ _ => trivial)
      rw [made.pure]
      first
      | exact ⟨.exec e' :: before', bindee', after', rfl, .exec mapped mapping, around⟩
      | exact ⟨.define other e' :: before', bindee', after', rfl, .define mapped mapping, around⟩

/-- What defines a name once becomes what defines it once. -/
theorem DefinesOnce.mapFunctions (once : DefinesOnce top name bindee)
    (makes : Makes (mapFunctionsOfTop step top) top') :
    ∃ bindee', Makes (bindee.mapFunctions step) bindee' ∧ DefinesOnce top' name bindee' := by
  obtain ⟨before, after, rfl, notBefore, notAfter⟩ := once
  obtain ⟨before', bindee', after', rfl, mapping, ofBindee, mapping'⟩ :=
    mapFunctionsOfTop_around makes
  refine ⟨bindee', ofBindee, before', after', rfl, fun _ member => ?_, fun _ member => ?_⟩
  · obtain ⟨other, listed, -⟩ := mapping.defined member
    exact notBefore other listed
  · obtain ⟨other, listed, -⟩ := mapping'.defined member
    exact notAfter other listed

/-- The steps of the transformation keep what an expression does with names. -/
theorem Mapping.names_eq (mapping : Mapping becomes e e') (none : e.function? = none) :
    e'.names = e.names ∧ e'.binders = e.binders := by
  cases mapping with
  | fn => cases none
  | _ => exact ⟨rfl, rfl⟩

/-- Functions that get wrappers keep what they do with names. -/
theorem Mapping.all_dressed (kind : List String -> List String -> Prop)
    (mapping : Mapping (Dresses table) e e')
    (all : e.All fun node => kind node.names node.binders) :
    e'.All fun node => kind node.names node.binders := by
  refine mapping.all ?_ ?_ all
  · intro mark signature body body' function all _ ofBody dresses
    obtain ⟨wrappers, rfl⟩ := dresses.eq
    exact Expr.all_fn.mpr ⟨all.self, ofBody⟩
  · intro e e' none mapping ofKind
    obtain ⟨names, binders⟩ := mapping.names_eq none
    rwa [names, binders]

theorem Mapping.assigns_eq (mapping : Mapping becomes e e') : e'.assigns name = e.assigns name := by
  cases mapping <;> rfl

theorem assigns_closed : ClosedUnderRewriting escapes True (·.assigns name = false) where
  moved {e _} kept _ := by cases e <;> exact kept
  block _ _ := rfl
  cond _ := rfl
  short _ := rfl
  continuation _ _ := rfl
  nil _ _ := rfl
  handOver _ _ := rfl
  defer _ _ := rfl
  pass _ _ := rfl
  passJump _ _ := rfl
  cutCall _ _ _ := rfl
  cutRest _ _ := rfl

/-- The transformation assigns no more names. -/
theorem Program.transform_assigns (succeeds : program.transform table escapes = .ok transformed)
    (kept : ∀ node ∈ program.nodes, node.assigns name = false) :
    ∀ node ∈ transformed.program.nodes, node.assigns name = false := by
  obtain ⟨middle, rewriting, dressing⟩ := Program.transform_mapping succeeds
  rw [nodes_eq] at kept ⊢
  have rewritten : AllOf (·.assigns name = false) middle := by
    refine rewriting.all
      (fun e e' mapping => mapping.all ?_ fun _ _ _ mapping => mapping.assigns_eq.trans) kept
    exact fun _ _ _ _ _ _ _ ofBody rewrites => Expr.all_fn.mpr ⟨rfl,
      rewrites.of (assigns_closed.functionBody_all ofBody fun _ _ _ => trivial)⟩
  refine dressing.all
    (fun e e' mapping => mapping.all ?_ fun _ _ _ mapping => mapping.assigns_eq.trans) rewritten
  intro _ _ _ _ _ _ _ ofBody dresses
  obtain ⟨wrappers, rfl⟩ := dresses.eq
  exact Expr.all_fn.mpr ⟨rfl, ofBody⟩

theorem Mapping.isShort_eq (mapping : Mapping becomes e e') : e'.isShort = e.isShort := by
  cases mapping <;> rfl

/-- Mapping functions leaves a call a call to the same name. -/
theorem Mapping.isCallTo_eq (mapping : Mapping becomes e e') (names : List String) :
    e'.isCallTo names = e.isCallTo names := by
  cases mapping with
  | call func => cases func <;> rfl
  | _ => rfl

/-- Where calls of the handle are joined, they were before. -/
theorem Mapping.joinsCalls (mapping : Mapping becomes e e') (joins : e'.JoinsCalls handle) :
    e.JoinsCalls handle := by
  obtain ⟨node', onPath, short, inner', inside, calls⟩ := joins
  obtain ⟨node, onPath, same⟩ := mapping.tailPath node' onPath
  obtain ⟨inner, inside, same'⟩ := same.tailPath inner' inside
  exact ⟨node, onPath, same.isShort_eq ▸ short, inner, inside, same'.isCallTo_eq _ ▸ calls⟩

/-- A body with no function that asks for rewriting stays what it is. -/
theorem Expr.mapFunctions_direct
    (direct : e.All fun node => ∀ function, node.function? = some function ->
      function.signature.Direct)
    (makes : Makes (e.mapFunctions (functionBody escapes)) e') : e' = e := by
  have stays : StepsOn True (fun node => ∀ function, node.function? = some function ->
      function.signature.Direct) (fun function other => other = function) (functionBody escapes) :=
    fun _ signature body body' direct _ => functionBody_direct (direct ⟨signature, body⟩ rfl)
  exact (makes.of (e.mapFunctions_mapping stays direct)).eq

/-- The only wrapper of a loop outside all blocks is its own. -/
theorem Signature.Outside.looped {signature : Signature} (outside : signature.Outside)
    (written : signature.decorators.map Prod.fst = ["looped"])
    (resolves : resolveWrappers table signature = .ok wrappers) : wrappers = [.looped] := by
  have implied : impliedWrappers signature = [] := by
    rw [impliedWrappers, outside.plain, outside.outside]
    rfl
  have only (decorator : Decorator) : decorator ∈ wrappers ↔ decorator ∈ [Decorator.looped] := by
    have named : (∃ entry ∈ signature.decorators, entry.1 = decorator.name) ↔
        decorator.name ∈ signature.decorators.map Prod.fst := List.mem_map.symm
    rw [mem_resolveWrappers resolves, implied, named, written]
    cases decorator <;> simp [Decorator.name]
  obtain ⟨_, -, nests⟩ := resolveWrappers_nests resolves
  exact List.perm_singleton.mp
    ((List.perm_ext_iff_of_nodup nests.once (List.nodup_singleton _)).mpr only)

/-- A function with a loop outside all blocks is defined outside all blocks. -/
theorem Program.HasLoop.outsideBlocks (has : program.HasLoop name handle function)
    (outside : function.signature.regions = .none) :
    OutsideBlocks program.top name := by
  obtain ⟨mark, once⟩ := has.defined
  intro bindee member other held
  cases once.eq member
  cases held
  exact ⟨has.plain, outside⟩

/-- Wrappers keep a loop what it is. -/
theorem Function.Loops.dressed (loops : function.Loops name handle) {dressed : Function}
    (signature : dressed.signature = { function.signature with wrappers := wrappers })
    (makes : Makes (function.body.mapFunctions (functionWrappers table)) dressed.body) :
    dressed.Loops name handle := by
  have unlooped := makes.map (Expr.unloop handle name)
  rw [← Expr.unloop_mapFunctions] at unlooped
  have mapping : Mapping (Dresses table) (function.body.unloop handle name)
      (dressed.body.unloop handle name) :=
    unlooped.of (Expr.mapFunctions_mapping Dresses.stepsOn _ fun _ _ => trivial)
  have kept := mapping.all_dressed (fun names binders => handle ∉ names ∧ name ∉ binders)
    fun node inside => ⟨loops.calls node inside, loops.sees node inside⟩
  exact ⟨signature ▸ loops.takes, signature ▸ loops.once, signature ▸ loops.params,
    fun node inside => (kept node inside).1, fun node inside => (kept node inside).2⟩

/-- In a transformed program the loop is a loop still, and the recursive function in its place is
what comes of the program with the recursive function. -/
theorem Program.HasLoop.transform {source : String} {path : Option String}
    (parsed : Program.parse source path = .ok program)
    (has : program.HasLoop name handle function) (outside : function.signature.regions = .none)
    (written : function.signature.decorators.map Prod.fst = ["looped"])
    (succeeds : program.transform table escapes = .ok transformed) : ∃ transformed' dressed,
      (program.unloop name).transform table escapes = .ok transformed' ∧
      transformed'.program.top = (transformed.program.unloop name).top ∧
      transformed.program.HasLoop name handle dressed ∧
      dressed.signature = { function.signature with wrappers := [.looped] } ∧
      (dressed.body.JoinsCalls handle -> function.body.JoinsCalls handle) := by
  obtain ⟨transformed', succeeds', top'⟩ := transform_unloop (has.outsideBlocks outside) succeeds
  obtain ⟨checked, middle, rewritten, log, -, rewrites, dresses⟩ := transform_stages succeeds
  obtain ⟨mark, once⟩ := has.defined
  have direct : (Expr.fn mark function.signature function.body).All fun node =>
      ∀ function, node.function? = some function -> function.signature.Direct := by
    obtain ⟨regions, -, all⟩ := parse_topIsSource parsed _ once.mem
    have own : function.signature.regions = regions := all.self.2.2.1
    intro node inside inner held
    cases node with
    | fn =>
      cases held
      have same := (all _ inside).2.2.1
      rw [← own, outside] at same
      exact ⟨by rw [same]; rfl, by rw [same]; rfl⟩
    | _ => cases held
  obtain ⟨bindee, made, once⟩ := once.mapFunctions ⟨_, _, rewrites⟩
  obtain rfl := Expr.mapFunctions_direct direct made
  obtain ⟨bindee, made, once⟩ := once.mapFunctions ⟨_, _, dresses⟩
  rw [Expr.mapFunctions_fn] at made
  obtain ⟨inner, inside, made⟩ := made.bind
  obtain ⟨body, ofBody, inside⟩ := inside.bind
  obtain rfl := inside.pure
  obtain ⟨dressed, makes, made⟩ := made.bind
  obtain rfl := made.pure
  have dressing : Dresses table ⟨function.signature, body⟩ dressed := makes
  have resolves := makes.of (functionWrappers_resolve _)
  obtain ⟨wrappers, rfl⟩ := dressing.eq
  have looped : wrappers = [.looped] :=
    Signature.Outside.looped ⟨has.plain, outside⟩ written resolves
  have mapping : Mapping (Dresses table) function.body body :=
    ofBody.of (function.body.mapFunctions_mapping Dresses.stepsOn fun _ _ => trivial)
  subst looped
  refine ⟨transformed', _, succeeds', top', ⟨⟨mark, once⟩, ?_, has.plain, ?_⟩, rfl,
    mapping.joinsCalls⟩
  · exact has.loops.dressed rfl ofBody
  · intro node inside
    refine transform_assigns succeeds' has.kept node ?_
    rwa [nodes, top']

end Trampoline
