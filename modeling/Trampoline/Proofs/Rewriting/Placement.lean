import Trampoline.Proofs.Positions.Programs
import Trampoline.Proofs.Rewriting.Forests

/-!
# Where captures may stand

The transformation checks toplevel forms, bodies outside `continuations`, the items of a body
between its captures and the calls that are captured. Each check is made on what the rewriting left
of a body, so it is compared with what it would find in the program: together they ask that every
capture is an item of the body of a function inside `continuations` and that no captured call
captures in turn.
-/

namespace Trampoline

open Transform

/-! ## Steps that decide -/

/-- The step ends with a value as asked if the condition holds, and else with an error of a kind. -/
structure Decides {σ ε α : Type} (condition : Prop) (fault : ε -> Prop)
    (step : StateT σ (Except ε) α) (post : α -> Prop) : Prop where
  succeeds : condition -> ∀ state, ∃ value later, step.run state = .ok (value, later) ∧ post value
  fails : ¬condition -> ∀ state, ∃ error, step.run state = .error error ∧ fault error

namespace Decides

variable {σ ε α β : Type} {condition : Prop} {fault : ε -> Prop} {step : StateT σ (Except ε) α}
  {post : α -> Prop}

theorem of_produces (produces : Produces False step post) : Decides True fault step post where
  succeeds _ state := (produces.ends state).resolve_right fun failed => failed.1
  fails never := absurd trivial never

theorem pure {value : α} (holds : post value) :
    Decides True fault (pure value : StateT σ (Except ε) α) post :=
  of_produces (.pure holds)

variable {condition' : Prop} {next : α -> StateT σ (Except ε) β} {post' : β -> Prop}

theorem iff (same : condition' ↔ condition)
    (decides : Decides condition fault step post) : Decides condition' fault step post :=
  propext same ▸ decides

theorem bind (first : Decides condition fault step post)
    (second : ∀ value, post value -> Decides condition' fault (next value) post') :
    Decides (condition ∧ condition') fault (step >>= next) post' := by
  constructor
  · rintro ⟨holds, holds'⟩ state
    obtain ⟨value, later, ends, known⟩ := first.succeeds holds state
    rw [StateT.run_bind, ends]
    exact (second value known).succeeds holds' later
  · intro never state
    rw [StateT.run_bind]
    by_cases holds : condition
    · obtain ⟨value, later, ends, known⟩ := first.succeeds holds state
      rw [ends]
      exact (second value known).fails (fun holds' => never ⟨holds, holds'⟩) later
    · obtain ⟨error, ends, isFault⟩ := first.fails holds state
      rw [ends]
      exact ⟨error, rfl, isFault⟩

/-- A step before, which always succeeds. -/
theorem after {γ : Type} {before : StateT σ (Except ε) γ} {next : γ -> StateT σ (Except ε) α}
    {mid : γ -> Prop} (first : Produces False before mid)
    (second : ∀ value, mid value -> Decides condition fault (next value) post) :
    Decides condition fault (before >>= next) post :=
  (Decides.bind (.of_produces first) second).iff (true_and condition).symm.to_iff

/-- A step in the end, which always succeeds. -/
theorem before (first : Decides condition fault step post)
    (second : ∀ value, post value -> Produces False (next value) post') :
    Decides condition fault (step >>= next) post' :=
  (first.bind fun value known => .of_produces (second value known)).iff
    (and_true condition).symm.to_iff

/-- A step that decides comes to what it makes. -/
theorem makes (decides : Decides condition fault step post) :
    Decides condition fault step (Makes step) where
  succeeds holds state :=
    let ⟨value, later, ends, _⟩ := decides.succeeds holds state
    ⟨value, later, ends, state, later, ends⟩
  fails := decides.fails

end Decides

/-- The errors about captures. -/
def TransformError.IsPlacement (error : TransformError) : Prop :=
  ∃ owner fault, error = .capturePlacement owner fault

/-- Forbidding captures decides whether there are none. -/
theorem forbidCapture_decides (owner : Owner) (fault : CaptureFault) (e : Expr) :
    Decides (e.hasCapture = false) TransformError.IsPlacement (forbidCapture owner fault e)
      fun _ => True := by
  unfold forbidCapture
  constructor
  · intro free state
    rw [free]
    exact ⟨(), state, rfl, trivial⟩
  · intro captures state
    rw [if_pos (Bool.eq_true_of_not_eq_false captures)]
    exact ⟨_, rfl, owner, fault, rfl⟩

/-! ## Bodies -/

variable {escapes : List String} {table : DecoratorTable}

/-- Handing over the value of an expression never fails. -/
theorem relocate_handOver_succeeds (e : Expr) :
    Produces False (relocate e >>= fun value => handOver e.mark value) fun _ => True := by
  have moved : Produces False (relocate e) fun _ => True :=
    .bind (newMark_produces _) fun _ _ => .pure trivial
  exact .bind moved fun _ _ => .bind (continuationVar_produces _) fun _ _ => .pure trivial

mutual

/-- Returns can always be passed on. -/
theorem passTails_succeeds : ∀ e : Expr, Produces False (passTails escapes e) fun _ => True
  | .seq _ [] => .bind (handOverNil_produces _) fun _ _ => .pure trivial
  | .seq _ (e :: rest) => .bind (passLast_succeeds (e :: rest)) fun _ _ => .pure trivial
  | .cond _ arms none => .bind (passArms_succeeds arms) fun _ _ => .pure trivial
  | .cond _ arms (some e) =>
    .bind (passArms_succeeds arms) fun _ _ => .bind (passTails_succeeds e) fun _ _ => .pure trivial
  | .short mark op [] => relocate_handOver_succeeds (.short mark op [])
  | .short _ _ (e :: rest) => .bind (passLast_succeeds (e :: rest)) fun _ _ => .pure trivial
  | .call _ func _ _ => by
    simp only [passTails]
    split
    · exact .pure trivial
    · exact .bind (continuationVar_produces _) fun _ _ => .pure trivial
  | .jump _ _ _ _ none => .bind (continuationVar_produces _) fun _ _ => .pure trivial
  | .jump _ _ _ _ (some _) => .pure trivial
  | .lit mark value => relocate_handOver_succeeds (.lit mark value)
  | .var mark name => relocate_handOver_succeeds (.var mark name)
  | .fn mark signature body => relocate_handOver_succeeds (.fn mark signature body)
  | .bind mark name e => relocate_handOver_succeeds (.bind mark name e)
  | .assign mark name e => relocate_handOver_succeeds (.assign mark name e)
  | .loop mark test body => relocate_handOver_succeeds (.loop mark test body)
  | .capture mark binders e => relocate_handOver_succeeds (.capture mark binders e)

theorem passLast_succeeds : ∀ es : List Expr, Produces False (passLast escapes es) fun _ => True
  | [] => .pure trivial
  | [e] => .bind (passTails_succeeds e) fun _ _ => .pure trivial
  | _ :: next :: rest => .bind (passLast_succeeds (next :: rest)) fun _ _ => .pure trivial

theorem passArms_succeeds : ∀ arms : List (Expr × Expr),
    Produces False (passArms escapes arms) fun _ => True
  | [] => .pure trivial
  | (_, body) :: rest =>
    .bind (passTails_succeeds body) fun _ _ => .bind (passArms_succeeds rest) fun _ _ =>
      .pure trivial

end

/-- What is captured is a call. -/
def Expr.CapturesCall : Expr -> Prop
  | .capture _ _ captured => captured.isCall = true
  | _ => True

/-- An item of a body inside `continuations` may capture, but only at once. -/
def Expr.FitsBody : Expr -> Prop
  | .capture _ _ captured => captured.hasCapture = false
  | item => item.hasCapture = false

theorem Expr.fitsBody_of_not {item : Expr} (plain : item.isCapture = false) :
    item.FitsBody ↔ item.hasCapture = false := by
  cases item with
  | capture => cases plain
  | _ => exact Iff.rfl

/-- Cutting a block asks for items that fit. -/
theorem cutItems_decides (owner : Owner) (regions : Regions) : ∀ (items : List Expr) (span : Span),
    (∀ item ∈ items, item.CapturesCall) ->
      Decides (∀ item ∈ items, item.FitsBody) TransformError.IsPlacement
        (cutItems escapes owner regions span items) fun _ => True
  | [], span, _ => by
    refine (Decides.of_produces ?_).iff (iff_true_intro (List.forall_mem_nil _))
    exact .bind (handOverNil_produces span) fun _ _ => .pure trivial
  | item :: rest, span, calls => by
    obtain ⟨call, calls⟩ := List.forall_mem_cons.mp calls
    have after := fun span => cutItems_decides owner regions rest span calls
    cases isCapture : item.isCapture with
    | true =>
      cases item with
      | capture mark binders captured =>
        refine Decides.iff List.forall_mem_cons ?_
        simp only [cutItems]
        refine .bind (forbidCapture_decides _ _ captured) fun _ _ => ?_
        cases captured with
        | call callMark func args kwargs =>
          refine .after (newMark_produces _) fun _ _ => .before (after mark.span) fun _ _ => ?_
          refine .bind (record_produces _) fun _ _ => .bind newFunction_produces fun _ _ => ?_
          exact .bind (newMark_produces _) fun _ _ => .bind (newMark_produces _) fun _ _ =>
            .pure trivial
        | _ => cases call
      | _ => cases isCapture
    | false =>
      cases rest with
      | nil =>
        rw [cutItems_one isCapture]
        refine Decides.iff (List.forall_mem_singleton.trans (Expr.fitsBody_of_not isCapture)) ?_
        exact .before (forbidCapture_decides _ _ item) fun _ _ =>
          .bind (passTails_succeeds item) fun _ _ => .pure trivial
      | cons next rest =>
        rw [cutItems_cons isCapture]
        refine Decides.iff (List.forall_mem_cons.trans
          (and_congr_left' (Expr.fitsBody_of_not isCapture))) ?_
        exact .bind (forbidCapture_decides _ _ item) fun _ _ =>
          .before (after span) fun _ _ => .pure trivial

variable {items : List Expr} {function : Function} {becomes : Function -> Function -> Prop}
  {e e' node : Expr}

/-- Cutting a block decides whether all its items fit. -/
theorem cutBody_decides (owner : Owner) (regions : Regions) (mark : Mark)
    (calls : ∀ item ∈ items, item.CapturesCall) :
    Decides (∀ item ∈ items, item.FitsBody) TransformError.IsPlacement
      (cutBody escapes owner regions (.seq mark items)) fun _ => True :=
  .before (cutItems_decides owner regions items mark.span calls) fun _ _ => .pure trivial

/-- A function captures in items that fit inside `continuations`, and not at all outside. -/
def Function.FitsCaptures (function : Function) : Prop :=
  if function.signature.regions.cont then ∀ item ∈ function.body.children, item.FitsBody
  else function.body.hasCapture = false

/-- A body is a block in which captures capture calls. -/
structure Expr.IsBlockOfCalls (body : Expr) : Prop where
  block : ∃ mark items, body = .seq mark items
  calls : ∀ item ∈ body.children, item.CapturesCall

/-- The rewriting of a function decides whether its captures fit. -/
theorem functionBody_decides (block : function.body.IsBlockOfCalls) :
    Decides function.FitsCaptures TransformError.IsPlacement (functionBody escapes function)
      fun _ => True := by
  obtain ⟨signature, body⟩ := function
  obtain ⟨⟨mark, items, rfl⟩, calls⟩ := block
  unfold functionBody Function.FitsCaptures
  by_cases continuations : signature.regions.cont = true
  · simp only [if_pos continuations]
    exact .after (record_produces _) fun _ _ => .before (cutBody_decides _ _ mark calls)
      fun _ _ => .pure trivial
  · simp only [if_neg continuations]
    refine .before (forbidCapture_decides _ _ _) fun _ _ => ?_
    split
    · exact .bind (record_produces _) fun _ _ => .pure trivial
    · exact .pure trivial

/-! ## Programs -/

section Step

variable {condition : Function -> Prop} {fault : TransformError -> Prop} {kind : Expr -> Prop}
  {becomes : Function -> Function -> Prop} {step : Function -> Transform Function}

/-- A step on functions of a kind decides a condition on the function before those in it became
others. -/
def DecidesOn (condition : Function -> Prop) (fault : TransformError -> Prop) (kind : Expr -> Prop)
    (becomes : Function -> Function -> Prop) (step : Function -> Transform Function) : Prop :=
  ∀ mark signature body body', kind (.fn mark signature body) -> Mapping becomes body body' ->
    Decides (condition ⟨signature, body⟩) fault (step ⟨signature, body'⟩)
      (becomes ⟨signature, body'⟩)

mutual

/-- A step that decides on each function decides on all in an expression. -/
theorem Expr.mapFunctions_decides (decides : DecidesOn condition fault kind becomes step) :
    ∀ e : Expr, e.All kind ->
      Decides (∀ function ∈ e.functions, condition function) fault (e.mapFunctions step)
        (Mapping becomes e)
  | .lit .., _ => (Decides.pure .lit).iff (iff_true_intro (List.forall_mem_nil _))
  | .var .., _ => (Decides.pure .var).iff (iff_true_intro (List.forall_mem_nil _))
  | .fn mark signature body, all => by
    obtain ⟨self, inside⟩ := Expr.all_fn.mp all
    refine Decides.iff (by simp [Expr.functions, or_imp, forall_and]) <|
      .bind (body.mapFunctions_decides decides inside) fun body' inside =>
        .before (decides mark signature body body' self inside) fun _ becomes =>
          .pure (.fn inside becomes)
  | .call _ func args kwargs, all => by
    obtain ⟨-, funcs, values, named⟩ := Expr.all_call.mp all
    refine Decides.iff (by simp [Expr.functions, or_imp, forall_and]) <|
      .bind (func.mapFunctions_decides decides funcs) fun _ funcs =>
        .bind (mapFunctionsOfAll_decides decides args values) fun _ values =>
          .before (mapFunctionsOfKwargs_decides decides kwargs named) fun _ named =>
            .pure (.call funcs values named)
  | .cond _ arms none, all => by
    obtain ⟨-, ofArms⟩ := Expr.all_cond_none.mp all
    refine Decides.iff (by simp [Expr.functions]) <|
      .before (mapFunctionsOfArms_decides decides arms ofArms) fun _ arms => .pure (.condNone arms)
  | .cond _ arms (some e), all => by
    obtain ⟨-, ofArms, ofAlt⟩ := Expr.all_cond_some.mp all
    refine Decides.iff (by simp [Expr.functions, or_imp, forall_and]) <|
      .bind (mapFunctionsOfArms_decides decides arms ofArms) fun _ arms =>
        .before (e.mapFunctions_decides decides ofAlt) fun _ alt => .pure (.condSome arms alt)
  | .short _ _ es, all =>
    .before (mapFunctionsOfAll_decides decides es (Expr.all_short.mp all).2) fun _ operands =>
      .pure (.short operands)
  | .seq _ es, all =>
    .before (mapFunctionsOfAll_decides decides es (Expr.all_seq.mp all).2) fun _ items =>
      .pure (.seq items)
  | .bind _ _ e, all =>
    .before (e.mapFunctions_decides decides (Expr.all_bind.mp all).2) fun _ bindee =>
      .pure (.bind bindee)
  | .assign _ _ e, all =>
    .before (e.mapFunctions_decides decides (Expr.all_assign.mp all).2) fun _ bindee =>
      .pure (.assign bindee)
  | .loop _ test body, all => by
    obtain ⟨-, tests, bodies⟩ := Expr.all_loop.mp all
    refine Decides.iff (by simp [Expr.functions, or_imp, forall_and]) <|
      .bind (test.mapFunctions_decides decides tests) fun _ tests =>
        .before (body.mapFunctions_decides decides bodies) fun _ bodies =>
          .pure (.loop tests bodies)
  | .jump _ func args kwargs none, all => by
    obtain ⟨-, funcs, values, named⟩ := Expr.all_jump_none.mp all
    refine Decides.iff (by simp [Expr.functions, or_imp, forall_and]) <|
      .bind (func.mapFunctions_decides decides funcs) fun _ funcs =>
        .bind (mapFunctionsOfAll_decides decides args values) fun _ values =>
          .before (mapFunctionsOfKwargs_decides decides kwargs named) fun _ named =>
            .pure (.jumpNone funcs values named)
  | .jump _ func args kwargs (some e), all => by
    obtain ⟨-, funcs, values, named, ofCc⟩ := Expr.all_jump_some.mp all
    refine Decides.iff (by simp [Expr.functions, or_imp, forall_and]) <|
      .bind (func.mapFunctions_decides decides funcs) fun _ funcs =>
        .bind (mapFunctionsOfAll_decides decides args values) fun _ values =>
          .bind (mapFunctionsOfKwargs_decides decides kwargs named) fun _ named =>
            .before (e.mapFunctions_decides decides ofCc) fun _ cc =>
              .pure (.jumpSome funcs values named cc)
  | .capture _ _ e, all =>
    .before (e.mapFunctions_decides decides (Expr.all_capture.mp all).2) fun _ call =>
      .pure (.capture call)

theorem mapFunctionsOfAll_decides (decides : DecidesOn condition fault kind becomes step) :
    ∀ es : List Expr, AllOf kind es ->
      Decides (∀ function ∈ functionsOfAll es, condition function) fault (mapFunctionsOfAll step es)
        (MappingAll becomes es)
  | [], _ => (Decides.pure .nil).iff (iff_true_intro (List.forall_mem_nil _))
  | e :: rest, all => by
    obtain ⟨first, others⟩ := allOf_cons.mp all
    refine Decides.iff (by simp [functionsOfAll, or_imp, forall_and]) <|
      .bind (e.mapFunctions_decides decides first) fun _ first =>
        .before (mapFunctionsOfAll_decides decides rest others) fun _ others =>
          .pure (.cons first others)

theorem mapFunctionsOfKwargs_decides (decides : DecidesOn condition fault kind becomes step) :
    ∀ kwargs : List (String × Expr), AllOfKwargs kind kwargs ->
      Decides (∀ function ∈ functionsOfKwargs kwargs, condition function) fault
        (mapFunctionsOfKwargs step kwargs) (MappingNamed becomes kwargs)
  | [], _ => (Decides.pure .nil).iff (iff_true_intro (List.forall_mem_nil _))
  | (_, e) :: rest, all => by
    obtain ⟨first, others⟩ := allOfKwargs_cons.mp all
    refine Decides.iff (by simp [functionsOfKwargs, or_imp, forall_and]) <|
      .bind (e.mapFunctions_decides decides first) fun _ first =>
        .before (mapFunctionsOfKwargs_decides decides rest others) fun _ others =>
          .pure (.cons first others)

theorem mapFunctionsOfArms_decides (decides : DecidesOn condition fault kind becomes step) :
    ∀ arms : List (Expr × Expr), AllOfArms kind arms ->
      Decides (∀ function ∈ functionsOfArms arms, condition function) fault
        (mapFunctionsOfArms step arms) (MappingArms becomes arms)
  | [], _ => (Decides.pure .nil).iff (iff_true_intro (List.forall_mem_nil _))
  | (test, body) :: rest, all => by
    obtain ⟨tests, bodies, others⟩ := allOfArms_cons.mp all
    refine Decides.iff (by simp [functionsOfArms, or_imp, forall_and]) <|
      .bind (test.mapFunctions_decides decides tests) fun _ tests =>
        .bind (body.mapFunctions_decides decides bodies) fun _ bodies =>
          .before (mapFunctionsOfArms_decides decides rest others) fun _ others =>
            .pure (.cons tests bodies others)

end

/-- A step that decides on each function decides on all in toplevel forms. -/
theorem mapFunctionsOfTop_decides (decides : DecidesOn condition fault kind becomes step) :
    ∀ top : List Toplevel, (∀ form ∈ top, form.expr.All kind) ->
      Decides (∀ form ∈ top, ∀ function ∈ form.expr.functions, condition function) fault
        (mapFunctionsOfTop step top) (MappingTop becomes top)
  | [], _ => (Decides.pure .nil).iff (iff_true_intro (List.forall_mem_nil _))
  | .define _ bindee :: rest, all => by
    obtain ⟨first, others⟩ := List.forall_mem_cons.mp all
    refine Decides.iff List.forall_mem_cons <|
      .bind (bindee.mapFunctions_decides decides first) fun _ first =>
        .before (mapFunctionsOfTop_decides decides rest others) fun _ others =>
          .pure (.define first others)
  | .exec e :: rest, all => by
    obtain ⟨first, others⟩ := List.forall_mem_cons.mp all
    refine Decides.iff List.forall_mem_cons <|
      .bind (e.mapFunctions_decides decides first) fun _ first =>
        .before (mapFunctionsOfTop_decides decides rest others) fun _ others =>
          .pure (.exec first others)

end Step

theorem mapping_isCall (mapping : Mapping becomes e e') : e'.isCall = e.isCall := by
  cases mapping <;> rfl

theorem mapping_item {item item' : Expr} (mapping : Mapping becomes item item') :
    (item'.FitsBody ↔ item.FitsBody) ∧ (item'.CapturesCall ↔ item.CapturesCall) := by
  have same := mapping.hasCapture
  cases mapping with
  | capture call =>
    rw [Expr.FitsBody, Expr.FitsBody, Expr.CapturesCall, Expr.CapturesCall, call.hasCapture,
      mapping_isCall call]
    exact ⟨Iff.rfl, Iff.rfl⟩
  | _ => exact ⟨iff_of_eq (congrArg (· = false) same), Iff.rfl⟩

theorem mapping_items {items' : List Expr} (mapping : MappingAll becomes items items') :
    ((∀ item ∈ items', item.FitsBody) ↔ ∀ item ∈ items, item.FitsBody) ∧
      ((∀ item ∈ items', item.CapturesCall) ↔ ∀ item ∈ items, item.CapturesCall) := by
  induction items generalizing items' with
  | nil =>
    cases mapping
    exact ⟨Iff.rfl, Iff.rfl⟩
  | cons item rest ih =>
    cases mapping with
    | cons first others =>
      simp only [List.forall_mem_cons]
      exact ⟨and_congr (mapping_item first).1 (ih others).1,
        and_congr (mapping_item first).2 (ih others).2⟩

/-- The functions in a body do not matter for where it captures. -/
theorem mapping_fits (signature : Signature)
    {body body' : Expr} (mapping : Mapping becomes body body') (block : body.IsBlockOfCalls) :
    (Function.FitsCaptures ⟨signature, body'⟩ ↔ Function.FitsCaptures ⟨signature, body⟩) ∧
      body'.IsBlockOfCalls := by
  obtain ⟨⟨mark, items, rfl⟩, calls⟩ := block
  have same := mapping.hasCapture
  cases mapping with
  | seq items =>
    refine ⟨?_, ⟨_, _, rfl⟩, (mapping_items items).2.mpr calls⟩
    simp only [Function.FitsCaptures, same]
    split
    · exact (mapping_items items).1
    · exact Iff.rfl

/-- The function that an expression holds has a block for a body. -/
def Expr.HoldsBlock (e : Expr) : Prop :=
  ∀ function, e.function? = some function -> function.body.IsBlockOfCalls

/-- Rewriting a body decides whether the function captures where it may. -/
theorem functionBody_decidesOn : DecidesOn Function.FitsCaptures TransformError.IsPlacement
    Expr.HoldsBlock (Rewrites escapes) (functionBody escapes) := by
  intro mark signature body body' holds mapping
  obtain ⟨same, block⟩ := mapping_fits signature mapping (holds _ rfl)
  exact ((functionBody_decides block).makes).iff same.symm

/-- The check at the toplevel decides whether the forms capture nothing. -/
theorem checkTop_decides : ∀ top : List Toplevel,
    Decides (∀ form ∈ top, form.expr.hasCapture = false) TransformError.IsPlacement (checkTop top)
      fun _ => True
  | [] => (Decides.pure trivial).iff (iff_true_intro (List.forall_mem_nil _))
  | form :: rest => by
    refine Decides.iff List.forall_mem_cons ?_
    exact .bind (forbidCapture_decides _ _ form.expr) fun _ _ => checkTop_decides rest

/-! ## Wrappers -/

/-- The decorators of the function that an expression holds are known to the table. -/
def Expr.WrittenIn (table : DecoratorTable) (e : Expr) : Prop :=
  ∀ function, e.function? = some function ->
    ∀ name ∈ function.signature.decorators.map Prod.fst, ∃ decorator,
      table.lookup name = .ok decorator

/-- Rewriting writes no decorators, so those that are written stay known. -/
theorem writtenIn_closed : ClosedUnderRewriting escapes True (Expr.WrittenIn table) where
  moved {e mark} written _ := by
    cases e with
    | fn => exact fun _ held => Option.some.inj held ▸ written _ rfl
    | _ => exact nofun
  block _ _ := nofun
  cond _ := nofun
  short _ := nofun
  continuation _ _ := nofun
  nil _ _ := nofun
  handOver _ _ := nofun
  defer _ _ := nofun
  pass _ _ := nofun
  passJump _ _ := nofun
  cutCall _ _ _ := nofun
  cutRest _ _ := by
    rintro _ ⟨⟩ _ ⟨⟩

/-- Decorators are known after the bodies were rewritten if they were before. -/
theorem Mapping.writtenIn (mapping : Mapping (Rewrites escapes) e e')
    (all : e.All (Expr.WrittenIn table)) : e'.All (Expr.WrittenIn table) := by
  refine mapping.all ?_ ?_ all
  · intro mark signature body body' function all _ ofBody rewrites
    have inside := rewrites.of (writtenIn_closed.functionBody_all ofBody fun _ _ _ => trivial)
    refine Expr.all_fn.mpr ⟨?_, inside⟩
    rintro _ ⟨⟩
    rw [rewrites.of (functionBody_params _)]
    exact all.self ⟨signature, body⟩ rfl
  · intro e e' held mapping _
    cases mapping with
    | fn => cases held
    | _ => exact nofun

/-- A table that holds all decorators wraps every function whose decorators it knows. -/
theorem functionWrappers_succeeds
    (complete : ∀ decorator, (table.record? decorator).isSome = true) :
    StepsOn False (Expr.WrittenIn table) (fun _ _ => True) (functionWrappers table) := by
  intro mark signature body body' written _
  obtain ⟨wrappers, resolves⟩ := resolveWrappers_ends_iff.mpr
    ⟨written _ rfl, fun decorator _ => complete decorator⟩
  unfold functionWrappers
  rw [resolves]
  cases wrappers with
  | nil => exact .pure trivial
  | cons first rest => exact .bind (record_produces _) fun _ _ => .pure trivial

/-! ## Programs -/

/-- All captures in the program stand where captures may stand: as an item of the body of a function
inside `continuations`, and not in the call of another capture. The functions in an expression have
bodies of their own. -/
structure Program.PlacesCaptures (program : Program) : Prop where
  toplevel : ∀ form ∈ program.top, ∀ e, form.expr.Has e -> e.isCapture = false
  item : ∀ function ∈ program.functions, ∀ e, function.body.Has e -> e.isCapture = true ->
    function.signature.regions.cont = true ∧ ∃ mark items, function.body = .seq mark items ∧
      e ∈ items
  single : ∀ mark binders captured, .capture mark binders captured ∈ program.nodes ->
    ∀ e, captured.Has e -> e.isCapture = false

/-- What a body has is the body or something its parts have. -/
theorem Expr.Has.self_or_under {part : Expr} (has : e.Has part) :
    part = e ∨ ∃ child ∈ e.children, child.Has part := by
  induction has with
  | body => exact .inl rfl
  | child _ member ih =>
    rcases ih with rfl | ⟨child, inside, has⟩
    · exact .inr ⟨_, member, .body⟩
    · exact .inr ⟨child, inside, .child has member⟩

/-- A capture occurs in an expression if one is evaluated as part of it. -/
theorem Expr.hasCapture_iff (e : Expr) :
    e.hasCapture = true ↔ ∃ part, e.Has part ∧ part.isCapture = true := by
  induction e using Expr.induct_parts with
  | whole e ih =>
    rw [e.hasCapture_eq, Bool.or_eq_true, anyCapture_eq_any, List.any_eq_true]
    constructor
    · rintro (own | ⟨child, member, inside⟩)
      · exact ⟨e, .body, own⟩
      · obtain ⟨part, has, captures⟩ :=
          (ih child (Expr.children_subset_parts e member)).mp inside
        exact ⟨part, .under member has, captures⟩
    · rintro ⟨part, has, captures⟩
      rcases has.self_or_under with rfl | ⟨child, member, has⟩
      · exact .inl captures
      · exact .inr ⟨child, member, (ih child (Expr.children_subset_parts e member)).mpr
          ⟨part, has, captures⟩⟩

theorem Expr.hasCapture_eq_false_iff :
    e.hasCapture = false ↔ ∀ part, e.Has part -> part.isCapture = false := by
  rw [← Bool.not_eq_true, e.hasCapture_iff]
  simp

/-- Every expression in an expression is one of its body, or of the body of a function in it. -/
theorem Expr.has_of_mem (member : node ∈ e.nodes) :
    e.Has node ∨ ∃ function ∈ e.functions, function.body.Has node := by
  induction e using Expr.induct_parts with
  | whole e ih =>
    rw [e.nodes_parts, List.mem_cons, nodesOfAll_eq_flatMap, List.mem_flatMap] at member
    rcases member with rfl | ⟨part, isPart, inside⟩
    · exact .inl .body
    · have listed : ∀ function ∈ part.functions, function ∈ e.functions := by
        intro function member
        rw [e.functions_parts, functionsOfAll_eq_flatMap]
        exact List.mem_append_left _ (List.mem_flatMap.mpr ⟨part, isPart, member⟩)
      rcases ih part isPart inside with has | ⟨function, member, has⟩
      · cases e with
        | fn mark signature body =>
          obtain rfl := List.mem_singleton.mp isPart
          exact .inr ⟨⟨signature, part⟩, List.mem_append_right _ List.mem_cons_self, has⟩
        | _ => exact .inl (.under isPart has)
      · exact .inr ⟨function, listed function member, has⟩

/-- Every node belongs to a toplevel form or to the body of a function. -/
theorem Program.has_of_mem {program : Program} (member : node ∈ program.nodes) :
    (∃ form ∈ program.top, form.expr.Has node) ∨
      ∃ function ∈ program.functions, function.body.Has node := by
  obtain ⟨form, inTop, inside⟩ := List.mem_flatMap.mp member
  refine (Expr.has_of_mem inside).imp (fun has => ⟨form, inTop, has⟩) ?_
  rintro ⟨function, listed, has⟩
  refine ⟨function, Program.mem_functions_iff.mpr ?_, has⟩
  rw [functionsOfAll_eq_flatMap, List.flatMap_map]
  exact List.mem_flatMap.mpr ⟨form, inTop, listed⟩

/-- A capture that fits is an item of the body of a function inside `continuations`. -/
theorem Function.FitsCaptures.item (fits : function.FitsCaptures)
    (block : function.body.IsBlockOfCalls) (has : function.body.Has e)
    (captures : e.isCapture = true) : function.signature.regions.cont = true ∧
      e ∈ function.body.children ∧ e.FitsBody := by
  obtain ⟨⟨mark, items, same⟩, -⟩ := block
  have captured := (function.body.hasCapture_iff).mpr ⟨e, has, captures⟩
  unfold Function.FitsCaptures at fits
  split at fits
  · rename_i continuations
    refine ⟨continuations, ?_⟩
    rcases has.self_or_under with rfl | ⟨item, member, has⟩
    · rw [same] at captures
      cases captures
    · have fitting := fits item member
      cases isCapture : item.isCapture with
      | false =>
        rw [Expr.fitsBody_of_not isCapture] at fitting
        rw [(item.hasCapture_iff).mpr ⟨e, has, captures⟩] at fitting
        cases fitting
      | true =>
        cases item with
        | capture captureMark binders call =>
          rcases has.self_or_under with rfl | ⟨child, inside, under⟩
          · exact ⟨member, fitting⟩
          · obtain rfl := List.mem_singleton.mp inside
            rw [Expr.FitsBody, (child.hasCapture_iff).mpr ⟨e, under, captures⟩] at fitting
            cases fitting
        | _ => cases isCapture
  · rw [captured] at fits
    cases fits

namespace Program

variable {program : Program}

variable {source : String} {path : Option String}

/-- What each function of a parsed program has for a body. -/
theorem parse_isBlockOfCalls (parsed : Program.parse source path = .ok program) :
    ∀ form ∈ program.top, form.expr.All Expr.HoldsBlock := by
  intro form inTop node inside function held
  obtain ⟨-, regions, -, all⟩ := (parse_reads parsed).2 form inTop
  cases node with
  | fn mark signature body =>
    cases held
    obtain ⟨-, -, -, block⟩ := (all _ inside).source
    refine ⟨block, fun item member => ?_⟩
    have nested := (Expr.all_fn.mp (all.nested _ inside)).2
    have legible := (nested.part (Expr.children_subset_parts _ member)).self.legible
    cases item with
    | capture => exact legible
    | _ => trivial
  | _ => cases held

/-- If no expression stands twice in a body, captures stand where they may if no toplevel form
captures and those of every function fit. -/
theorem placesCaptures_iff (distinct : ∀ function ∈ program.functions, function.body.nodes.Nodup)
    (blocks : ∀ form ∈ program.top, form.expr.All Expr.HoldsBlock) : program.PlacesCaptures ↔
      (∀ form ∈ program.top, form.expr.hasCapture = false) ∧
        ∀ form ∈ program.top, ∀ function ∈ form.expr.functions, function.FitsCaptures := by
  have blockOf : ∀ function ∈ program.functions, function.body.IsBlockOfCalls := by
    intro function member
    obtain ⟨mark, inside⟩ := Program.mem_functions.mp member
    obtain ⟨form, inTop, inside⟩ := List.mem_flatMap.mp inside
    exact blocks form inTop _ inside _ rfl
  have listed : (∀ form ∈ program.top, ∀ function ∈ form.expr.functions, function.FitsCaptures) ↔
      ∀ function ∈ program.functions, function.FitsCaptures := by
    simp only [Program.mem_functions_iff, functionsOfAll_eq_flatMap, List.flatMap_map,
      List.mem_flatMap, forall_exists_index, and_imp]
    exact ⟨fun all function form inTop member => all form inTop function member,
      fun all form inTop function member => all function form inTop member⟩
  rw [listed]
  constructor
  · intro places
    refine ⟨fun form inTop => Expr.hasCapture_eq_false_iff.mpr (places.toplevel form inTop),
      fun function member => ?_⟩
    obtain ⟨⟨mark, items, same⟩, -⟩ := blockOf function member
    have inItems := places.item function member
    have apart : (nodesOfAll items).Nodup := by
      have whole := Expr.parts_nodup (distinct function member)
      rwa [same] at whole
    unfold Function.FitsCaptures
    rw [same] at inItems ⊢
    split
    · intro item isItem
      cases isCapture : item.isCapture with
      | true =>
        cases item with
        | capture captureMark binders captured =>
          obtain ⟨functionMark, inside⟩ := Program.mem_functions.mp member
          have inBody : (Expr.seq mark items).Has (.capture captureMark binders captured) :=
            .child .body isItem
          have inProgram :=
            Program.all_body (fun _ member => member) inside _ (same ▸ inBody.mem_nodes)
          exact Expr.hasCapture_eq_false_iff.mpr (places.single _ _ _ inProgram)
        | _ => cases isCapture
      | false =>
        refine (Expr.fitsBody_of_not isCapture).mpr
          (Expr.hasCapture_eq_false_iff.mpr fun e has => ?_)
        refine Bool.eq_false_iff.mpr fun captures => ?_
        -- the capture would be an item of its own
        obtain ⟨-, _, _, ⟨⟩, listed⟩ := inItems e (.under isItem has) captures
        obtain rfl := eq_of_mem_nodes apart isItem listed has.mem_nodes e.self_mem_nodes
        rw [isCapture] at captures
        cases captures
    · rename_i direct
      refine Expr.hasCapture_eq_false_iff.mpr fun e has => Bool.eq_false_iff.mpr fun captures => ?_
      exact direct (inItems e has captures).1
  · rintro ⟨top, fits⟩
    have fitting : ∀ function ∈ program.functions, ∀ e, function.body.Has e ->
        e.isCapture = true -> function.signature.regions.cont = true ∧
          e ∈ function.body.children ∧ e.FitsBody :=
      fun function member e => (fits function member).item (blockOf function member)
    refine ⟨fun form inTop => Expr.hasCapture_eq_false_iff.mp (top form inTop), ?_, ?_⟩
    · intro function member e has captures
      obtain ⟨continuations, isItem, -⟩ := fitting function member e has captures
      obtain ⟨⟨mark, items, same⟩, -⟩ := blockOf function member
      rw [same] at isItem
      exact ⟨continuations, mark, items, same, isItem⟩
    · intro mark binders captured member
      rcases Program.has_of_mem member with ⟨form, inTop, has⟩ | ⟨function, listed, has⟩
      · cases Expr.hasCapture_eq_false_iff.mp (top form inTop) _ has
      · exact Expr.hasCapture_eq_false_iff.mp (fitting function listed _ has rfl).2.2

/-- The transformation of a program decides whether its captures stand where they may. -/
theorem transform_decides_captures (parsed : Program.parse source path = .ok program)
    (complete : ∀ decorator, (table.record? decorator).isSome = true)
    (known : ∀ function ∈ program.functions, ∀ name ∈ function.signature.decorators.map Prod.fst,
      ∃ decorator, table.lookup name = .ok decorator) :
    Decides program.PlacesCaptures TransformError.IsPlacement
      (toplevels table escapes program.top) fun _ => True := by
  have distinct : ∀ function ∈ program.functions, function.body.nodes.Nodup :=
    fun function member => (parse_body_distinct parsed member).of_map _
  have blocks := parse_isBlockOfCalls parsed
  have written : ∀ form ∈ program.top, form.expr.All (Expr.WrittenIn table) := by
    intro form inTop node inside function held
    cases node with
    | fn mark signature body =>
      cases held
      exact known _ (Program.mem_functions_of_mem (List.mem_flatMap.mpr ⟨form, inTop, inside⟩))
    | _ => cases held
  refine (Decides.bind (checkTop_decides program.top) fun _ _ => ?_).iff
    (placesCaptures_iff distinct blocks)
  refine (mapFunctionsOfTop_decides functionBody_decidesOn program.top blocks).before
    fun middle rewriting => ?_
  have kept := rewriting.exprs.all (fun _ _ mapping => mapping.writtenIn)
    (allOf_map_expr.mpr written)
  exact (mapFunctionsOfTop_mapping (functionWrappers_succeeds complete) middle
    (allOf_map_expr.mp kept)).imp fun _ _ => trivial

end Program

end Trampoline
