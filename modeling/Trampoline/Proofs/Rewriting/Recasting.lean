import Trampoline.Proofs.Rewriting.Forests
import Trampoline.Proofs.Rewriting.Nesting
import Trampoline.Proofs.Syntax.Recast

/-!
# Rewriting programs with other places and decorators

The transformation does not look at places, and of the decorators that a function is written with
only at which there are. So it does the same to a program with other places and with its decorators
in another order.
-/

namespace Trampoline

open Transform

section Recasting

variable {place : Span -> Span} {redecorate : Redecoration} {escapes : List String}

/-! ## Captures -/

/-- Recast expressions capture if the expressions do. -/
theorem anyCapture_recast {es : List Expr}
    (each : ∀ e ∈ es, (e.recast place redecorate).hasCapture = e.hasCapture) :
    anyCapture (es.map (Expr.recast place redecorate)) = anyCapture es := by
  induction es with
  | nil => rfl
  | cons e rest ih =>
    obtain ⟨first, others⟩ := List.forall_mem_cons.mp each
    rw [List.map_cons, anyCapture, anyCapture, first, ih others]

variable (place redecorate) in
/-- A recast expression is a capture if the expression is. -/
theorem Expr.isCapture_recast (e : Expr) :
    (e.recast place redecorate).isCapture = e.isCapture := by
  cases e with
  | cond _ _ alt => cases alt <;> rfl
  | jump _ _ _ _ cc => cases cc <;> rfl
  | _ => rfl

/-- A recast expression captures if the expression does. -/
theorem Expr.hasCapture_recast (e : Expr) :
    (e.recast place redecorate).hasCapture = e.hasCapture := by
  induction e using Expr.induct_parts with
  | whole e ih =>
    rw [Expr.hasCapture_eq, Expr.hasCapture_eq, Expr.isCapture_recast, Expr.children_recast]
    cases held : e.function? with
    | none => rw [anyCapture_recast (Expr.parts_eq_children held ▸ ih)]
    | some function =>
      cases e with
      | fn => rfl
      | _ => cases held

/-! ## Steps -/

/-- The second step makes what the first makes, recast. -/
abbrev Recasts (place : Span -> Span) (redecorate : Redecoration) (step step' : Transform Expr) :
    Prop :=
  Alongside (fun e e' => e.recast place redecorate = e') step step'

theorem newMark_recast (place : Span -> Span) (span : Span) :
    Alongside (fun mark mark' => mark.recast place = mark') (newMark span) (newMark (place span)) :=
  fun _ => .inr ⟨_, _, _, rfl, rfl, rfl⟩

theorem Alongside.record (event : TransformEvent) :
    Alongside (fun _ _ => True) (record event) (record event) :=
  fun _ => .inr ⟨(), (), _, rfl, rfl, trivial⟩

theorem Alongside.newFunction : Alongside (· = ·) newFunction newFunction :=
  fun _ => .inr ⟨_, _, _, rfl, rfl, rfl⟩

theorem Alongside.fails {α β : Type} {related : α -> β -> Prop} (error : TransformError) :
    Alongside related (fail error : Transform α) (fail error : Transform β) :=
  fun _ => .inl ⟨_, _, rfl, rfl⟩

/-- Captures are forbidden in recast expressions as in the expressions. -/
theorem forbidCapture_recast (owner : Owner) (fault : CaptureFault) (e : Expr) :
    Alongside (fun _ _ => True) (forbidCapture owner fault e)
      (forbidCapture owner fault (e.recast place redecorate)) := by
  unfold forbidCapture
  rw [e.hasCapture_recast]
  split
  · exact .fails _
  · exact .pure trivial

variable (place redecorate) in
theorem continuationVar_recast (span : Span) :
    Recasts place redecorate (continuationVar span) (continuationVar (place span)) :=
  .bind (newMark_recast place span) fun _ _ same => .pure (congrArg (Expr.var · _) same)

/-- A recast value is handed over as the value is. -/
theorem handOver_recast (mark : Mark) (value : Expr) : Recasts place redecorate
    (handOver mark value) (handOver (mark.recast place) (value.recast place redecorate)) := by
  refine .bind (continuationVar_recast place redecorate mark.span) ?_
  rintro cc _ rfl
  exact .pure rfl

variable (place redecorate) in
/-- Handing `nil` over is alike at another place. -/
theorem handOverNil_recast (span : Span) :
    Recasts place redecorate (handOverNil span) (handOverNil (place span)) := by
  refine .bind (newMark_recast place span) ?_
  rintro valueMark _ rfl
  refine .bind (continuationVar_recast place redecorate span) ?_
  rintro cc _ rfl
  refine .bind (newMark_recast place span) ?_
  rintro mark _ rfl
  exact .pure rfl

/-- Relocating commutes with recasting. -/
theorem relocate_recast (e : Expr) :
    Recasts place redecorate (relocate e) (relocate (e.recast place redecorate)) := by
  unfold relocate Expr.span
  rw [e.mark_recast]
  refine .bind (newMark_recast place e.mark.span) ?_
  rintro mark _ rfl
  exact .pure (e.withMark_recast place redecorate mark).symm

/-- A value is moved behind a jump to the continuation. -/
theorem handOver_relocated (e : Expr) : Recasts place redecorate
    (relocate e >>= fun value => handOver e.mark value)
    (relocate (e.recast place redecorate) >>= fun value =>
      handOver (e.mark.recast place) value) := by
  refine .bind (relocate_recast e) ?_
  rintro value _ rfl
  exact handOver_recast e.mark value

/-! ## Bodies -/

mutual

/-- Handing over the values at the ends commutes with recasting. -/
theorem passTails_recast : ∀ e : Expr, Recasts place redecorate (passTails escapes e)
    (passTails escapes (e.recast place redecorate))
  | .seq mark [] => by
    simp only [Expr.recast, recastAll, passTails]
    refine .bind (handOverNil_recast place redecorate mark.span) ?_
    rintro jump _ rfl
    exact .pure rfl
  | .seq mark (e :: rest) => by
    have inside := passLast_recast (e :: rest)
    simp only [Expr.recast, recastAll, passTails] at inside ⊢
    refine .bind inside ?_
    rintro items _ rfl
    exact .pure rfl
  | .cond mark arms none => by
    simp only [Expr.recast, passTails]
    refine .bind (passArms_recast arms) ?_
    rintro arms _ rfl
    exact .pure rfl
  | .cond mark arms (some e) => by
    simp only [Expr.recast, passTails]
    refine .bind (passArms_recast arms) ?_
    rintro arms _ rfl
    refine .bind (passTails_recast e) ?_
    rintro e _ rfl
    exact .pure rfl
  | .short mark op [] => by
    simp only [Expr.recast, recastAll, passTails]
    exact handOver_relocated (.short mark op [])
  | .short mark op (e :: rest) => by
    have inside := passLast_recast (e :: rest)
    simp only [Expr.recast, recastAll, passTails] at inside ⊢
    refine .bind inside ?_
    rintro operands _ rfl
    exact .pure rfl
  | .call mark func args kwargs => by
    simp only [Expr.recast, passTails, Expr.isNameIn_recast]
    split
    · exact .pure rfl
    · refine .bind (continuationVar_recast place redecorate mark.span) ?_
      rintro cc _ rfl
      exact .pure rfl
  | .jump mark func args kwargs none => by
    simp only [Expr.recast, passTails]
    refine .bind (continuationVar_recast place redecorate mark.span) ?_
    rintro cc _ rfl
    exact .pure rfl
  | .jump mark func args kwargs (some cc) => .pure rfl
  | .lit mark value => handOver_relocated (.lit mark value)
  | .var mark name => handOver_relocated (.var mark name)
  | .fn mark signature body => handOver_relocated (.fn mark signature body)
  | .bind mark name e => handOver_relocated (.bind mark name e)
  | .assign mark name e => handOver_relocated (.assign mark name e)
  | .loop mark test body => handOver_relocated (.loop mark test body)
  | .capture mark binders e => handOver_relocated (.capture mark binders e)

theorem passLast_recast : ∀ es : List Expr,
    Alongside (fun es es' => recastAll place redecorate es = es') (passLast escapes es)
      (passLast escapes (recastAll place redecorate es))
  | [] => .pure rfl
  | [e] => by
    simp only [recastAll, passLast]
    refine .bind (passTails_recast e) ?_
    rintro e _ rfl
    exact .pure rfl
  | e :: next :: rest => by
    have inside := passLast_recast (next :: rest)
    simp only [recastAll, passLast] at inside ⊢
    refine .bind inside ?_
    rintro others _ rfl
    exact .pure rfl

theorem passArms_recast : ∀ arms : List (Expr × Expr),
    Alongside (fun arms arms' => recastArms place redecorate arms = arms') (passArms escapes arms)
      (passArms escapes (recastArms place redecorate arms))
  | [] => .pure rfl
  | (test, body) :: rest => by
    simp only [recastArms, passArms]
    refine .bind (passTails_recast body) ?_
    rintro body _ rfl
    refine .bind (passArms_recast rest) ?_
    rintro others _ rfl
    exact .pure rfl

end

mutual

/-- Deferring the calls at the ends commutes with recasting. -/
theorem Expr.deferTails_recast : ∀ e : Expr,
    (e.recast place redecorate).deferTails escapes = (e.deferTails escapes).recast place redecorate
  | .seq _ es | .short _ _ es => by
    simp only [Expr.recast, Expr.deferTails, deferLast_recast es]
  | .cond _ arms none => by simp only [Expr.recast, Expr.deferTails, deferArms_recast arms]
  | .cond _ arms (some e) => by
    simp only [Expr.recast, Expr.deferTails, deferArms_recast arms, e.deferTails_recast]
  | .call _ func args kwargs => by
    simp only [Expr.recast, Expr.deferTails, Expr.isNameIn_recast]
    split <;> rfl
  | .jump _ _ _ _ none | .jump _ _ _ _ (some _) | .lit .. | .var .. | .fn .. | .bind ..
  | .assign .. | .loop .. | .capture .. => rfl

theorem deferLast_recast : ∀ es : List Expr, deferLast escapes (recastAll place redecorate es) =
    recastAll place redecorate (deferLast escapes es)
  | [] => rfl
  | [e] => by simp only [recastAll, deferLast, e.deferTails_recast]
  | e :: next :: rest => by
    have inside := deferLast_recast (next :: rest)
    simp only [recastAll, deferLast] at inside ⊢
    rw [inside]

theorem deferArms_recast : ∀ arms : List (Expr × Expr),
    deferArms escapes (recastArms place redecorate arms) =
      recastArms place redecorate (deferArms escapes arms)
  | [] => rfl
  | (test, body) :: rest => by
    simp only [recastArms, deferArms, body.deferTails_recast, deferArms_recast rest]

end

/-- What comes of items recast. -/
abbrev RecastsAll (place : Span -> Span) (redecorate : Redecoration)
    (step step' : Transform (List Expr)) : Prop :=
  Alongside (fun es es' => recastAll place redecorate es = es') step step'

variable (bare : redecorate [] = [])

include bare in
/-- Cutting items commutes with recasting. -/
theorem cutItems_recast (owner : Owner) (regions : Regions) : ∀ (items : List Expr) (span : Span),
    RecastsAll place redecorate (cutItems escapes owner regions span items)
      (cutItems escapes owner regions (place span) (recastAll place redecorate items))
  | [], span => by
    simp only [recastAll, cutItems]
    refine .bind (handOverNil_recast place redecorate span) ?_
    rintro jump _ rfl
    exact .pure rfl
  | item :: rest, span => by
    have after := cutItems_recast owner regions rest
    cases isCapture : item.isCapture with
    | true =>
      cases item with
      | capture mark binders captured =>
        simp only [recastAll, Expr.recast, cutItems]
        refine .bind (forbidCapture_recast owner .nested captured) fun _ _ _ => ?_
        cases captured with
        | call callMark func args kwargs =>
          simp only [Expr.recast]
          refine .bind (newMark_recast place mark.span) ?_
          rintro bodyMark _ rfl
          refine .bind (after mark.span) ?_
          rintro items _ rfl
          refine .bind (.record _) fun _ _ _ => .bind .newFunction ?_
          rintro id _ rfl
          refine .bind (newMark_recast place mark.span) ?_
          rintro cont _ rfl
          refine .bind (newMark_recast place mark.span) ?_
          rintro jump _ rfl
          refine .pure ?_
          simp only [recastAll, Expr.recast, Signature.recast, continuationSignature, bare]
        | cond _ _ alt => cases alt <;> exact .fails _
        | jump _ _ _ _ cc => cases cc <;> exact .fails _
        | _ => exact .fails _
      | _ => cases isCapture
    | false =>
      have isCapture' := (item.isCapture_recast place redecorate).trans isCapture
      cases rest with
      | nil =>
        rw [recastAll, recastAll, cutItems_one isCapture, cutItems_one isCapture']
        refine .bind (forbidCapture_recast owner .notAStatement item) fun _ _ _ => ?_
        refine .bind (passTails_recast item) ?_
        rintro item _ rfl
        exact .pure rfl
      | cons next rest =>
        have after := after span
        rw [recastAll] at after ⊢
        rw [recastAll, cutItems_cons isCapture, cutItems_cons isCapture']
        refine .bind (forbidCapture_recast owner .notAStatement item) fun _ _ _ => ?_
        refine .bind after ?_
        rintro others _ rfl
        exact .pure rfl

include bare in
/-- A body that is no block is cut as a block of itself. -/
theorem cutRelocated_recast (owner : Owner) (regions : Regions) (body : Expr) :
    Recasts place redecorate
      (do
        let item ← relocate body
        let items ← cutItems escapes owner regions body.span [item]
        pure (.seq body.mark items))
      (do
        let item ← relocate (body.recast place redecorate)
        let items ← cutItems escapes owner regions (place body.span) [item]
        pure (.seq (body.mark.recast place) items)) := by
  refine .bind (relocate_recast body) ?_
  rintro item _ rfl
  refine .bind (cutItems_recast bare owner regions [item] body.span) ?_
  rintro items _ rfl
  exact .pure rfl

include bare in
/-- Cutting a body commutes with recasting. -/
theorem cutBody_recast (owner : Owner) (regions : Regions) (body : Expr) : Recasts place redecorate
    (cutBody escapes owner regions body)
    (cutBody escapes owner regions (body.recast place redecorate)) := by
  cases body with
  | seq mark items =>
    refine .bind (cutItems_recast bare owner regions items mark.span) ?_
    rintro items _ rfl
    exact .pure rfl
  | cond _ _ alt => cases alt <;> exact cutRelocated_recast bare owner regions _
  | jump _ _ _ _ cc => cases cc <;> exact cutRelocated_recast bare owner regions _
  | _ => exact cutRelocated_recast bare owner regions _

/-! ## Functions -/

/-- A step does the same to functions that are recast. -/
def StepRecasts (place : Span -> Span) (redecorate : Redecoration)
    (step : Function -> Transform Function) : Prop :=
  ∀ function, Alongside (fun other other' => other.recast place redecorate = other') (step function)
    (step (function.recast place redecorate))

include bare in
/-- Rewriting the bodies of functions does the same to functions that are recast. -/
theorem functionBody_recast : StepRecasts place redecorate (functionBody escapes) := by
  rintro ⟨signature, body⟩
  have regions : (signature.recast redecorate).regions = signature.regions := rfl
  have owner : (signature.recast redecorate).owner = signature.owner := rfl
  simp only [functionBody, Function.recast, regions, owner]
  by_cases continuations : signature.regions.cont = true
  · simp only [if_pos continuations]
    refine .bind (.record _) fun _ _ _ => .bind (cutBody_recast bare _ _ body) ?_
    rintro body _ rfl
    exact .pure rfl
  · simp only [if_neg continuations]
    refine .bind (forbidCapture_recast _ _ body) fun _ _ _ => ?_
    by_cases deferred : signature.regions.tco = true
    · simp only [if_pos deferred]
      refine .bind (.record _) fun _ _ _ => .pure ?_
      rw [Expr.deferTails_recast]
    · simp only [if_neg deferred]
      exact .pure rfl

/-- Other decorator lists with the same names. -/
def KeepsNames (redecorate : Redecoration) : Prop :=
  ∀ decorators name, name ∈ (redecorate decorators).map Prod.fst ↔ name ∈ decorators.map Prod.fst

theorem KeepsNames.empty (keeps : KeepsNames redecorate) : redecorate [] = [] := by
  have none : ∀ name, name ∉ (redecorate []).map Prod.fst := fun name member =>
    absurd ((keeps [] name).mp member) List.not_mem_nil
  exact List.map_eq_nil_iff.mp (List.eq_nil_iff_forall_not_mem.mpr none)

variable {table : DecoratorTable}

/-- Wrappers are chosen by the names of the decorators, so they are the same for recast
functions. -/
theorem functionWrappers_recast (distinct : table.Distinct) (keeps : KeepsNames redecorate) :
    StepRecasts place redecorate (functionWrappers table) := by
  rintro ⟨signature, body⟩
  unfold functionWrappers
  simp only [Function.recast]
  have names : ∀ name, name ∈ signature.decorators.map Prod.fst ↔
      name ∈ (signature.recast redecorate).decorators.map Prod.fst :=
    fun name => (keeps signature.decorators name).symm
  rcases resolveWrappers_ext distinct names rfl with
    ⟨error, error', rejects, rejects'⟩ | ⟨wrappers, resolves, resolves'⟩
  · rw [rejects, rejects']
    exact fun _ => .inl ⟨_, _, rfl, rfl⟩
  · simp only [resolves, resolves']
    split
    · exact .bind (.record _) fun _ _ _ => .pure rfl
    · exact .pure rfl

/-! ## Programs -/

section Functions

variable {step : Function -> Transform Function}

mutual

/-- A step that does the same to recast functions does the same in a recast expression. -/
theorem Expr.mapFunctions_recast (steps : StepRecasts place redecorate step) :
    ∀ e : Expr, Recasts place redecorate (e.mapFunctions step)
      ((e.recast place redecorate).mapFunctions step)
  | .lit mark value => .pure rfl
  | .var mark name => .pure rfl
  | .fn mark signature body => by
    simp only [Expr.recast, Expr.mapFunctions]
    refine .bind (Expr.mapFunctions_recast steps body) ?_
    rintro body _ rfl
    refine .bind (steps ⟨signature, body⟩) ?_
    rintro function _ rfl
    exact .pure rfl
  | .call mark func args kwargs => by
    simp only [Expr.recast, Expr.mapFunctions]
    refine .bind (Expr.mapFunctions_recast steps func) ?_
    rintro func _ rfl
    refine .bind (mapFunctionsOfAll_recast steps args) ?_
    rintro args _ rfl
    refine .bind (mapFunctionsOfKwargs_recast steps kwargs) ?_
    rintro kwargs _ rfl
    exact .pure rfl
  | .cond mark arms none => by
    simp only [Expr.recast, Expr.mapFunctions]
    refine .bind (mapFunctionsOfArms_recast steps arms) ?_
    rintro arms _ rfl
    exact .pure rfl
  | .cond mark arms (some e) => by
    simp only [Expr.recast, Expr.mapFunctions]
    refine .bind (mapFunctionsOfArms_recast steps arms) ?_
    rintro arms _ rfl
    refine .bind (Expr.mapFunctions_recast steps e) ?_
    rintro e _ rfl
    exact .pure rfl
  | .short mark op es => by
    simp only [Expr.recast, Expr.mapFunctions]
    refine .bind (mapFunctionsOfAll_recast steps es) ?_
    rintro es _ rfl
    exact .pure rfl
  | .seq mark es => by
    simp only [Expr.recast, Expr.mapFunctions]
    refine .bind (mapFunctionsOfAll_recast steps es) ?_
    rintro es _ rfl
    exact .pure rfl
  | .bind mark name e => by
    simp only [Expr.recast, Expr.mapFunctions]
    refine .bind (Expr.mapFunctions_recast steps e) ?_
    rintro e _ rfl
    exact .pure rfl
  | .assign mark name e => by
    simp only [Expr.recast, Expr.mapFunctions]
    refine .bind (Expr.mapFunctions_recast steps e) ?_
    rintro e _ rfl
    exact .pure rfl
  | .loop mark test body => by
    simp only [Expr.recast, Expr.mapFunctions]
    refine .bind (Expr.mapFunctions_recast steps test) ?_
    rintro test _ rfl
    refine .bind (Expr.mapFunctions_recast steps body) ?_
    rintro body _ rfl
    exact .pure rfl
  | .jump mark func args kwargs none => by
    simp only [Expr.recast, Expr.mapFunctions]
    refine .bind (Expr.mapFunctions_recast steps func) ?_
    rintro func _ rfl
    refine .bind (mapFunctionsOfAll_recast steps args) ?_
    rintro args _ rfl
    refine .bind (mapFunctionsOfKwargs_recast steps kwargs) ?_
    rintro kwargs _ rfl
    exact .pure rfl
  | .jump mark func args kwargs (some e) => by
    simp only [Expr.recast, Expr.mapFunctions]
    refine .bind (Expr.mapFunctions_recast steps func) ?_
    rintro func _ rfl
    refine .bind (mapFunctionsOfAll_recast steps args) ?_
    rintro args _ rfl
    refine .bind (mapFunctionsOfKwargs_recast steps kwargs) ?_
    rintro kwargs _ rfl
    refine .bind (Expr.mapFunctions_recast steps e) ?_
    rintro e _ rfl
    exact .pure rfl
  | .capture mark binders e => by
    simp only [Expr.recast, Expr.mapFunctions]
    refine .bind (Expr.mapFunctions_recast steps e) ?_
    rintro e _ rfl
    exact .pure rfl

theorem mapFunctionsOfAll_recast (steps : StepRecasts place redecorate step) :
    ∀ es : List Expr, RecastsAll place redecorate (mapFunctionsOfAll step es)
      (mapFunctionsOfAll step (recastAll place redecorate es))
  | [] => .pure rfl
  | e :: rest => by
    simp only [recastAll, mapFunctionsOfAll]
    refine .bind (Expr.mapFunctions_recast steps e) ?_
    rintro e _ rfl
    refine .bind (mapFunctionsOfAll_recast steps rest) ?_
    rintro others _ rfl
    exact .pure rfl

theorem mapFunctionsOfKwargs_recast (steps : StepRecasts place redecorate step) :
    ∀ kwargs : List (String × Expr),
      Alongside (fun kwargs kwargs' => recastKwargs place redecorate kwargs = kwargs')
        (mapFunctionsOfKwargs step kwargs)
        (mapFunctionsOfKwargs step (recastKwargs place redecorate kwargs))
  | [] => .pure rfl
  | (_, e) :: rest => by
    simp only [recastKwargs, mapFunctionsOfKwargs]
    refine .bind (Expr.mapFunctions_recast steps e) ?_
    rintro e _ rfl
    refine .bind (mapFunctionsOfKwargs_recast steps rest) ?_
    rintro others _ rfl
    exact .pure rfl

theorem mapFunctionsOfArms_recast (steps : StepRecasts place redecorate step) :
    ∀ arms : List (Expr × Expr),
      Alongside (fun arms arms' => recastArms place redecorate arms = arms')
        (mapFunctionsOfArms step arms) (mapFunctionsOfArms step (recastArms place redecorate arms))
  | [] => .pure rfl
  | (test, body) :: rest => by
    simp only [recastArms, mapFunctionsOfArms]
    refine .bind (Expr.mapFunctions_recast steps test) ?_
    rintro test _ rfl
    refine .bind (Expr.mapFunctions_recast steps body) ?_
    rintro body _ rfl
    refine .bind (mapFunctionsOfArms_recast steps rest) ?_
    rintro others _ rfl
    exact .pure rfl

end

/-- A step that does the same to recast functions does the same in recast toplevel forms. -/
theorem mapFunctionsOfTop_recast (steps : StepRecasts place redecorate step) (top : List Toplevel) :
    Alongside (fun top top' => top.map (Toplevel.recast place redecorate) = top')
      (mapFunctionsOfTop step top)
      (mapFunctionsOfTop step (top.map (Toplevel.recast place redecorate))) := by
  induction top with
  | nil => exact .pure rfl
  | cons form rest ih =>
    cases form with
    | define name bindee =>
      simp only [List.map_cons, Toplevel.recast, mapFunctionsOfTop]
      refine .bind (Expr.mapFunctions_recast steps bindee) ?_
      rintro bindee _ rfl
      refine .bind ih ?_
      rintro others _ rfl
      exact .pure rfl
    | exec e =>
      simp only [List.map_cons, Toplevel.recast, mapFunctionsOfTop]
      refine .bind (Expr.mapFunctions_recast steps e) ?_
      rintro e _ rfl
      refine .bind ih ?_
      rintro others _ rfl
      exact .pure rfl

end Functions

/-- Recast toplevel forms pass the check if the forms do. -/
theorem checkTop_recast (top : List Toplevel) :
    Alongside (fun _ _ => True) (checkTop top)
      (checkTop (top.map (Toplevel.recast place redecorate))) := by
  induction top with
  | nil => exact .pure trivial
  | cons form rest ih =>
    have same : (form.recast place redecorate).expr = form.expr.recast place redecorate := by
      cases form <;> rfl
    rw [List.map_cons, checkTop, checkTop, same]
    exact .bind (forbidCapture_recast .toplevel .atToplevel form.expr) fun _ _ _ => ih

/-- At distinct positions, the transformation does the same to a program with other places and with
its decorators written in another way. -/
theorem Program.transform_recast (distinct : table.Distinct) (keeps : KeepsNames redecorate)
    (program : Program) :
    (∃ error error', program.transform table escapes = .error error ∧
      (program.recast place redecorate).transform table escapes = .error error') ∨
    ∃ transformed transformed', program.transform table escapes = .ok transformed ∧
      (program.recast place redecorate).transform table escapes = .ok transformed' ∧
      transformed.program.recast place redecorate = transformed'.program := by
  have stages : Alongside (fun top top' => top.map (Toplevel.recast place redecorate) = top')
      (toplevels table escapes program.top)
      (toplevels table escapes (program.recast place redecorate).top) := by
    refine .bind (checkTop_recast program.top) fun _ _ _ => ?_
    refine .bind (mapFunctionsOfTop_recast (functionBody_recast keeps.empty) program.top) ?_
    rintro middle _ rfl
    exact mapFunctionsOfTop_recast (functionWrappers_recast distinct keeps) middle
  unfold Program.transform
  rcases stages ⟨program.counters, []⟩ with
    ⟨error, error', fails, fails'⟩ | ⟨top, _, ended, ends, ends', rfl⟩
  · refine .inl ⟨error, error', by rw [fails]; rfl, ?_⟩
    exact (congrArg (Except.map _) fails').trans rfl
  · refine .inr ⟨_, _, by rw [ends]; rfl, (congrArg (Except.map _) ends').trans rfl, rfl⟩

end Recasting

end Trampoline
