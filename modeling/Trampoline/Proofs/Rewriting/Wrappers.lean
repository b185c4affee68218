import Trampoline.Proofs.Simulation.Relation
import Trampoline.Proofs.Simulation.Programs
import Trampoline.Proofs.Syntax.Steps

/-!
# Functions get their wrappers

The second half of the transformation gives every function the wrappers that its blocks imply. What
was related to a source without them is then related with them.
-/

namespace Trampoline

open Transform

/-- The comparison with functions that have their wrappers. -/
def Rewriting.wrapped (mode : Rewriting) : Rewriting := { mode with dressed := true }

variable {mode : Rewriting} {fallible : Prop}

variable {signature target : Signature}

/-- Without decorators a function gets the implied wrappers. -/
theorem resolveWrappers_default (bare : signature.decorators = []) :
    resolveWrappers .default signature = .ok (impliedWrappers signature) := by
  obtain ⟨id, name, params, decorators, ⟨tco, cont, isLazy⟩, kind, wrappers⟩ := signature
  simp only at bare
  subst bare
  cases kind <;> cases tco <;> cases cont <;> cases isLazy <;> rfl

/-- Without decorators a function gets its implied wrappers, and nothing else changes. -/
theorem functionWrappers_produces (bare : signature.decorators = []) (body : Expr) :
    Produces fallible (functionWrappers .default ⟨signature, body⟩)
      (· = ⟨{ signature with wrappers := impliedWrappers signature }, body⟩) := by
  simp only [functionWrappers, resolveWrappers_default bare]
  cases (impliedWrappers signature).isEmpty
  · exact ⟨fun _ => .inl ⟨_, _, rfl, rfl⟩⟩
  · exact .pure rfl

/-- Related signatures stay related when the target gets its wrappers. -/
theorem SignatureRel.wrapped (undressed : mode.dressed = false) {how : Treatment}
    {source : Signature} (same : SignatureRel mode how source target) :
    SignatureRel mode.wrapped how source { target with wrappers := impliedWrappers target } :=
  { same with
    wrappers := fun _ => (same.pending undressed).2.2
    pending := fun dressed => by simp [Rewriting.wrapped] at dressed }

/-- A signature of a continuation stays one with its wrappers. -/
theorem ContinuationSignature.wrapped {name : String}
    (continues : ContinuationSignature name target) :
    ContinuationSignature name { target with wrappers := impliedWrappers target } :=
  { continues with }

mutual

/-- Related expressions stay related when the target gets its wrappers. -/
theorem ExprRel.wrapped (undressed : mode.dressed = false) :
    ∀ {e e' : Expr}, ExprRel mode e e' ->
      Produces fallible (e'.mapFunctions (functionWrappers .default)) (ExprRel mode.wrapped e)
  | _, _, .lit => by
    simp only [Expr.mapFunctions]
    exact .pure .lit
  | _, _, .var seen => by
    simp only [Expr.mapFunctions]
    exact .pure (.var seen)
  | _, _, .fn same bodies => by
    simp only [Expr.mapFunctions]
    refine .bind (BodyRel.wrapped undressed bodies) fun body bodies => ?_
    refine .bind (functionWrappers_produces (same.pending undressed).1 body) ?_
    rintro _ rfl
    exact .pure (.fn (same.wrapped undressed) bodies)
  | _, _, .call funcs values named => by
    simp only [Expr.mapFunctions]
    refine .bind (ExprRel.wrapped undressed funcs) fun func funcs => ?_
    refine .bind (ExprsRel.wrapped undressed values) fun args values => ?_
    exact .bind (NamedRel.wrapped undressed named) fun kwargs named =>
      .pure (.call funcs values named)
  | _, _, .condNone same => by
    simp only [Expr.mapFunctions]
    exact .bind (ArmsRel.wrapped undressed same) fun arms same => .pure (.condNone same)
  | _, _, .condSome same other => by
    simp only [Expr.mapFunctions]
    refine .bind (ArmsRel.wrapped undressed same) fun arms same => ?_
    exact .bind (ExprRel.wrapped undressed other) fun alt other => .pure (.condSome same other)
  | _, _, .short same => by
    simp only [Expr.mapFunctions]
    exact .bind (ExprsRel.wrapped undressed same) fun es same => .pure (.short same)
  | _, _, .seq same => by
    simp only [Expr.mapFunctions]
    exact .bind (ExprsRel.wrapped undressed same) fun es same => .pure (.seq same)
  | _, _, .bind seen same => by
    simp only [Expr.mapFunctions]
    exact .bind (ExprRel.wrapped undressed same) fun e same => .pure (.bind seen same)
  | _, _, .assign seen same => by
    simp only [Expr.mapFunctions]
    exact .bind (ExprRel.wrapped undressed same) fun e same => .pure (.assign seen same)
  | _, _, .loop tests bodies => by
    simp only [Expr.mapFunctions]
    refine .bind (ExprRel.wrapped undressed tests) fun test tests => ?_
    exact .bind (ExprRel.wrapped undressed bodies) fun body bodies => .pure (.loop tests bodies)

theorem ExprsRel.wrapped (undressed : mode.dressed = false) :
    ∀ {es es' : List Expr}, ExprsRel mode es es' ->
      Produces fallible (mapFunctionsOfAll (functionWrappers .default) es')
        (ExprsRel mode.wrapped es)
  | _, _, .nil => by
    simp only [mapFunctionsOfAll]
    exact .pure .nil
  | _, _, .cons first rest => by
    simp only [mapFunctionsOfAll]
    refine .bind (ExprRel.wrapped undressed first) fun e first => ?_
    exact .bind (ExprsRel.wrapped undressed rest) fun es rest => .pure (.cons first rest)

/-- Related keyword arguments stay related when the targets get their wrappers. -/
theorem NamedRel.wrapped (undressed : mode.dressed = false) :
    ∀ {kwargs kwargs' : List (String × Expr)}, NamedRel mode kwargs kwargs' ->
      Produces fallible (mapFunctionsOfKwargs (functionWrappers .default) kwargs')
        (NamedRel mode.wrapped kwargs)
  | _, _, .nil => by
    simp only [mapFunctionsOfKwargs]
    exact .pure .nil
  | _, _, .cons names first rest => by
    simp only [mapFunctionsOfKwargs]
    refine .bind (ExprRel.wrapped undressed first) fun e first => ?_
    exact .bind (NamedRel.wrapped undressed rest) fun es rest => .pure (.cons names first rest)

/-- Related arms stay related when the targets get their wrappers. -/
theorem ArmsRel.wrapped (undressed : mode.dressed = false) :
    ∀ {arms arms' : List (Expr × Expr)}, ArmsRel mode arms arms' ->
      Produces fallible (mapFunctionsOfArms (functionWrappers .default) arms')
        (ArmsRel mode.wrapped arms)
  | _, _, .nil => by
    simp only [mapFunctionsOfArms]
    exact .pure .nil
  | _, _, .cons tests bodies rest => by
    simp only [mapFunctionsOfArms]
    refine .bind (ExprRel.wrapped undressed tests) fun test tests => ?_
    refine .bind (ExprRel.wrapped undressed bodies) fun body bodies => ?_
    exact .bind (ArmsRel.wrapped undressed rest) fun es rest => .pure (.cons tests bodies rest)

theorem BodyRel.wrapped (undressed : mode.dressed = false) :
    ∀ {how : Treatment} {body body' : Expr}, BodyRel mode how body body' ->
      Produces fallible (body'.mapFunctions (functionWrappers .default))
        (BodyRel mode.wrapped how body)
  | _, _, _, .kept same => .imp (ExprRel.wrapped undressed same) fun _ => .kept
  | _, _, _, .deferring same => .imp (TailRel.wrapped undressed same) fun _ => .deferring
  | _, _, _, .passing same => by
    simp only [Expr.mapFunctions]
    exact .bind (CutRel.wrapped undressed same) fun items same => .pure (.passing same)

theorem TailRel.wrapped (undressed : mode.dressed = false) :
    ∀ {how : Treatment} {e e' : Expr}, TailRel mode how e e' ->
      Produces fallible (e'.mapFunctions (functionWrappers .default)) (TailRel mode.wrapped how e)
  | _, _, _, .keep may same => .imp (ExprRel.wrapped undressed same) fun _ => .keep may
  | _, _, _, .defer funcs values named => by
    simp only [Expr.mapFunctions]
    refine .bind (ExprRel.wrapped undressed funcs) fun func funcs => ?_
    refine .bind (ExprsRel.wrapped undressed values) fun args values => ?_
    exact .bind (NamedRel.wrapped undressed named) fun kwargs named =>
      .pure (.defer funcs values named)
  | _, _, _, .pass funcs values named => by
    simp only [Expr.mapFunctions, pure_bind]
    refine .bind (ExprRel.wrapped undressed funcs) fun func funcs => ?_
    refine .bind (ExprsRel.wrapped undressed values) fun args values => ?_
    exact .bind (NamedRel.wrapped undressed named) fun kwargs named =>
      .pure (.pass funcs values named)
  | _, _, _, .handOver same => by
    simp only [Expr.mapFunctions, mapFunctionsOfAll, mapFunctionsOfKwargs, pure_bind, bind_assoc]
    exact .bind (ExprRel.wrapped undressed same) fun e same => .pure (.handOver same)
  | _, _, _, .handOverNil => by
    simp only [Expr.mapFunctions, mapFunctionsOfAll, mapFunctionsOfKwargs, pure_bind]
    exact .pure .handOverNil
  | _, _, _, .condNone may same => by
    simp only [Expr.mapFunctions]
    exact .bind (TailArmsRel.wrapped undressed same) fun arms same => .pure (.condNone may same)
  | _, _, _, .condSome same other => by
    simp only [Expr.mapFunctions]
    refine .bind (TailArmsRel.wrapped undressed same) fun arms same => ?_
    exact .bind (TailRel.wrapped undressed other) fun alt other => .pure (.condSome same other)
  | _, _, _, .short may same => by
    simp only [Expr.mapFunctions]
    exact .bind (LastRel.wrapped undressed same) fun es same => .pure (.short may same)
  | _, _, _, .seq same => by
    simp only [Expr.mapFunctions]
    exact .bind (LastRel.wrapped undressed same) fun es same => .pure (.seq same)

theorem LastRel.wrapped (undressed : mode.dressed = false) :
    ∀ {how : Treatment} {es es' : List Expr}, LastRel mode how es es' ->
      Produces fallible (mapFunctionsOfAll (functionWrappers .default) es')
        (LastRel mode.wrapped how es)
  | _, _, _, .one same => by
    simp only [mapFunctionsOfAll, pure_bind]
    exact .bind (TailRel.wrapped undressed same) fun e same => .pure (.one same)
  | _, _, _, .cons first rest => by
    simp only [mapFunctionsOfAll]
    refine .bind (ExprRel.wrapped undressed first) fun e first => ?_
    exact .bind (LastRel.wrapped undressed rest) fun es rest => .pure (.cons first rest)

theorem TailArmsRel.wrapped (undressed : mode.dressed = false) :
    ∀ {how : Treatment} {arms arms' : List (Expr × Expr)}, TailArmsRel mode how arms arms' ->
      Produces fallible (mapFunctionsOfArms (functionWrappers .default) arms')
        (TailArmsRel mode.wrapped how arms)
  | _, _, _, .nil => by
    simp only [mapFunctionsOfArms]
    exact .pure .nil
  | _, _, _, .cons tests bodies rest => by
    simp only [mapFunctionsOfArms]
    refine .bind (ExprRel.wrapped undressed tests) fun test tests => ?_
    refine .bind (TailRel.wrapped undressed bodies) fun body bodies => ?_
    exact .bind (TailArmsRel.wrapped undressed rest) fun es rest => .pure (.cons tests bodies rest)

theorem CutRel.wrapped (undressed : mode.dressed = false) :
    ∀ {items items' : List Expr}, CutRel mode items items' ->
      Produces fallible (mapFunctionsOfAll (functionWrappers .default) items')
        (CutRel mode.wrapped items)
  | _, _, .nil => by
    simp only [Expr.mapFunctions, mapFunctionsOfAll, mapFunctionsOfKwargs, pure_bind]
    exact .pure .nil
  | _, _, .one same => by
    simp only [mapFunctionsOfAll, pure_bind]
    exact .bind (TailRel.wrapped undressed same) fun e same => .pure (.one same)
  | _, _, .cons first more rest => by
    simp only [mapFunctionsOfAll]
    refine .bind (ExprRel.wrapped undressed first) fun e first => ?_
    exact .bind (CutRel.wrapped undressed rest) fun es rest => .pure (.cons first more rest)
  | _, _, .capture total seen continues funcs values named rest => by
    simp only [mapFunctionsOfAll, Expr.mapFunctions, pure_bind, bind_assoc]
    refine .bind (ExprRel.wrapped undressed funcs) fun func funcs => ?_
    refine .bind (ExprsRel.wrapped undressed values) fun args values => ?_
    refine .bind (NamedRel.wrapped undressed named) fun kwargs named => ?_
    refine .bind (CutRel.wrapped undressed rest) fun items rest => ?_
    refine .bind (functionWrappers_produces continues.decorators _) ?_
    rintro _ rfl
    exact .pure (.capture total seen continues.wrapped funcs values named rest)

end

/-- Toplevel forms get the wrappers of their functions. -/
theorem TopRel.wrapped (undressed : mode.dressed = false) {top top' : List Toplevel}
    (related : TopRel mode top top') :
    Produces fallible (mapFunctionsOfTop (functionWrappers .default) top')
      (TopRel mode.wrapped top) := by
  induction related with
  | nil =>
    simp only [mapFunctionsOfTop]
    exact .pure .nil
  | define same _ ih =>
    simp only [mapFunctionsOfTop]
    refine .bind (same.wrapped undressed) fun e same => ?_
    exact .bind ih fun rest others => .pure (.define same others)
  | exec same _ ih =>
    simp only [mapFunctionsOfTop]
    refine .bind (same.wrapped undressed) fun e same => ?_
    exact .bind ih fun rest others => .pure (.exec same others)

end Trampoline
