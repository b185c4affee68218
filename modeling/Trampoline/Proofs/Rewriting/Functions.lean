import Trampoline.Proofs.Rewriting.Tails
import Trampoline.Proofs.Rewriting.Wrappers

/-!
# Rewritten functions

The first half of the transformation rewrites every function body after the functions in it. What
stands in place of an expression is then related to the expression in direct style, if no capture
is in it; captures are left for the body around them, which is cut there.
-/

namespace Trampoline

open Transform

variable {mode : Rewriting} {escapes : List String}

/-! ## Programs that can be compared -/

/-- A function as the source has it, with what a comparison asks of it. -/
structure Rewriting.FitsFunction (mode : Rewriting) (escapes : List String)
    (signature : Signature) (body : Expr) : Prop where
  kind : signature.kind = .plain
  bare : signature.wrappers = []
  undecorated : signature.decorators = []
  strict : signature.regions.lazy = false
  seen : ∀ param ∈ signature.params, mode.Sees param
  block : ∃ mark items, body = .seq mark items
  passing : signature.regions.cont = true -> signature.regions.tco = true ∧
    mode.passing = true ∧ ∀ node ∈ body.tailPath, mode.HandsOver escapes node

/-- What a comparison asks of an expression on its own. Where there are captures, all returns are
handed over. -/
def Rewriting.Fits (mode : Rewriting) (escapes : List String) : Expr -> Prop
  | .var _ name => mode.Sees name
  | .fn _ signature body => mode.FitsFunction escapes signature body
  | .call _ _ _ kwargs => ∀ kwarg ∈ kwargs, mode.Names kwarg.1
  | .bind _ name _ => mode.Sees name
  | .assign _ name _ => mode.Sees name
  | .jump .. => False
  | .capture _ binders _ => mode.total = true ∧ ∃ name, binders = [name] ∧ mode.Sees name
  | _ => True

/-- Only where all returns are handed over there are captures. -/
theorem Expr.All.captures {e : Expr} (all : e.All (mode.Fits escapes))
    (captures : e.hasCapture = true) : mode.total = true := by
  obtain ⟨node, member, isCapture⟩ := e.exists_capture captures
  have fits := all node member
  cases node with
  | capture mark binders call => exact fits.1
  | _ => cases isCapture

theorem AllOf.captures {es : List Expr} (all : AllOf (mode.Fits escapes) es)
    (captures : anyCapture es = true) : mode.total = true :=
  Expr.All.captures (e := .seq default es) (Expr.all_seq.mpr ⟨trivial, all⟩) captures

/-! ## Expressions whose functions are rewritten -/

/-- Whether the body of a function is cut in an expression: at a capture, or in a block. -/
def Expr.isCut : Expr -> Bool
  | .seq .. | .capture .. => true
  | _ => false

mutual

/-- An expression, and the one in its place after the functions in it are rewritten. -/
inductive Mapped (mode : Rewriting) : Expr -> Expr -> Prop where
  | plain {e e'} : e.isCut = false -> e'.isCapture = false -> e'.hasCapture = e.hasCapture ->
      (e.hasCapture = false -> ExprRel mode e.direct e') -> Mapped mode e e'
  | seq {mark items items'} : MappedAll mode items items' ->
      Mapped mode (.seq mark items) (.seq mark items')
  | capture {mark binders call call'} : Mapped mode call call' ->
      Mapped mode (.capture mark binders call) (.capture mark binders call')

/-- Several expressions, one by one. -/
inductive MappedAll (mode : Rewriting) : List Expr -> List Expr -> Prop where
  | nil : MappedAll mode [] []
  | cons {e e' rest rest'} : Mapped mode e e' -> MappedAll mode rest rest' ->
      MappedAll mode (e :: rest) (e' :: rest')

end

mutual

theorem Mapped.hasCapture_eq : ∀ {e e' : Expr}, Mapped mode e e' -> e'.hasCapture = e.hasCapture
  | _, _, .plain _ _ same _ => same
  | _, _, .seq items => MappedAll.anyCapture_eq items
  | _, _, .capture _ => rfl

theorem MappedAll.anyCapture_eq : ∀ {es es' : List Expr}, MappedAll mode es es' ->
    anyCapture es' = anyCapture es
  | _, _, .nil => rfl
  | _, _, .cons first rest => by
    simp only [anyCapture, Mapped.hasCapture_eq first, MappedAll.anyCapture_eq rest]

end

mutual

/-- Without captures, rewritten functions make an expression that is related to the direct one. -/
theorem Mapped.related : ∀ {e e' : Expr}, Mapped mode e e' -> e.hasCapture = false ->
    ExprRel mode e.direct e'
  | _, _, .plain _ _ _ related, free => related free
  | _, _, .seq items, free => .seq (MappedAll.related items free)
  | _, _, .capture _, free => by simp [Expr.hasCapture] at free

theorem MappedAll.related : ∀ {es es' : List Expr}, MappedAll mode es es' ->
    anyCapture es = false -> ExprsRel mode (directAll es) es'
  | _, _, .nil, _ => .nil
  | _, _, .cons first rest, free => by
    simp only [anyCapture, Bool.or_eq_false_iff] at free
    exact .cons (Mapped.related first free.1) (MappedAll.related rest free.2)

end

/-! ## Bodies cut at captures -/

variable {regions : Regions} {mark : Mark} {items items' : List Expr} {body : Expr}
  {program : Program}

/-- The captured call becomes a jump to it, with the rest of the body as its continuation. -/
theorem cutCapture_produces (owner : Owner) (strict : regions.lazy = false)
    (total : mode.total = true) {name : String} (seen : mode.Sees name)
    {call call' : Expr} (mapped : Mapped mode call call') {span : Span}
    (after : Produces (mode.total = true) (cutItems escapes owner regions mark.span items')
      (CutRel mode (directAll items))) :
    Produces (mode.total = true)
      (cutItems escapes owner regions span (.capture mark [name] call' :: items'))
      (CutRel mode (directAll (.capture mark [name] call :: items))) := by
  simp only [cutItems]
  refine .bind (forbidCapture_produces owner .nested fun _ => total) fun _ free => ?_
  have related := mapped.related (mapped.hasCapture_eq ▸ free)
  cases call' with
  | call callMark func' args' kwargs' =>
    refine .bind (newMark_produces _) fun bodyMark _ => ?_
    refine .bind after fun rest' cut => ?_
    refine .bind (record_produces _) fun _ _ => ?_
    refine .bind newFunction_produces fun id _ => ?_
    refine .bind (newMark_produces _) fun cont _ => ?_
    refine .bind (newMark_produces _) fun jump _ => ?_
    simp only [directAll, Expr.direct]
    generalize call.direct = source at related
    cases related with
    | call funcs values named =>
      exact .pure (.capture total seen ⟨rfl, rfl, rfl, strict⟩ funcs values named cut)
  | _ => exact ⟨fun _ => .inr ⟨total, _, rfl⟩⟩

/-- Cutting items makes a block that is related to the direct items. -/
theorem cutItems_produces (owner : Owner) (strict : regions.lazy = false) :
    ∀ {items items' : List Expr}, MappedAll mode items items' ->
      AllOf (mode.Fits escapes) items ->
      (∀ node ∈ tailPathOfLast items, mode.HandsOver escapes node) -> ∀ span : Span,
        Produces (mode.total = true) (cutItems escapes owner regions span items')
          (CutRel mode (directAll items))
  | _, _, .nil, _, _, span => by
    simp only [cutItems]
    refine .bind (handOverNil_produces span) ?_
    rintro _ ⟨mark, ccMark, litMark, rfl⟩
    exact .pure .nil
  | item :: items, item' :: items', .cons mapped rest, all, handsOver, span => by
    obtain ⟨fits, others⟩ := allOf_cons.mp all
    have inner : ∀ node ∈ tailPathOfLast items, mode.HandsOver escapes node := by
      cases items with
      | nil => exact fun _ member => absurd member List.not_mem_nil
      | cons next items => exact handsOver
    have after := cutItems_produces owner strict rest others inner
    cases isCapture : item'.isCapture with
    | true =>
      cases mapped with
      | plain _ plain => simp [plain] at isCapture
      | seq => cases isCapture
      | @capture mark binders call call' mapped =>
        obtain ⟨total, name, rfl, seen⟩ := fits.self
        exact cutCapture_produces owner strict total seen mapped (after mark.span)
    | false =>
      have forbidden := forbidCapture_produces owner .notAStatement (e := item') fun captures =>
        fits.captures (mapped.hasCapture_eq ▸ captures)
      cases rest with
      | nil =>
        rw [cutItems_one isCapture]
        refine .bind forbidden fun _ free => ?_
        have related := mapped.related (mapped.hasCapture_eq ▸ free)
        exact .bind (passTails_produces escapes item related handsOver) fun e same =>
          .pure (.one same)
      | cons second rest =>
        rw [cutItems_cons isCapture]
        refine .bind forbidden fun _ free => ?_
        have related := mapped.related (mapped.hasCapture_eq ▸ free)
        exact .bind (after span) fun rest' cut => .pure (.cons related (List.cons_ne_nil _ _) cut)

/-! ## Functions -/

/-- Without blocks around it a function stays as it is. -/
theorem Rewriting.FitsFunction.signature (undressed : mode.dressed = false) {signature : Signature}
    (fits : mode.FitsFunction escapes signature body) {how : Treatment}
    (kept : how ≠ .passing) (implied : impliedWrappers signature = how.wrappers) :
    SignatureRel mode how signature signature where
  id := rfl
  name := rfl
  params := by cases how <;> first | rfl | exact absurd rfl kept
  seen := fits.seen
  passing := fun passing => absurd passing kept
  bare := fits.bare
  wrappers := fun dressed => by simp [undressed] at dressed
  pending := fun _ => ⟨fits.undecorated, fits.bare, implied⟩
  plain := ⟨fits.kind, fits.kind⟩
  strict := ⟨fits.strict, fits.strict⟩

/-- The blocks around a function imply its wrappers. -/
theorem impliedWrappers_eq {signature : Signature} (kind : signature.kind = .plain)
    (strict : signature.regions.lazy = false) : impliedWrappers signature =
      (if signature.regions.tco then [.trampolined] else []) ++
        if signature.regions.cont then [.continuations] else [] := by
  simp [impliedWrappers, kind, strict]

/-- A function that takes a continuation has it as its last parameter. -/
theorem Rewriting.FitsFunction.signature_passing (undressed : mode.dressed = false)
    {signature : Signature} (fits : mode.FitsFunction escapes signature body)
    (continuations : signature.regions.cont = true) :
    SignatureRel mode .passing signature
      { signature with params := withContinuationParam signature.params } := by
  obtain ⟨deferred, passing, _⟩ := fits.passing continuations
  have free : signature.params.contains continuationParam = false := by
    refine Bool.eq_false_iff.mpr fun bound => ?_
    exact (fits.seen _ (List.contains_iff_mem.mp bound)).1 passing rfl
  refine ⟨rfl, rfl, ?_, fits.seen, fun _ => passing, fits.bare, fun dressed => ?_, fun _ => ?_,
    ⟨fits.kind, fits.kind⟩, ⟨fits.strict, fits.strict⟩⟩
  · simp only [withContinuationParam, free, Bool.false_eq_true, if_false, Treatment.params]
  · simp [undressed] at dressed
  · refine ⟨fits.undecorated, fits.bare, ?_⟩
    refine Eq.trans (impliedWrappers_eq fits.kind fits.strict) ?_
    simp [deferred, continuations, Treatment.wrappers]

/-- Rewriting a body makes one that is related to the direct body. -/
theorem functionBody_produces (undressed : mode.dressed = false) {signature : Signature}
    (fits : mode.FitsFunction escapes signature (.seq mark items))
    (mapped : MappedAll mode items items') (all : AllOf (mode.Fits escapes) items) :
    Produces (mode.total = true) (functionBody escapes ⟨signature, .seq mark items'⟩)
      fun function => ∃ how, SignatureRel mode how signature function.signature ∧
        BodyRel mode how (.seq mark (directAll items)) function.body := by
  have whole : Mapped mode (.seq mark items) (.seq mark items') := .seq mapped
  unfold functionBody
  by_cases continuations : signature.regions.cont = true
  · obtain ⟨_, _, handsOver⟩ := fits.passing continuations
    simp only [if_pos continuations, cutBody, bind_assoc, pure_bind]
    refine .bind (record_produces _) fun _ _ => ?_
    refine .bind (cutItems_produces _ fits.strict mapped all
      (fun node member => handsOver node (List.mem_cons_of_mem _ member)) mark.span)
        fun cut same => ?_
    exact .pure ⟨.passing, fits.signature_passing undressed continuations, .passing same⟩
  · simp only [if_neg continuations]
    refine .bind (forbidCapture_produces _ _ fun captures =>
      all.captures (mapped.anyCapture_eq ▸ captures)) fun _ free => ?_
    have related := whole.related (whole.hasCapture_eq ▸ free)
    have implied := impliedWrappers_eq fits.kind fits.strict
    by_cases deferred : signature.regions.tco = true
    · simp only [if_pos deferred]
      refine .bind (record_produces _) fun _ _ => .pure ⟨.deferring, ?_, ?_⟩
      · exact fits.signature undressed Treatment.noConfusion
          (by simp [implied, deferred, continuations, Treatment.wrappers])
      · exact .deferring (related.defer escapes)
    · simp only [if_neg deferred]
      refine .pure ⟨.kept, ?_, .kept related⟩
      exact fits.signature undressed Treatment.noConfusion
        (by simp [implied, deferred, continuations, Treatment.wrappers])

/-! ## Programs -/

/-- What stands in place of keyword arguments. -/
def MappedKwargs (mode : Rewriting) (kwargs kwargs' : List (String × Expr)) : Prop :=
  anyCaptureInKwargs kwargs' = anyCaptureInKwargs kwargs ∧
    (anyCaptureInKwargs kwargs = false -> NamedRel mode (directKwargs kwargs) kwargs')

/-- What stands in place of the arms of a conditional. -/
def MappedArms (mode : Rewriting) (arms arms' : List (Expr × Expr)) : Prop :=
  anyCaptureInArms arms' = anyCaptureInArms arms ∧
    (anyCaptureInArms arms = false -> ArmsRel mode (directArms arms) arms')

mutual

/-- Rewriting the functions in an expression leaves the expression related to itself in direct
style. -/
theorem mapFunctions_produces (undressed : mode.dressed = false) : ∀ e : Expr,
    e.All (mode.Fits escapes) -> Produces (mode.total = true)
      (e.mapFunctions (functionBody escapes)) (Mapped mode e)
  | .lit mark value, _ => by
    simp only [Expr.mapFunctions]
    exact .pure (.plain rfl rfl rfl fun _ => .lit)
  | .var mark name, all => by
    simp only [Expr.mapFunctions]
    exact .pure (.plain rfl rfl rfl fun _ => .var all.self)
  | .fn mark signature body, all => by
    obtain ⟨fits, inside⟩ := Expr.all_fn.mp all
    simp only [Expr.mapFunctions]
    refine .bind (mapFunctions_produces undressed body inside) fun body' mapped => ?_
    obtain ⟨seqMark, items, rfl⟩ := fits.block
    cases mapped with
    | plain cut => cases cut
    | seq mapped =>
      refine .bind (functionBody_produces undressed fits mapped (Expr.all_seq.mp inside).2) ?_
      rintro function ⟨how, same, bodies⟩
      exact .pure (.plain rfl rfl rfl fun _ => .fn same bodies)
  | .call mark func args kwargs, all => by
    obtain ⟨names, funcs, values, named⟩ := Expr.all_call.mp all
    simp only [Expr.mapFunctions]
    refine .bind (mapFunctions_produces undressed func funcs) fun func' funcs => ?_
    refine .bind (mapFunctionsOfAll_produces undressed args values) fun args' values => ?_
    refine .bind (mapFunctionsOfKwargs_produces undressed kwargs names named)
      fun kwargs' named => ?_
    refine .pure (.plain rfl rfl ?_ fun free => ?_)
    · simp only [Expr.hasCapture, funcs.hasCapture_eq, values.anyCapture_eq, named.1]
    · simp only [Expr.hasCapture, Bool.or_eq_false_iff] at free
      exact .call (funcs.related free.1.1) (values.related free.1.2) (named.2 free.2)
  | .cond mark arms none, all => by
    simp only [Expr.mapFunctions]
    refine .bind (mapFunctionsOfArms_produces undressed arms (Expr.all_cond_none.mp all).2)
      fun arms' same => .pure (.plain rfl rfl ?_ fun free => ?_)
    · simp only [Expr.hasCapture, same.1]
    · simp only [Expr.hasCapture, Bool.or_false] at free
      exact .condNone (same.2 free)
  | .cond mark arms (some alt), all => by
    obtain ⟨_, ofArms, ofAlt⟩ := Expr.all_cond_some.mp all
    simp only [Expr.mapFunctions]
    refine .bind (mapFunctionsOfArms_produces undressed arms ofArms) fun arms' same => ?_
    refine .bind (mapFunctions_produces undressed alt ofAlt) fun alt' other =>
      .pure (.plain rfl rfl ?_ fun free => ?_)
    · simp only [Expr.hasCapture, same.1, other.hasCapture_eq]
    · simp only [Expr.hasCapture, Bool.or_eq_false_iff] at free
      exact .condSome (same.2 free.1) (other.related free.2)
  | .short mark op es, all => by
    simp only [Expr.mapFunctions]
    refine .bind (mapFunctionsOfAll_produces undressed es (Expr.all_short.mp all).2)
      fun es' same => .pure (.plain rfl rfl ?_ fun free => ?_)
    · simp only [Expr.hasCapture, same.anyCapture_eq]
    · exact .short (same.related free)
  | .seq mark es, all => by
    simp only [Expr.mapFunctions]
    exact .bind (mapFunctionsOfAll_produces undressed es (Expr.all_seq.mp all).2)
      fun es' same => .pure (.seq same)
  | .bind mark name e, all => by
    simp only [Expr.mapFunctions]
    refine .bind (mapFunctions_produces undressed e (Expr.all_bind.mp all).2)
      fun e' same => .pure (.plain rfl rfl ?_ fun free => ?_)
    · simp only [Expr.hasCapture, same.hasCapture_eq]
    · exact .bind all.self (same.related free)
  | .assign mark name e, all => by
    simp only [Expr.mapFunctions]
    refine .bind (mapFunctions_produces undressed e (Expr.all_assign.mp all).2)
      fun e' same => .pure (.plain rfl rfl ?_ fun free => ?_)
    · simp only [Expr.hasCapture, same.hasCapture_eq]
    · exact .assign all.self (same.related free)
  | .loop mark test body, all => by
    obtain ⟨_, ofTest, ofBody⟩ := Expr.all_loop.mp all
    simp only [Expr.mapFunctions]
    refine .bind (mapFunctions_produces undressed test ofTest) fun test' tests => ?_
    refine .bind (mapFunctions_produces undressed body ofBody) fun body' bodies =>
      .pure (.plain rfl rfl ?_ fun free => ?_)
    · simp only [Expr.hasCapture, tests.hasCapture_eq, bodies.hasCapture_eq]
    · simp only [Expr.hasCapture, Bool.or_eq_false_iff] at free
      exact .loop (tests.related free.1) (bodies.related free.2)
  | .jump .., all => all.self.elim
  | .capture mark binders e, all => by
    simp only [Expr.mapFunctions]
    exact .bind (mapFunctions_produces undressed e (Expr.all_capture.mp all).2)
      fun e' same => .pure (.capture same)

theorem mapFunctionsOfAll_produces (undressed : mode.dressed = false) : ∀ es : List Expr,
    AllOf (mode.Fits escapes) es -> Produces (mode.total = true)
      (mapFunctionsOfAll (functionBody escapes) es) (MappedAll mode es)
  | [], _ => by
    simp only [mapFunctionsOfAll]
    exact .pure .nil
  | e :: rest, all => by
    obtain ⟨first, others⟩ := allOf_cons.mp all
    simp only [mapFunctionsOfAll]
    refine .bind (mapFunctions_produces undressed e first) fun e' first => ?_
    exact .bind (mapFunctionsOfAll_produces undressed rest others) fun rest' others =>
      .pure (.cons first others)

theorem mapFunctionsOfKwargs_produces (undressed : mode.dressed = false) :
    ∀ kwargs : List (String × Expr), (∀ kwarg ∈ kwargs, mode.Names kwarg.1) ->
      AllOfKwargs (mode.Fits escapes) kwargs -> Produces (mode.total = true)
        (mapFunctionsOfKwargs (functionBody escapes) kwargs) (MappedKwargs mode kwargs)
  | [], _, _ => by
    simp only [mapFunctionsOfKwargs]
    exact .pure ⟨rfl, fun _ => .nil⟩
  | (name, e) :: rest, names, all => by
    obtain ⟨first, others⟩ := allOfKwargs_cons.mp all
    simp only [mapFunctionsOfKwargs]
    refine .bind (mapFunctions_produces undressed e first) fun e' first => ?_
    refine .bind (mapFunctionsOfKwargs_produces undressed rest
      (fun kwarg member => names kwarg (List.mem_cons_of_mem _ member)) others)
      fun rest' others => .pure ⟨?_, fun free => ?_⟩
    · simp only [anyCaptureInKwargs, first.hasCapture_eq, others.1]
    · simp only [anyCaptureInKwargs, Bool.or_eq_false_iff] at free
      exact .cons (names _ List.mem_cons_self) (first.related free.1) (others.2 free.2)

theorem mapFunctionsOfArms_produces (undressed : mode.dressed = false) :
    ∀ arms : List (Expr × Expr), AllOfArms (mode.Fits escapes) arms -> Produces (mode.total = true)
      (mapFunctionsOfArms (functionBody escapes) arms) (MappedArms mode arms)
  | [], _ => by
    simp only [mapFunctionsOfArms]
    exact .pure ⟨rfl, fun _ => .nil⟩
  | (test, body) :: rest, all => by
    obtain ⟨ofTest, ofBody, others⟩ := allOfArms_cons.mp all
    simp only [mapFunctionsOfArms]
    refine .bind (mapFunctions_produces undressed test ofTest) fun test' tests => ?_
    refine .bind (mapFunctions_produces undressed body ofBody) fun body' bodies => ?_
    refine .bind (mapFunctionsOfArms_produces undressed rest others)
      fun rest' others => .pure ⟨?_, fun free => ?_⟩
    · simp only [anyCaptureInArms, tests.hasCapture_eq, bodies.hasCapture_eq, others.1]
    · simp only [anyCaptureInArms, Bool.or_eq_false_iff] at free
      exact .cons (tests.related free.1.1) (bodies.related free.1.2) (others.2 free.2)

end

/-- All expressions in a program are as a comparison asks. -/
def Rewriting.FitsProgram (mode : Rewriting) (escapes : List String) (program : Program) : Prop :=
  ∀ node ∈ program.nodes, mode.Fits escapes node

/-- All expressions in toplevel forms are as a comparison asks. -/
def Rewriting.FitsTop (mode : Rewriting) (escapes : List String) (top : List Toplevel) : Prop :=
  ∀ form ∈ top, form.expr.All (mode.Fits escapes)

/-- The check at the toplevel passes if nothing is captured there. -/
theorem checkTop_produces : ∀ top : List Toplevel, mode.FitsTop escapes top ->
    Produces (mode.total = true) (checkTop top) fun _ => ∀ form ∈ top, form.expr.hasCapture = false
  | [], _ => .pure fun _ member => absurd member List.not_mem_nil
  | form :: rest, fits => by
    have first := fits form List.mem_cons_self
    have others := fun other member => fits other (List.mem_cons_of_mem _ member)
    simp only [checkTop]
    refine .bind (forbidCapture_produces _ _ first.captures) fun _ free => ?_
    exact (checkTop_produces rest others).imp fun _ frees =>
      List.forall_mem_cons.mpr ⟨free, frees⟩

/-- Rewriting the functions of toplevel forms relates them to the direct ones. -/
theorem mapFunctionsOfTop_produces (undressed : mode.dressed = false) : ∀ top : List Toplevel,
    mode.FitsTop escapes top -> (∀ form ∈ top, form.expr.hasCapture = false) ->
      Produces (mode.total = true) (mapFunctionsOfTop (functionBody escapes) top)
        (TopRel mode (top.map Toplevel.direct))
  | [], _, _ => by
    simp only [mapFunctionsOfTop]
    exact .pure .nil
  | form :: rest, fits, free => by
    obtain ⟨first, others⟩ := List.forall_mem_cons.mp fits
    obtain ⟨free, frees⟩ := List.forall_mem_cons.mp free
    have after := mapFunctionsOfTop_produces undressed rest others frees
    cases form with
    | define name bindee =>
      simp only [mapFunctionsOfTop]
      refine .bind (mapFunctions_produces undressed bindee first) fun e' same => ?_
      exact .bind after fun rest' others => .pure (.define (same.related free) others)
    | exec e =>
      simp only [mapFunctionsOfTop]
      refine .bind (mapFunctions_produces undressed e first) fun e' same => ?_
      exact .bind after fun rest' others => .pure (.exec (same.related free) others)

/-- Both halves of the transformation together relate toplevel forms to the direct ones. -/
theorem toplevels_produces (undressed : mode.dressed = false) {top : List Toplevel}
    (fits : mode.FitsTop escapes top) :
    Produces (mode.total = true) (toplevels .default escapes top)
      (TopRel mode.wrapped (top.map Toplevel.direct)) := by
  unfold toplevels
  refine .bind (checkTop_produces top fits) fun _ free => ?_
  refine .bind (mapFunctionsOfTop_produces undressed top fits free) fun top' same => ?_
  exact same.wrapped undressed

theorem Rewriting.FitsProgram.top (fits : mode.FitsProgram escapes program) :
    mode.FitsTop escapes program.top :=
  fun form member node inside => fits node (List.mem_flatMap.mpr ⟨form, member, inside⟩)

/-- A program that is transformed is related to itself in direct style. -/
theorem Program.transform_related (undressed : mode.dressed = false)
    (fits : mode.FitsProgram escapes program) {transformed : Transformed}
    (succeeds : program.transform .default escapes = .ok transformed) :
    TopRel mode.wrapped program.direct.top transformed.program.top := by
  unfold Program.transform at succeeds
  cases ends : (toplevels .default escapes program.top).run ⟨program.counters, []⟩ with
  | error error => simp [ends, Except.map] at succeeds
  | ok result =>
    obtain ⟨top, progress⟩ := result
    simp only [ends, Except.map, Except.ok.injEq] at succeeds
    subst succeeds
    exact (toplevels_produces undressed fits.top).of_ok ends

/-- Without captures a program can always be transformed. -/
theorem Program.transform_succeeds (undressed : mode.dressed = false) (partly : mode.total = false)
    (fits : mode.FitsProgram escapes program) :
    ∃ transformed, program.transform .default escapes = .ok transformed := by
  have produces := toplevels_produces undressed fits.top
  rw [partly] at produces
  rcases produces.ends ⟨program.counters, []⟩ with ⟨top, progress, ends, _⟩ | ⟨never, _⟩
  · refine ⟨⟨⟨top, progress.counters⟩, progress.log.reverse⟩, ?_⟩
    simp only [Program.transform, ends, Except.map]
  · cases never

end Trampoline
