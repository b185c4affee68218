import Trampoline.Transform.Program
import Trampoline.Proofs.Rewriting.Mapping
import Trampoline.Proofs.Rewriting.Steps

/-!
# Functions inside rewritten bodies

Rewriting a body moves the functions in it and adds continuation functions, but it keeps them all.
So every function of a program becomes one of the transformed program.
-/

namespace Trampoline

open Transform

variable {escapes : List String} {table : DecoratorTable}

/-! ## Bodies -/

/-- Another mark does not change the functions in an expression. -/
theorem Expr.functions_withMark (e : Expr) (mark : Mark) :
    (e.withMark mark).functions = e.functions := by
  cases e with
  | cond _ arms alt => cases alt <;> rfl
  | jump _ func args kwargs cc => cases cc <;> rfl
  | _ => rfl

mutual

/-- Deferring calls keeps the functions of a body. -/
theorem Expr.functions_deferTails : ∀ e : Expr, (e.deferTails escapes).functions = e.functions
  | .seq _ es => functionsOfAll_deferLast es
  | .cond _ arms none => by
    simp only [Expr.deferTails, Expr.functions, functionsOfArms_deferArms arms]
  | .cond _ arms (some e) => by
    simp only [Expr.deferTails, Expr.functions, functionsOfArms_deferArms arms,
      e.functions_deferTails]
  | .short _ _ es => functionsOfAll_deferLast es
  | .call _ func args kwargs => by
    simp only [Expr.deferTails]
    split <;> simp [Expr.functions]
  | .lit .. | .var .. | .fn .. | .bind .. | .assign .. | .loop .. | .jump .. | .capture .. => rfl

theorem functionsOfAll_deferLast : ∀ es : List Expr,
    functionsOfAll (deferLast escapes es) = functionsOfAll es
  | [] => rfl
  | [e] => by simp only [deferLast, functionsOfAll, e.functions_deferTails]
  | e :: next :: rest => by
    simp only [deferLast, functionsOfAll]
    exact congrArg (e.functions ++ ·) (functionsOfAll_deferLast (next :: rest))

theorem functionsOfArms_deferArms : ∀ arms : List (Expr × Expr),
    functionsOfArms (deferArms escapes arms) = functionsOfArms arms
  | [] => rfl
  | (test, body) :: rest => by
    simp only [deferArms, functionsOfArms, body.functions_deferTails,
      functionsOfArms_deferArms rest]

end

theorem relocate_functions (e : Expr) : Produces True (relocate e) (·.functions = e.functions) :=
  .bind (.any _) fun mark _ => .pure (e.functions_withMark mark)

/-- Handing a value over changes no functions. -/
theorem relocate_handOver_functions (e : Expr) (mark : Mark) :
    Produces True (relocate e >>= fun value => handOver mark value)
      (·.functions = e.functions) := by
  refine .bind (relocate_functions e) fun value same => ?_
  refine .bind (continuationVar_produces mark.span) ?_
  rintro _ ⟨ccMark, rfl⟩
  refine .pure ?_
  simp [Expr.functions, functionsOfAll, functionsOfKwargs, same]

mutual

/-- Passing returns keeps the functions of a body. -/
theorem passTails_functions : ∀ e : Expr,
    Produces True (passTails escapes e) (·.functions = e.functions)
  | .seq mark [] => by
    simp only [passTails]
    refine .bind (handOverNil_produces mark.span) ?_
    rintro _ ⟨jumpMark, ccMark, litMark, rfl⟩
    exact .pure rfl
  | .seq mark (e :: rest) => by
    simp only [passTails]
    exact .bind (passLast_functions (e :: rest)) fun items same => .pure same
  | .cond mark arms none => by
    simp only [passTails]
    refine .bind (passArms_functions arms) fun arms' same => .pure ?_
    simp only [Expr.functions, same]
  | .cond mark arms (some e) => by
    simp only [passTails]
    refine .bind (passArms_functions arms) fun arms' same => ?_
    refine .bind (passTails_functions e) fun e' same' => .pure ?_
    simp only [Expr.functions, same, same']
  | .short mark op [] => relocate_handOver_functions (.short mark op []) mark
  | .short mark op (e :: rest) => by
    simp only [passTails]
    exact .bind (passLast_functions (e :: rest)) fun operands same => .pure same
  | .call mark func args kwargs => by
    simp only [passTails]
    split
    · exact .pure rfl
    · refine .bind (continuationVar_produces mark.span) ?_
      rintro _ ⟨ccMark, rfl⟩
      exact .pure (List.append_nil _)
  | .jump mark func args kwargs none => by
    simp only [passTails]
    refine .bind (continuationVar_produces mark.span) ?_
    rintro _ ⟨ccMark, rfl⟩
    exact .pure rfl
  | .jump mark func args kwargs (some cc) => .pure rfl
  | .lit mark value => relocate_handOver_functions (.lit mark value) mark
  | .var mark name => relocate_handOver_functions (.var mark name) mark
  | .fn mark signature body => relocate_handOver_functions (.fn mark signature body) mark
  | .bind mark name e => relocate_handOver_functions (.bind mark name e) mark
  | .assign mark name e => relocate_handOver_functions (.assign mark name e) mark
  | .loop mark test body => relocate_handOver_functions (.loop mark test body) mark
  | .capture mark binders e => relocate_handOver_functions (.capture mark binders e) mark

theorem passLast_functions : ∀ es : List Expr,
    Produces True (passLast escapes es) (functionsOfAll · = functionsOfAll es)
  | [] => .pure rfl
  | [e] => by
    simp only [passLast]
    refine .bind (passTails_functions e) fun e' same => .pure ?_
    simp only [functionsOfAll, same]
  | e :: next :: rest => by
    simp only [passLast]
    refine .bind (passLast_functions (next :: rest)) fun rest' same => .pure ?_
    exact congrArg (e.functions ++ ·) same

theorem passArms_functions : ∀ arms : List (Expr × Expr),
    Produces True (passArms escapes arms) (functionsOfArms · = functionsOfArms arms)
  | [] => .pure rfl
  | (test, body) :: rest => by
    simp only [passArms]
    refine .bind (passTails_functions body) fun body' same => ?_
    refine .bind (passArms_functions rest) fun rest' same' => .pure ?_
    simp only [functionsOfArms, same, same']

end

/-- Cutting a block keeps its functions, beside the continuation functions. -/
theorem cutItems_functions (owner : Owner) (regions : Regions) : ∀ (items : List Expr)
    (span : Span), Produces True (cutItems escapes owner regions span items)
      (functionsOfAll items ⊆ functionsOfAll ·)
  | [], _ => .bind (.any _) fun _ _ => .pure (List.nil_subset _)
  | item :: rest, span => by
    have after := cutItems_functions owner regions rest
    cases isCapture : item.isCapture with
    | true =>
      cases item with
      | capture mark binders captured =>
        simp only [cutItems]
        refine .bind (.any _) fun _ _ => ?_
        cases captured with
        | call callMark func args kwargs =>
          refine .bind (.any _) fun bodyMark _ => .bind (after mark.span) fun items kept => ?_
          refine .bind (.any _) fun _ _ => .bind (.any _) fun id _ => ?_
          refine .bind (.any _) fun cont _ => .bind (.any _) fun jump _ => .pure ?_
          simp only [functionsOfAll, Expr.functions, List.append_nil]
          exact List.append_subset.mpr ⟨List.subset_append_left _ _,
            List.subset_append_of_subset_right _ (List.subset_append_of_subset_left _ kept)⟩
        | _ => exact ⟨fun _ => .inr ⟨trivial, _, rfl⟩⟩
      | _ => cases isCapture
    | false =>
      cases rest with
      | nil =>
        rw [cutItems_one isCapture]
        refine .bind (.any _) fun _ _ => .bind (passTails_functions item) fun item' same => .pure ?_
        simp only [functionsOfAll, same, List.Subset.refl]
      | cons next rest =>
        rw [cutItems_cons isCapture]
        refine .bind (.any _) fun _ _ => .bind (after span) fun items kept => .pure ?_
        simp only [functionsOfAll] at kept ⊢
        exact List.append_subset.mpr
          ⟨List.subset_append_left _ _, List.subset_append_of_subset_right _ kept⟩

/-- Cutting a body loses no functions. -/
theorem cutBody_functions (owner : Owner) (regions : Regions) (body : Expr) :
    Produces True (cutBody escapes owner regions body) (body.functions ⊆ ·.functions) := by
  cases body with
  | seq mark items =>
    exact .bind (cutItems_functions owner regions items mark.span) fun items' kept => .pure kept
  | _ =>
    refine .bind (relocate_functions _) fun item same => ?_
    refine .bind (cutItems_functions owner regions [item] _) fun items kept => .pure ?_
    simp only [functionsOfAll, List.append_nil, same] at kept
    exact kept

/-! ## Programs -/

/-- Rewriting the body of a function loses no functions in it. -/
theorem functionBody_functions (function : Function) :
    Produces True (functionBody escapes function) (function.body.functions ⊆ ·.body.functions) := by
  unfold functionBody
  by_cases continuations : function.signature.regions.cont = true
  · simp only [if_pos continuations]
    refine .bind (.any _) fun _ _ => ?_
    exact .bind (cutBody_functions _ _ _) fun body kept => .pure kept
  · simp only [if_neg continuations]
    refine .bind (.any _) fun _ _ => ?_
    by_cases deferred : function.signature.regions.tco = true
    · simp only [if_pos deferred]
      refine .bind (.any _) fun _ _ => .pure ?_
      simp only [Expr.functions_deferTails, List.Subset.refl]
    · simp only [if_neg deferred]
      exact .pure (List.Subset.refl _)

/-- The parameters of a function whose body is rewritten. -/
def rewrittenParams (signature : Signature) : List String :=
  if signature.regions.cont then withContinuationParam signature.params else signature.params

/-- Rewriting the body of a function changes nothing else of it than its parameters. -/
theorem functionBody_params (function : Function) :
    Produces True (functionBody escapes function) fun other => other.signature =
      { function.signature with params := rewrittenParams function.signature } := by
  unfold functionBody rewrittenParams
  by_cases continuations : function.signature.regions.cont = true
  · simp only [if_pos continuations]
    exact .bind (.any _) fun _ _ => .bind (.any _) fun body _ => .pure rfl
  · simp only [if_neg continuations]
    refine .bind (.any _) fun _ _ => ?_
    by_cases deferred : function.signature.regions.tco = true
    · simp only [if_pos deferred]
      exact .bind (.any _) fun _ _ => .pure rfl
    · simp only [if_neg deferred]
      exact .pure rfl

/-- Wrappers change nothing else of a function. -/
theorem functionWrappers_keeps (function : Function) :
    Produces True (functionWrappers table function) fun other =>
      ∃ wrappers, other = ⟨{ function.signature with wrappers := wrappers }, function.body⟩ := by
  unfold functionWrappers
  cases resolveWrappers table function.signature with
  | error error => exact ⟨fun _ => .inr ⟨trivial, _, rfl⟩⟩
  | ok wrappers =>
    cases wrappers with
    | nil => exact .pure ⟨[], rfl⟩
    | cons first rest => exact .bind (.any _) fun _ _ => .pure ⟨first :: rest, rfl⟩

/-- How functions become others when their bodies are rewritten. -/
def Rewrites (escapes : List String) (function other : Function) : Prop :=
  Makes (functionBody escapes function) other

/-- How functions become others when they get their wrappers. -/
def Dresses (table : DecoratorTable) (function other : Function) : Prop :=
  Makes (functionWrappers table function) other

theorem Rewrites.stepsOn :
    StepsOn True (fun _ => True) (Rewrites escapes) (functionBody escapes) :=
  fun _ _ _ _ _ _ => .makes _

theorem Dresses.stepsOn : StepsOn True (fun _ => True) (Dresses table) (functionWrappers table) :=
  fun _ _ _ _ _ _ => .makes _

variable {function : Function} {program : Program} {transformed : Transformed}

theorem Dresses.eq {other : Function} (dresses : Dresses table function other) :
    ∃ wrappers, other = ⟨{ function.signature with wrappers := wrappers }, function.body⟩ :=
  dresses.of (functionWrappers_keeps function)

theorem Rewrites.keepInner : KeepInner (Rewrites escapes) :=
  fun function _ rewrites => rewrites.of (functionBody_functions function)

theorem Dresses.keepInner : KeepInner (Dresses table) := by
  intro function other dresses
  obtain ⟨wrappers, rfl⟩ := dresses.eq
  exact List.Subset.refl _

/-- A program is transformed in three stages: its toplevel forms are checked, its functions are
rewritten, and then they get their wrappers. -/
theorem Program.transform_stages (succeeds : program.transform table escapes = .ok transformed) :
    ∃ checked middle rewritten log,
      (checkTop program.top).run ⟨program.counters, []⟩ = .ok ((), checked) ∧
      (mapFunctionsOfTop (functionBody escapes) program.top).run checked =
        .ok (middle, rewritten) ∧
      (mapFunctionsOfTop (functionWrappers table) middle).run rewritten =
        .ok (transformed.program.top, ⟨transformed.program.counters, log⟩) := by
  unfold Program.transform at succeeds
  cases ends : (toplevels table escapes program.top).run ⟨program.counters, []⟩ with
  | error error => simp [ends, Except.map] at succeeds
  | ok result =>
    simp only [ends, Except.map, Except.ok.injEq] at succeeds
    subst succeeds
    obtain ⟨_, checked, checks, ends⟩ := run_bind_ok ends
    obtain ⟨middle, rewritten, rewrites, dresses⟩ := run_bind_ok ends
    exact ⟨checked, middle, rewritten, result.2.log, checks, rewrites, dresses⟩

/-- A program is transformed by rewriting its functions and then giving them their wrappers, form by
form. -/
theorem Program.transform_mappingTop
    (succeeds : program.transform table escapes = .ok transformed) : ∃ middle,
      MappingTop (Rewrites escapes) program.top middle ∧
      MappingTop (Dresses table) middle transformed.program.top := by
  obtain ⟨_, middle, _, _, -, rewrites, dresses⟩ := Program.transform_stages succeeds
  have always : ∀ top : List Toplevel, ∀ form ∈ top, form.expr.All fun _ => True :=
    fun _ _ _ _ _ => trivial
  exact ⟨middle, (mapFunctionsOfTop_mapping Rewrites.stepsOn _ (always _)).of_ok rewrites,
    (mapFunctionsOfTop_mapping Dresses.stepsOn _ (always _)).of_ok dresses⟩

/-- A program is transformed by rewriting its functions and then giving them their wrappers. -/
theorem Program.transform_mapping (succeeds : program.transform table escapes = .ok transformed) :
    ∃ middle,
      MappingAll (Rewrites escapes) (program.top.map Toplevel.expr) middle ∧
      MappingAll (Dresses table) middle (transformed.program.top.map Toplevel.expr) := by
  obtain ⟨middle, rewritten, dressed⟩ := Program.transform_mappingTop succeeds
  exact ⟨_, rewritten.exprs, dressed.exprs⟩

/-- A function of a program is rewritten after those inside it, and then gets its wrappers after
those inside it. -/
theorem Program.transform_functions (succeeds : program.transform table escapes = .ok transformed)
    (member : function ∈ program.functions) :
    ∃ inside rewritten body, Mapping (Rewrites escapes) function.body inside ∧
      Rewrites escapes ⟨function.signature, inside⟩ rewritten ∧
      Mapping (Dresses table) rewritten.body body ∧
      ∃ dressed ∈ transformed.program.functions,
        Dresses table ⟨rewritten.signature, body⟩ dressed := by
  obtain ⟨middle, rewriting, dressing⟩ := Program.transform_mapping succeeds
  obtain ⟨inside, mapped, rewritten, listed, rewrites⟩ :=
    rewriting.functions Rewrites.keepInner function (Program.mem_functions_iff.mp member)
  obtain ⟨body, mapped', dressed, listed', dresses⟩ :=
    dressing.functions Dresses.keepInner rewritten listed
  exact ⟨inside, rewritten, body, mapped, rewrites, mapped', dressed,
    Program.mem_functions_iff.mpr listed', dresses⟩

end Trampoline
