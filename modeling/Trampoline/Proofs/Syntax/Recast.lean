import Trampoline.Transform.Captures
import Trampoline.Proofs.Syntax.Owners

/-!
# Programs with other places and decorators

What a program is besides where its expressions stand and how its decorators are written. The same
program with other places and decorator lists has the same shape, numbers and functions.
-/

namespace Trampoline

/-- Other lists of decorators. -/
abbrev Redecoration := List (String × Span) -> List (String × Span)

section Recast

variable (place : Span -> Span) (redecorate : Redecoration)

/-- A mark at another place. -/
def Mark.recast (mark : Mark) : Mark := ⟨mark.id, place mark.span⟩

/-- A signature with another list of decorators. -/
def Signature.recast (signature : Signature) : Signature :=
  { signature with decorators := redecorate signature.decorators }

mutual

/-- The expression with other places and decorators. -/
def Expr.recast : Expr -> Expr
  | .lit mark value => .lit (mark.recast place) value
  | .var mark name => .var (mark.recast place) name
  | .fn mark signature body =>
    .fn (mark.recast place) (signature.recast redecorate) body.recast
  | .call mark func args kwargs =>
    .call (mark.recast place) func.recast (recastAll args) (recastKwargs kwargs)
  | .cond mark arms alt =>
    .cond (mark.recast place) (recastArms arms)
      (match alt with
      | none => none
      | some e => some e.recast)
  | .short mark op operands => .short (mark.recast place) op (recastAll operands)
  | .seq mark items => .seq (mark.recast place) (recastAll items)
  | .bind mark name bindee => .bind (mark.recast place) name bindee.recast
  | .assign mark name bindee => .assign (mark.recast place) name bindee.recast
  | .loop mark test body => .loop (mark.recast place) test.recast body.recast
  | .jump mark func args kwargs cc =>
    .jump (mark.recast place) func.recast (recastAll args) (recastKwargs kwargs)
      (match cc with
      | none => none
      | some e => some e.recast)
  | .capture mark binders e => .capture (mark.recast place) binders e.recast

/-- Several expressions with other places and decorators. -/
def recastAll : List Expr -> List Expr
  | [] => []
  | e :: rest => e.recast :: recastAll rest

/-- Keyword arguments with other places and decorators. -/
def recastKwargs : List (String × Expr) -> List (String × Expr)
  | [] => []
  | (name, e) :: rest => (name, e.recast) :: recastKwargs rest

/-- Arms with other places and decorators. -/
def recastArms : List (Expr × Expr) -> List (Expr × Expr)
  | [] => []
  | (test, body) :: rest => (test.recast, body.recast) :: recastArms rest

end

/-- The function with other places and decorators. -/
def Function.recast (function : Function) : Function :=
  ⟨function.signature.recast redecorate, function.body.recast place redecorate⟩

/-- The toplevel form with other places and decorators. -/
def Toplevel.recast : Toplevel -> Toplevel
  | .define name bindee => .define name (bindee.recast place redecorate)
  | .exec e => .exec (e.recast place redecorate)

/-- The program with other places and decorators. -/
def Program.recast (program : Program) : Program :=
  { program with top := program.top.map (Toplevel.recast place redecorate) }

variable (e : Expr) (es : List Expr) (kwargs : List (String × Expr)) (arms : List (Expr × Expr))

/-- Recasting several expressions is recasting each. -/
theorem recastAll_eq_map :
    recastAll place redecorate es = es.map (Expr.recast place redecorate) := by
  induction es with
  | nil => rfl
  | cons e rest ih => rw [recastAll, ih, List.map_cons]

/-- The values of recast keyword arguments are recast. -/
theorem recastKwargs_values : (recastKwargs place redecorate kwargs).map Prod.snd =
    (kwargs.map Prod.snd).map (Expr.recast place redecorate) := by
  induction kwargs with
  | nil => rfl
  | cons first rest ih => rw [recastKwargs, List.map_cons, ih, List.map_cons, List.map_cons]

/-- The tests and bodies of recast arms are recast. -/
theorem recastArms_exprs :
    (recastArms place redecorate arms).flatMap (fun (test, body) => [test, body]) =
      (arms.flatMap fun (test, body) => [test, body]).map (Expr.recast place redecorate) := by
  induction arms with
  | nil => rfl
  | cons first rest ih => rw [recastArms, List.flatMap_cons, ih, List.flatMap_cons, List.map_append,
    List.map_cons, List.map_cons, List.map_nil]

/-! ## Parts -/

/-- What is evaluated as part of a recast expression is recast. -/
theorem Expr.children_recast : (e.recast place redecorate).children =
    e.children.map (Expr.recast place redecorate) := by
  cases e with
  | cond _ arms alt => cases alt <;> simp [recast, children, recastArms_exprs]
  | jump _ func args kwargs cc =>
    cases cc <;> simp [recast, children, recastAll_eq_map, recastKwargs_values]
  | _ => simp [recast, children, recastAll_eq_map, recastKwargs_values]

/-- The parts of a recast expression are recast. -/
theorem Expr.parts_recast : (e.recast place redecorate).parts =
    e.parts.map (Expr.recast place redecorate) := by
  have inside := e.children_recast place redecorate
  cases e with
  | fn => rfl
  | cond _ _ alt => cases alt <;> exact inside
  | jump _ _ _ _ cc => cases cc <;> exact inside
  | _ => exact inside

/-- The function of a recast expression is recast. -/
theorem Expr.function?_recast : (e.recast place redecorate).function? =
    e.function?.map (Function.recast place redecorate) := by
  cases e with
  | cond _ _ alt => cases alt <;> rfl
  | jump _ _ _ _ cc => cases cc <;> rfl
  | _ => rfl

/-- The functions in recast expressions are recast. -/
theorem functionsOfAll_recast {es : List Expr}
    (each : ∀ e ∈ es, (e.recast place redecorate).functions =
      e.functions.map (Function.recast place redecorate)) :
    functionsOfAll (es.map (Expr.recast place redecorate)) =
      (functionsOfAll es).map (Function.recast place redecorate) := by
  induction es with
  | nil => rfl
  | cons e rest ih =>
    obtain ⟨first, others⟩ := List.forall_mem_cons.mp each
    rw [List.map_cons, functionsOfAll, functionsOfAll, first, ih others, List.map_append]

/-- The functions are those with other places and decorators. -/
theorem Expr.functions_recast : (e.recast place redecorate).functions =
    e.functions.map (Function.recast place redecorate) := by
  induction e using Expr.induct_parts with
  | whole e ih =>
    rw [Expr.functions_parts, Expr.functions_parts, Expr.parts_recast, Expr.function?_recast,
      functionsOfAll_recast place redecorate ih, List.map_append]
    cases e.function? <;> rfl

/-- The mark of a recast expression is at the other place. -/
theorem Expr.mark_recast : (e.recast place redecorate).mark = e.mark.recast place := by
  cases e with
  | cond _ _ alt => cases alt <;> rfl
  | jump _ _ _ _ cc => cases cc <;> rfl
  | _ => rfl

/-- Another mark may be given before or after recasting. -/
theorem Expr.withMark_recast (mark : Mark) :
    (e.recast place redecorate).withMark (mark.recast place) =
    (e.withMark mark).recast place redecorate := by
  cases e with
  | cond _ _ alt => cases alt <;> rfl
  | jump _ _ _ _ cc => cases cc <;> rfl
  | _ => rfl

/-- A recast expression is the same name. -/
theorem Expr.isNameIn_recast (names : List String) :
    (e.recast place redecorate).isNameIn names = e.isNameIn names := by
  cases e with
  | cond _ _ alt => cases alt <;> rfl
  | jump _ _ _ _ cc => cases cc <;> rfl
  | _ => rfl

end Recast

section Twice

variable (place place' : Span -> Span) (redecorate redecorate' : Redecoration)

mutual

/-- Recasting twice is recasting once by both. -/
theorem Expr.recast_recast : ∀ e : Expr,
    (e.recast place redecorate).recast place' redecorate' =
      e.recast (place' ∘ place) (redecorate' ∘ redecorate)
  | .lit .. | .var .. => rfl
  | .fn _ _ body => by
    simp only [Expr.recast, body.recast_recast]
    rfl
  | .call _ func args kwargs => by
    simp only [Expr.recast, func.recast_recast, recastAll_recastAll args,
      recastKwargs_recastKwargs kwargs]
    rfl
  | .cond _ arms none => by
    simp only [Expr.recast, recastArms_recastArms arms]
    rfl
  | .cond _ arms (some e) => by
    simp only [Expr.recast, recastArms_recastArms arms, e.recast_recast]
    rfl
  | .short _ _ es | .seq _ es => by
    simp only [Expr.recast, recastAll_recastAll es]
    rfl
  | .bind _ _ e | .assign _ _ e | .capture _ _ e => by
    simp only [Expr.recast, e.recast_recast]
    rfl
  | .loop _ test body => by
    simp only [Expr.recast, test.recast_recast, body.recast_recast]
    rfl
  | .jump _ func args kwargs none => by
    simp only [Expr.recast, func.recast_recast, recastAll_recastAll args,
      recastKwargs_recastKwargs kwargs]
    rfl
  | .jump _ func args kwargs (some e) => by
    simp only [Expr.recast, func.recast_recast, recastAll_recastAll args,
      recastKwargs_recastKwargs kwargs, e.recast_recast]
    rfl

theorem recastAll_recastAll : ∀ es : List Expr,
    recastAll place' redecorate' (recastAll place redecorate es) =
      recastAll (place' ∘ place) (redecorate' ∘ redecorate) es
  | [] => rfl
  | e :: rest => by simp only [recastAll, e.recast_recast, recastAll_recastAll rest]

theorem recastKwargs_recastKwargs : ∀ kwargs : List (String × Expr),
    recastKwargs place' redecorate' (recastKwargs place redecorate kwargs) =
      recastKwargs (place' ∘ place) (redecorate' ∘ redecorate) kwargs
  | [] => rfl
  | (_, e) :: rest => by simp only [recastKwargs, e.recast_recast, recastKwargs_recastKwargs rest]

theorem recastArms_recastArms : ∀ arms : List (Expr × Expr),
    recastArms place' redecorate' (recastArms place redecorate arms) =
      recastArms (place' ∘ place) (redecorate' ∘ redecorate) arms
  | [] => rfl
  | (test, body) :: rest => by
    simp only [recastArms, test.recast_recast, body.recast_recast, recastArms_recastArms rest]

end

end Twice

/-! ## Text -/

section Text

variable (place : Span -> Span)

mutual

/-- The text of an expression does not depend on places. -/
theorem Expr.render_recast : ∀ e : Expr, (e.recast place fun decorators => decorators).render =
    e.render
  | .lit .. | .var .. => rfl
  | .fn _ _ body => by
    rw [Expr.recast, Expr.render_fn, Expr.render_fn, body.renderBody_recast]
    rfl
  | .call _ func args kwargs => by
    simp only [Expr.recast, Expr.render, func.render_recast, renderItems_recast args,
      renderKwargs_recast kwargs]
  | .cond _ arms none => by
    simp only [Expr.recast, Expr.render, renderArms_recast arms]
  | .cond _ arms (some e) => by
    apply String.toList_injective
    simp only [Expr.recast, Expr.toList_render_cond_some, renderArms_recast arms,
      e.renderBody_recast]
  | .short _ _ es | .seq _ es => by
    simp only [Expr.recast, Expr.render, renderItems_recast es]
  | .bind _ _ e | .assign _ _ e | .capture _ _ e => by
    simp only [Expr.recast, Expr.render, e.render_recast]
  | .loop _ test body => by
    rw [Expr.recast, Expr.render_loop, Expr.render_loop, test.render_recast, body.renderBody_recast]
  | .jump _ func args kwargs none => by
    simp only [Expr.recast, Expr.render, func.render_recast, renderItems_recast args,
      renderKwargs_recast kwargs]
  | .jump _ func args kwargs (some e) => by
    simp only [Expr.recast, Expr.render, func.render_recast, renderItems_recast args,
      renderKwargs_recast kwargs, e.render_recast]

theorem Expr.renderBody_recast : ∀ body : Expr,
    (body.recast place fun decorators => decorators).renderBody = body.renderBody
  | .seq _ items => by simp only [Expr.recast, Expr.renderBody, renderItems_recast items]
  | .cond _ _ none => congrArg (" " ++ ·) (Expr.render_recast _)
  | .cond _ _ (some _) => congrArg (" " ++ ·) (Expr.render_recast _)
  | .jump _ _ _ _ none => congrArg (" " ++ ·) (Expr.render_recast _)
  | .jump _ _ _ _ (some _) => congrArg (" " ++ ·) (Expr.render_recast _)
  | .lit .. => congrArg (" " ++ ·) (Expr.render_recast _)
  | .var .. => congrArg (" " ++ ·) (Expr.render_recast _)
  | .fn .. => congrArg (" " ++ ·) (Expr.render_recast _)
  | .call .. => congrArg (" " ++ ·) (Expr.render_recast _)
  | .short .. => congrArg (" " ++ ·) (Expr.render_recast _)
  | .bind .. => congrArg (" " ++ ·) (Expr.render_recast _)
  | .assign .. => congrArg (" " ++ ·) (Expr.render_recast _)
  | .loop .. => congrArg (" " ++ ·) (Expr.render_recast _)
  | .capture .. => congrArg (" " ++ ·) (Expr.render_recast _)

theorem renderItems_recast : ∀ es : List Expr,
    renderItems (recastAll place (fun decorators => decorators) es) = renderItems es
  | [] => rfl
  | e :: rest => by simp only [recastAll, renderItems, e.render_recast, renderItems_recast rest]

theorem renderKwargs_recast : ∀ kwargs : List (String × Expr),
    renderKwargs (recastKwargs place (fun decorators => decorators) kwargs) = renderKwargs kwargs
  | [] => rfl
  | (_, e) :: rest => by
    simp only [recastKwargs, renderKwargs, e.render_recast, renderKwargs_recast rest]

theorem renderArms_recast : ∀ arms : List (Expr × Expr),
    renderArms (recastArms place (fun decorators => decorators) arms) = renderArms arms
  | [] => rfl
  | (test, body) :: rest => by
    rw [recastArms, renderArms_cons, renderArms_cons, test.render_recast, body.renderBody_recast,
      renderArms_recast rest]

end

end Text

end Trampoline
