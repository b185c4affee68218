import Trampoline.Proofs.Reading.Shifts
import Trampoline.Proofs.Syntax.Owners
import Trampoline.Proofs.Syntax.Forest

/-!
# Programs behind others

What a program is behind another in one source: everything in it stands further on, and its
expressions and functions have higher numbers. Nothing else about them changes.
-/

namespace Trampoline

/-- The numbers that are left when these were taken before. -/
def Counters.after (taken counters : Counters) : Counters :=
  ⟨counters.exprs + taken.exprs, counters.functions + taken.functions⟩

section Shift

variable (bytes : Nat) (taken : Counters)

/-- The mark of an expression behind other expressions. -/
def Mark.shift (mark : Mark) : Mark := ⟨mark.id + taken.exprs, mark.span.shift bytes⟩

/-- Decorators as written so many bytes further on. -/
def shiftDecorators (decorators : List (String × Span)) : List (String × Span) :=
  decorators.map fun decorator => (decorator.1, decorator.2.shift bytes)

/-- The signature of a function behind other functions, in the same regions. -/
def Signature.shift (signature : Signature) : Signature :=
  { signature with
    id := signature.id + taken.functions
    decorators := shiftDecorators bytes signature.decorators }

mutual

/-- The expression behind others. -/
def Expr.shift : Expr -> Expr
  | .lit mark value => .lit (mark.shift bytes taken) value
  | .var mark name => .var (mark.shift bytes taken) name
  | .fn mark signature body =>
    .fn (mark.shift bytes taken) (signature.shift bytes taken) body.shift
  | .call mark func args kwargs =>
    .call (mark.shift bytes taken) func.shift (shiftAll args) (shiftKwargs kwargs)
  | .cond mark arms alt =>
    .cond (mark.shift bytes taken) (shiftArms arms)
      (match alt with
      | none => none
      | some e => some e.shift)
  | .short mark op operands => .short (mark.shift bytes taken) op (shiftAll operands)
  | .seq mark items => .seq (mark.shift bytes taken) (shiftAll items)
  | .bind mark name bindee => .bind (mark.shift bytes taken) name bindee.shift
  | .assign mark name bindee => .assign (mark.shift bytes taken) name bindee.shift
  | .loop mark test body => .loop (mark.shift bytes taken) test.shift body.shift
  | .jump mark func args kwargs cc =>
    .jump (mark.shift bytes taken) func.shift (shiftAll args) (shiftKwargs kwargs)
      (match cc with
      | none => none
      | some e => some e.shift)
  | .capture mark binders e => .capture (mark.shift bytes taken) binders e.shift

/-- Several expressions behind others. -/
def shiftAll : List Expr -> List Expr
  | [] => []
  | e :: rest => e.shift :: shiftAll rest

/-- Keyword arguments behind other expressions. -/
def shiftKwargs : List (String × Expr) -> List (String × Expr)
  | [] => []
  | (name, e) :: rest => (name, e.shift) :: shiftKwargs rest

/-- Arms behind other expressions. -/
def shiftArms : List (Expr × Expr) -> List (Expr × Expr)
  | [] => []
  | (test, body) :: rest => (test.shift, body.shift) :: shiftArms rest

end

/-- The function behind others. -/
def Function.shift (function : Function) : Function :=
  ⟨function.signature.shift bytes taken, function.body.shift bytes taken⟩

/-- The toplevel form behind others. -/
def Toplevel.shift : Toplevel -> Toplevel
  | .define name bindee => .define name (bindee.shift bytes taken)
  | .exec e => .exec (e.shift bytes taken)

variable (e : Expr) (es : List Expr) (kwargs : List (String × Expr)) (arms : List (Expr × Expr))

/-- Shifting several expressions is shifting each. -/
theorem shiftAll_eq_map : shiftAll bytes taken es = es.map (Expr.shift bytes taken) := by
  induction es with
  | nil => rfl
  | cons e rest ih => rw [shiftAll, ih, List.map_cons]

/-- The values of shifted keyword arguments are shifted. -/
theorem shiftKwargs_values : (shiftKwargs bytes taken kwargs).map Prod.snd =
    (kwargs.map Prod.snd).map (Expr.shift bytes taken) := by
  induction kwargs with
  | nil => rfl
  | cons first rest ih => rw [shiftKwargs, List.map_cons, ih, List.map_cons, List.map_cons]

/-- The tests and bodies of shifted arms are shifted. -/
theorem shiftArms_exprs :
    (shiftArms bytes taken arms).flatMap (fun (test, body) => [test, body]) =
      (arms.flatMap fun (test, body) => [test, body]).map (Expr.shift bytes taken) := by
  induction arms with
  | nil => rfl
  | cons first rest ih => rw [shiftArms, List.flatMap_cons, ih, List.flatMap_cons, List.map_append,
    List.map_cons, List.map_cons, List.map_nil]

/-- The parts of a shifted expression are shifted. -/
theorem Expr.parts_shift : (e.shift bytes taken).parts = e.parts.map (Expr.shift bytes taken) := by
  cases e with
  | cond _ arms alt => cases alt <;> simp [shift, parts, children, shiftArms_exprs]
  | jump _ func args kwargs cc =>
    cases cc <;> simp [shift, parts, children, shiftAll_eq_map, shiftKwargs_values]
  | _ => simp [shift, parts, children, shiftAll_eq_map, shiftKwargs_values]

/-- The function of a shifted expression is shifted. -/
theorem Expr.function?_shift : (e.shift bytes taken).function? =
    e.function?.map (Function.shift bytes taken) := by
  cases e with
  | cond _ _ alt => cases alt <;> rfl
  | jump _ _ _ _ cc => cases cc <;> rfl
  | _ => rfl

/-- The functions in shifted expressions are shifted. -/
theorem functionsOfAll_shift {es : List Expr}
    (each : ∀ e ∈ es, (e.shift bytes taken).functions =
      e.functions.map (Function.shift bytes taken)) :
    functionsOfAll (es.map (Expr.shift bytes taken)) =
      (functionsOfAll es).map (Function.shift bytes taken) := by
  induction es with
  | nil => rfl
  | cons e rest ih =>
    obtain ⟨first, others⟩ := List.forall_mem_cons.mp each
    rw [List.map_cons, functionsOfAll, functionsOfAll, first, ih others, List.map_append]

/-- The functions in an expression stand behind the same others. -/
theorem Expr.functions_shift : (e.shift bytes taken).functions =
    e.functions.map (Function.shift bytes taken) := by
  induction e using Expr.induct_parts with
  | whole e ih =>
    rw [Expr.functions_parts, Expr.functions_parts, Expr.parts_shift, Expr.function?_shift,
      functionsOfAll_shift bytes taken ih, List.map_append]
    cases e.function? <;> rfl

end Shift

/-! ## At the start of a source -/

theorem Mark.shift_zero (mark : Mark) : mark.shift 0 ⟨0, 0⟩ = mark := rfl

theorem Signature.shift_zero (signature : Signature) : signature.shift 0 ⟨0, 0⟩ = signature := by
  have same : shiftDecorators 0 signature.decorators = signature.decorators := List.map_id' _
  rw [Signature.shift, same]
  rfl

mutual

/-- A form behind nothing stays. -/
theorem Form.shift_zero : ∀ form : Form, form.shift 0 = form
  | .int .. | .str .. | .bool .. | .sym .. | .keyword .. => rfl
  | .list _ items => by rw [Form.shift, shiftForms_zero items]; rfl

theorem shiftForms_zero : ∀ forms : List Form, shiftForms 0 forms = forms
  | [] => rfl
  | form :: rest => by rw [shiftForms, form.shift_zero, shiftForms_zero rest]

end

mutual

/-- An expression behind nothing stays. -/
theorem Expr.shift_zero : ∀ e : Expr, e.shift 0 ⟨0, 0⟩ = e
  | .lit .. | .var .. => rfl
  | .fn _ signature body => by
      rw [Expr.shift, signature.shift_zero, body.shift_zero, Mark.shift_zero]
  | .call _ func args kwargs => by
    rw [Expr.shift, func.shift_zero, shiftAll_zero args, shiftKwargs_zero kwargs, Mark.shift_zero]
  | .cond _ arms none => by rw [Expr.shift, shiftArms_zero arms, Mark.shift_zero]
  | .cond _ arms (some e) => by rw [Expr.shift, shiftArms_zero arms, Mark.shift_zero, e.shift_zero]
  | .short _ _ es | .seq _ es => by rw [Expr.shift, shiftAll_zero es, Mark.shift_zero]
  | .bind _ _ e | .assign _ _ e | .capture _ _ e => by
      rw [Expr.shift, e.shift_zero, Mark.shift_zero]
  | .loop _ test body => by rw [Expr.shift, test.shift_zero, body.shift_zero, Mark.shift_zero]
  | .jump _ func args kwargs none => by
    rw [Expr.shift, func.shift_zero, shiftAll_zero args, shiftKwargs_zero kwargs, Mark.shift_zero]
  | .jump _ func args kwargs (some e) => by
    rw [Expr.shift, func.shift_zero, shiftAll_zero args, shiftKwargs_zero kwargs, Mark.shift_zero,
      e.shift_zero]

theorem shiftAll_zero : ∀ es : List Expr, shiftAll 0 ⟨0, 0⟩ es = es
  | [] => rfl
  | e :: rest => by rw [shiftAll, e.shift_zero, shiftAll_zero rest]

theorem shiftKwargs_zero : ∀ kwargs : List (String × Expr), shiftKwargs 0 ⟨0, 0⟩ kwargs = kwargs
  | [] => rfl
  | (_, e) :: rest => by rw [shiftKwargs, e.shift_zero, shiftKwargs_zero rest]

theorem shiftArms_zero : ∀ arms : List (Expr × Expr), shiftArms 0 ⟨0, 0⟩ arms = arms
  | [] => rfl
  | (test, body) :: rest => by
    rw [shiftArms, test.shift_zero, body.shift_zero, shiftArms_zero rest]

end

theorem Toplevel.shift_zero (form : Toplevel) : form.shift 0 ⟨0, 0⟩ = form := by
  cases form <;> rw [Toplevel.shift, Expr.shift_zero]

end Trampoline
