import Trampoline.Proofs.Syntax.Nodes

/-!
# Loops as recursive functions

A looped function gets a handle to itself as its first argument, and goes round again by returning a
call of it. The recursive function that it stands for has no such parameter: where the loop returns
a call of its handle, it calls itself by its global name.
-/

namespace Trampoline

variable {handle name : String}

/-! ## Recursive functions -/

/-- A callee that names the function where it named the handle. -/
def Expr.unloopCallee (handle name : String) : Expr -> Expr
  | .var mark other => .var mark (if other = handle then name else other)
  | e => e

mutual

/-- A body in which the returned calls of the handle are calls of the function. -/
def Expr.unloop (handle name : String) : Expr -> Expr
  | .seq mark items => .seq mark (unloopLast handle name items)
  | .cond mark arms alt =>
    .cond mark (unloopArms handle name arms)
      (match alt with
      | none => none
      | some e => some (e.unloop handle name))
  | .short mark op operands => .short mark op (unloopLast handle name operands)
  | .call mark func args kwargs => .call mark (func.unloopCallee handle name) args kwargs
  | e => e

/-- Expressions of which the returned calls of the last are calls of the function. -/
def unloopLast (handle name : String) : List Expr -> List Expr
  | [] => []
  | [e] => [e.unloop handle name]
  | e :: rest => e :: unloopLast handle name rest

/-- Arms in whose bodies the returned calls of the handle are calls of the function. -/
def unloopArms (handle name : String) : List (Expr × Expr) -> List (Expr × Expr)
  | [] => []
  | (test, body) :: rest => (test, body.unloop handle name) :: unloopArms handle name rest

end

/-- The recursive function that a loop of the name stands for. -/
def Function.unloop (name : String) (function : Function) : Function :=
  match function.signature.params with
  | [] => function
  | handle :: params =>
    ⟨{ function.signature with params := params, decorators := [], wrappers := [] },
      function.body.unloop handle name⟩

/-- The expression with the recursive function in place of a loop. -/
def Expr.unloopFunction (name : String) : Expr -> Expr
  | .fn mark signature body =>
    let recursive := Function.unloop name ⟨signature, body⟩
    .fn mark recursive.signature recursive.body
  | e => e

/-- A definition of the name is that of the recursive function. -/
def Toplevel.unloop (name : String) : Toplevel -> Toplevel
  | .define other bindee =>
    .define other (if other = name then bindee.unloopFunction name else bindee)
  | .exec e => .exec e

/-- The program with a recursive function in place of the loop of the name. -/
def Program.unloop (name : String) (program : Program) : Program :=
  { program with top := program.top.map (Toplevel.unloop name) }

/-! ## Loops -/

namespace Expr

/-- The names that an expression binds on its own. -/
def binders : Expr -> List String
  | .bind _ name _ => [name]
  | .fn _ signature _ => signature.params
  | .capture _ binders _ => binders
  | _ => []

/-- Whether an expression is a connective. -/
def isShort : Expr -> Bool
  | .short .. => true
  | _ => false

/-- Whether an expression assigns the name. -/
def assigns (name : String) : Expr -> Bool
  | .assign _ other _ => other == name
  | _ => false

/-- A call of the handle that the body returns is the last operand of a connective. -/
def JoinsCalls (handle : String) (body : Expr) : Prop :=
  ∃ node ∈ body.tailPath, node.isShort = true ∧
    ∃ inner ∈ node.tailPath, inner.isCallTo [handle] = true

instance (handle : String) (body : Expr) : Decidable (body.JoinsCalls handle) :=
  inferInstanceAs (Decidable (∃ node ∈ body.tailPath, node.isShort = true ∧
    ∃ inner ∈ node.tailPath, inner.isCallTo [handle] = true))

end Expr

/-- The function uses its handle in no other way than by returning calls of it: what is left when
these are calls of the function does not name the handle. Nothing in it shadows the name of the
function. -/
structure Function.Loops (function : Function) (name handle : String) : Prop where
  takes : function.signature.params.head? = some handle
  once : handle ∉ function.signature.params.tail
  params : name ∉ function.signature.params
  calls : ∀ node ∈ (function.body.unloop handle name).nodes, handle ∉ node.names
  sees : ∀ node ∈ (function.body.unloop handle name).nodes, name ∉ node.binders

instance (function : Function) (name handle : String) : Decidable (function.Loops name handle) :=
  decidable_of_iff
    (function.signature.params.head? = some handle ∧ handle ∉ function.signature.params.tail ∧
      name ∉ function.signature.params ∧
      (∀ node ∈ (function.body.unloop handle name).nodes, handle ∉ node.names) ∧
      ∀ node ∈ (function.body.unloop handle name).nodes, name ∉ node.binders)
    ⟨fun ⟨takes, once, params, calls, sees⟩ => ⟨takes, once, params, calls, sees⟩,
      fun ⟨takes, once, params, calls, sees⟩ => ⟨takes, once, params, calls, sees⟩⟩

/-! ## Programs with loops -/

/-- One of the toplevel forms defines the name, as the expression. -/
def DefinesOnce (top : List Toplevel) (name : String) (bindee : Expr) : Prop :=
  ∃ before after, top = before ++ .define name bindee :: after ∧
    (∀ other, .define name other ∉ before) ∧ ∀ other, .define name other ∉ after

variable {top : List Toplevel} {bindee : Expr}

theorem DefinesOnce.eq {other : Expr}
    (once : DefinesOnce top name bindee) (member : .define name other ∈ top) : other = bindee := by
  obtain ⟨before, after, rfl, notBefore, notAfter⟩ := once
  rcases List.mem_append.mp member with first | second
  · exact absurd first (notBefore other)
  · rcases List.mem_cons.mp second with same | later
    · cases same
      rfl
    · exact absurd later (notAfter other)

/-- The form defines the name. -/
def Toplevel.defines (name : String) : Toplevel -> Bool
  | .define other _ => other == name
  | .exec _ => false

/-- The function that the program defines under the name, if one form defines it. -/
def Program.definition? (program : Program) (name : String) : Option Function :=
  match program.top.filter (Toplevel.defines name) with
  | [.define _ (.fn _ signature body)] => some ⟨signature, body⟩
  | _ => none

/-- A name whose definition is found is defined once. -/
theorem Program.definesOnce {program : Program} {function : Function}
    (defined : program.definition? name = some function) :
    ∃ mark, DefinesOnce program.top name (.fn mark function.signature function.body) := by
  unfold definition? at defined
  split at defined
  · rename_i other mark signature body only
    cases defined
    obtain ⟨before, after, top, none, defines, only⟩ := List.filter_eq_cons_iff.mp only
    obtain rfl : other = name := eq_of_beq defines
    refine ⟨mark, before, after, top, fun bindee member => ?_, fun bindee member => ?_⟩
    · exact none _ member (beq_self_eq_true other)
    · exact List.filter_eq_nil_iff.mp only _ member (beq_self_eq_true other)
  · cases defined

/-- The loop is what one toplevel form of the program defines under the name, and no other form
does. Nothing in the program with the recursive function assigns the name. -/
structure Program.HasLoop (program : Program) (name handle : String) (function : Function) :
    Prop where
  defined : ∃ mark, DefinesOnce program.top name (.fn mark function.signature function.body)
  loops : function.Loops name handle
  plain : function.signature.kind = .plain
  kept : ∀ node ∈ (program.unloop name).nodes, node.assigns name = false

/-- Other forms stay as they are. -/
theorem Toplevel.unloop_of_ne {form : Toplevel} (other : ∀ bindee, form ≠ .define name bindee) :
    form.unloop name = form := by
  cases form with
  | define defined bindee =>
    have differs : defined ≠ name := fun same => other bindee (same ▸ rfl)
    rw [unloop, if_neg differs]
  | exec e => rfl

/-- Forms that do not define the name stay as they are. -/
theorem Toplevel.map_unloop {forms : List Toplevel}
    (other : ∀ bindee, .define name bindee ∉ forms) :
    forms.map (Toplevel.unloop name) = forms := by
  refine (List.map_congr_left fun form member => ?_).trans (List.map_id forms)
  exact unloop_of_ne fun bindee same => other bindee (same ▸ member)

/-- The recursive function is defined once if the loop is. -/
theorem DefinesOnce.unloop (once : DefinesOnce top name bindee) :
    DefinesOnce (top.map (Toplevel.unloop name)) name (bindee.unloopFunction name) := by
  obtain ⟨before, after, rfl, notBefore, notAfter⟩ := once
  refine ⟨before, after, ?_, notBefore, notAfter⟩
  rw [List.map_append, List.map_cons, Toplevel.map_unloop notBefore, Toplevel.map_unloop notAfter,
    Toplevel.unloop, if_pos rfl]

theorem DefinesOnce.mem (once : DefinesOnce top name bindee) : .define name bindee ∈ top := by
  obtain ⟨before, after, rfl, -, -⟩ := once
  exact List.mem_append_right _ List.mem_cons_self

end Trampoline
