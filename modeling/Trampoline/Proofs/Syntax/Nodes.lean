import Trampoline.Transform.Captures

/-!
# The expressions in a program

All expressions that a program is made of, what they say on their own, and which of them lie on the
way to the end of a body. Programs in direct style have bindings in place of captures.
-/

namespace Trampoline

mutual

/-- The expressions in an expression: itself, and those in the bodies of functions as well. -/
def Expr.nodes : Expr -> List Expr
  | .lit mark value => [.lit mark value]
  | .var mark name => [.var mark name]
  | .fn mark signature body => .fn mark signature body :: body.nodes
  | .call mark func args kwargs =>
    .call mark func args kwargs :: (func.nodes ++ nodesOfAll args ++ nodesOfKwargs kwargs)
  | .cond mark arms alt =>
    .cond mark arms alt :: (nodesOfArms arms ++
      match alt with
      | none => []
      | some e => e.nodes)
  | .short mark op operands => .short mark op operands :: nodesOfAll operands
  | .seq mark items => .seq mark items :: nodesOfAll items
  | .bind mark name bindee => .bind mark name bindee :: bindee.nodes
  | .assign mark name bindee => .assign mark name bindee :: bindee.nodes
  | .loop mark test body => .loop mark test body :: (test.nodes ++ body.nodes)
  | .jump mark func args kwargs cc =>
    .jump mark func args kwargs cc :: (func.nodes ++ nodesOfAll args ++ nodesOfKwargs kwargs ++
      match cc with
      | none => []
      | some e => e.nodes)
  | .capture mark binders e => .capture mark binders e :: e.nodes

/-- The expressions in several expressions. -/
def nodesOfAll : List Expr -> List Expr
  | [] => []
  | e :: rest => e.nodes ++ nodesOfAll rest

/-- The expressions in keyword arguments. -/
def nodesOfKwargs : List (String × Expr) -> List Expr
  | [] => []
  | (_, e) :: rest => e.nodes ++ nodesOfKwargs rest

/-- The expressions in the arms of a conditional. -/
def nodesOfArms : List (Expr × Expr) -> List Expr
  | [] => []
  | (test, body) :: rest => test.nodes ++ body.nodes ++ nodesOfArms rest

end

/-- The nodes of several expressions are those of each. -/
theorem nodesOfAll_eq_flatMap (es : List Expr) : nodesOfAll es = es.flatMap Expr.nodes := by
  induction es with
  | nil => simp only [nodesOfAll, List.flatMap_nil]
  | cons e rest ih => simp only [nodesOfAll, List.flatMap_cons, ih]

/-- The expressions in a program. -/
def Program.nodes (program : Program) : List Expr :=
  program.top.flatMap fun top => top.expr.nodes

mutual

/-- The expressions on the way to the end of a body, the body itself first: those whose value is
the value of the body if they come to one. -/
def Expr.tailPath : Expr -> List Expr
  | .seq mark items => .seq mark items :: tailPathOfLast items
  | .cond mark arms alt =>
    .cond mark arms alt :: (tailPathOfArms arms ++
      match alt with
      | none => []
      | some e => e.tailPath)
  | .short mark op operands => .short mark op operands :: tailPathOfLast operands
  | e => [e]

/-- The expressions on the way to the end of the last of several expressions. -/
def tailPathOfLast : List Expr -> List Expr
  | [] => []
  | [e] => e.tailPath
  | _ :: rest => tailPathOfLast rest

/-- The expressions on the way to the ends of arms. -/
def tailPathOfArms : List (Expr × Expr) -> List Expr
  | [] => []
  | (_, body) :: rest => body.tailPath ++ tailPathOfArms rest

end

/-- The way to the end of an expression begins with it. -/
theorem Expr.self_mem_tailPath (e : Expr) : e ∈ e.tailPath := by
  cases e <;> unfold Expr.tailPath <;> exact List.mem_cons_self

mutual

/-- The expression in direct style: a capture of one variable binds it to the value of its call. -/
def Expr.direct : Expr -> Expr
  | .lit mark value => .lit mark value
  | .var mark name => .var mark name
  | .fn mark signature body => .fn mark signature body.direct
  | .call mark func args kwargs => .call mark func.direct (directAll args) (directKwargs kwargs)
  | .cond mark arms alt =>
    .cond mark (directArms arms)
      (match alt with
      | none => none
      | some e => some e.direct)
  | .short mark op operands => .short mark op (directAll operands)
  | .seq mark items => .seq mark (directAll items)
  | .bind mark name bindee => .bind mark name bindee.direct
  | .assign mark name bindee => .assign mark name bindee.direct
  | .loop mark test body => .loop mark test.direct body.direct
  | .jump mark func args kwargs cc =>
    .jump mark func.direct (directAll args) (directKwargs kwargs)
      (match cc with
      | none => none
      | some e => some e.direct)
  | .capture mark [name] e => .bind mark name e.direct
  | .capture mark binders e => .capture mark binders e.direct

/-- Several expressions in direct style. -/
def directAll : List Expr -> List Expr
  | [] => []
  | e :: rest => e.direct :: directAll rest

/-- Keyword arguments in direct style. -/
def directKwargs : List (String × Expr) -> List (String × Expr)
  | [] => []
  | (name, e) :: rest => (name, e.direct) :: directKwargs rest

/-- Arms in direct style. -/
def directArms : List (Expr × Expr) -> List (Expr × Expr)
  | [] => []
  | (test, body) :: rest => (test.direct, body.direct) :: directArms rest

end

/-- A toplevel form in direct style. -/
def Toplevel.direct : Toplevel -> Toplevel
  | .define name bindee => .define name bindee.direct
  | .exec e => .exec e.direct

/-- A program in direct style. -/
def Program.direct (program : Program) : Program :=
  { program with top := program.top.map Toplevel.direct }

namespace Expr

/-- Whether an expression is a jump. -/
def isJump : Expr -> Bool
  | .jump .. => true
  | _ => false

/-- Whether an expression is a capture. -/
def isCapture : Expr -> Bool
  | .capture .. => true
  | _ => false

/-- The names that an expression reads, binds or assigns on its own. -/
def names : Expr -> List String
  | .var _ name | .bind _ name _ | .assign _ name _ => [name]
  | .fn _ signature _ => signature.params
  | .capture _ binders _ => binders
  | _ => []

/-- The keywords that an expression passes on its own. -/
def keywords : Expr -> List String
  | .call _ _ _ kwargs | .jump _ _ _ kwargs _ => kwargs.map Prod.fst
  | _ => []

/-- Whether an expression is a call to one of the names. -/
def isCallTo (names : List String) : Expr -> Bool
  | .call _ func _ _ => func.isNameIn names
  | _ => false

/-- Whether a conditional has an alternative. -/
def hasAlternative : Expr -> Bool
  | .cond _ _ alt => alt.isSome
  | _ => true

/-- Whether a connective cannot stop early: it has one operand at most. -/
def runsThrough : Expr -> Bool
  | .short _ _ operands => operands.length ≤ 1
  | _ => true

/-- All expressions in an expression are of a kind. -/
def All (kind : Expr -> Prop) (e : Expr) : Prop := ∀ node ∈ e.nodes, kind node

end Expr

/-! ## Kinds of expressions -/

section All

variable {kind : Expr -> Prop}

attribute [local simp] Expr.nodes nodesOfAll nodesOfKwargs nodesOfArms

/-- All expressions in several expressions are of a kind. -/
def AllOf (kind : Expr -> Prop) (es : List Expr) : Prop := ∀ node ∈ nodesOfAll es, kind node

/-- All expressions in keyword arguments are of a kind. -/
def AllOfKwargs (kind : Expr -> Prop) (kwargs : List (String × Expr)) : Prop :=
  ∀ node ∈ nodesOfKwargs kwargs, kind node

/-- All expressions in arms are of a kind. -/
def AllOfArms (kind : Expr -> Prop) (arms : List (Expr × Expr)) : Prop :=
  ∀ node ∈ nodesOfArms arms, kind node

variable {e body : Expr}

/-- An expression all of whose nodes are of a kind is of the kind. -/
theorem Expr.All.self (all : e.All kind) : kind e := by
  refine all e ?_
  cases e <;> unfold Expr.nodes <;> exact List.mem_cons_self

/-- A kind that implies another on the nodes may be replaced by it. -/
theorem Expr.All.imp {other : Expr -> Prop} (all : e.All kind)
    (implies : ∀ node ∈ e.nodes, kind node -> other node) : e.All other :=
  fun node member => implies node member (all node member)

namespace Expr

variable {mark : Mark} {name : String} {e test body func : Expr} {es args : List Expr}
  {kwargs : List (String × Expr)} {arms : List (Expr × Expr)}

/-- All nodes of a function are the function and those of its body. -/
theorem all_fn {signature : Signature} : (fn mark signature body).All kind ↔
    kind (fn mark signature body) ∧ body.All kind := by
  simp [All, nodes]

/-- All nodes of a call are the call and those of its parts. -/
theorem all_call : (call mark func args kwargs).All kind ↔ kind (call mark func args kwargs) ∧
    func.All kind ∧ AllOf kind args ∧ AllOfKwargs kind kwargs := by
  simp [All, AllOf, AllOfKwargs, nodes, or_imp, forall_and]

theorem all_cond_none : (cond mark arms none).All kind ↔
    kind (cond mark arms none) ∧ AllOfArms kind arms := by
  simp [All, AllOfArms, nodes]

theorem all_cond_some : (cond mark arms (some e)).All kind ↔
    kind (cond mark arms (some e)) ∧ AllOfArms kind arms ∧ e.All kind := by
  simp [All, AllOfArms, nodes, or_imp, forall_and]

/-- All nodes of a conditional are the conditional and those of its arms and its alternative. -/
theorem all_cond {alt : Option Expr} : (cond mark arms alt).All kind ↔
    kind (cond mark arms alt) ∧ AllOfArms kind arms ∧ AllOf kind alt.toList := by
  cases alt <;> simp [All, AllOfArms, AllOf, nodes, or_imp, forall_and]

theorem all_short {op : Connective} :
    (short mark op es).All kind ↔ kind (short mark op es) ∧ AllOf kind es := by
  simp [All, AllOf, nodes]

theorem all_seq : (seq mark es).All kind ↔ kind (seq mark es) ∧ AllOf kind es := by
  simp [All, AllOf, nodes]

theorem all_bind : (bind mark name e).All kind ↔ kind (bind mark name e) ∧ e.All kind := by
  simp [All, nodes]

theorem all_assign : (assign mark name e).All kind ↔ kind (assign mark name e) ∧ e.All kind := by
  simp [All, nodes]

theorem all_loop : (loop mark test body).All kind ↔
    kind (loop mark test body) ∧ test.All kind ∧ body.All kind := by
  simp [All, nodes, or_imp, forall_and]

theorem all_jump_none : (jump mark func args kwargs none).All kind ↔
    kind (jump mark func args kwargs none) ∧ func.All kind ∧ AllOf kind args ∧
      AllOfKwargs kind kwargs := by
  simp [All, AllOf, AllOfKwargs, nodes, or_imp, forall_and]

theorem all_jump_some : (jump mark func args kwargs (some e)).All kind ↔
    kind (jump mark func args kwargs (some e)) ∧ func.All kind ∧ AllOf kind args ∧
      AllOfKwargs kind kwargs ∧ e.All kind := by
  simp [All, AllOf, AllOfKwargs, nodes, or_imp, forall_and]

/-- All nodes of a jump are the jump and those of its parts. -/
theorem all_jump {cc : Option Expr} : (jump mark func args kwargs cc).All kind ↔
    kind (jump mark func args kwargs cc) ∧ func.All kind ∧ AllOf kind args ∧
      AllOfKwargs kind kwargs ∧ AllOf kind cc.toList := by
  cases cc <;> simp [All, AllOf, AllOfKwargs, nodes, or_imp, forall_and]

theorem all_capture {binders : List String} : (capture mark binders e).All kind ↔
    kind (capture mark binders e) ∧ e.All kind := by
  simp [All, nodes]

end Expr

/-- All nodes of several expressions are those of the first and of the others. -/
theorem allOf_cons {rest : List Expr} : AllOf kind (e :: rest) ↔ e.All kind ∧ AllOf kind rest := by
  simp [Expr.All, AllOf, nodesOfAll, or_imp, forall_and]

/-- All nodes of keyword arguments are those of the first and of the others. -/
theorem allOfKwargs_cons {name : String} {rest : List (String × Expr)} :
    AllOfKwargs kind ((name, e) :: rest) ↔ e.All kind ∧ AllOfKwargs kind rest := by
  simp [Expr.All, AllOfKwargs, nodesOfKwargs, or_imp, forall_and]

/-- All nodes of arms are those of the first and of the others. -/
theorem allOfArms_cons {test : Expr} {rest : List (Expr × Expr)} :
    AllOfArms kind ((test, body) :: rest) ↔
      test.All kind ∧ body.All kind ∧ AllOfArms kind rest := by
  simp [Expr.All, AllOfArms, nodesOfArms, or_imp, forall_and]

mutual

/-- What holds of all expressions holds of those in each of them. -/
theorem Expr.All.nested : ∀ {e : Expr}, e.All kind -> e.All (·.All kind)
  | .lit .., all => by simpa [Expr.All, Expr.nodes] using all
  | .var .., all => by simpa [Expr.All, Expr.nodes] using all
  | .fn .., all => Expr.all_fn.mpr ⟨all, Expr.All.nested (Expr.all_fn.mp all).2⟩
  | .call .., all => by
    obtain ⟨_, funcs, values, named⟩ := Expr.all_call.mp all
    exact Expr.all_call.mpr ⟨all, funcs.nested, AllOf.nested values, AllOfKwargs.nested named⟩
  | .cond _ _ none, all =>
    Expr.all_cond_none.mpr ⟨all, AllOfArms.nested (Expr.all_cond_none.mp all).2⟩
  | .cond _ _ (some _), all => by
    obtain ⟨_, ofArms, ofAlt⟩ := Expr.all_cond_some.mp all
    exact Expr.all_cond_some.mpr ⟨all, AllOfArms.nested ofArms, ofAlt.nested⟩
  | .short .., all => Expr.all_short.mpr ⟨all, AllOf.nested (Expr.all_short.mp all).2⟩
  | .seq .., all => Expr.all_seq.mpr ⟨all, AllOf.nested (Expr.all_seq.mp all).2⟩
  | .bind .., all => Expr.all_bind.mpr ⟨all, Expr.All.nested (Expr.all_bind.mp all).2⟩
  | .assign .., all => Expr.all_assign.mpr ⟨all, Expr.All.nested (Expr.all_assign.mp all).2⟩
  | .loop .., all => by
    obtain ⟨_, tests, bodies⟩ := Expr.all_loop.mp all
    exact Expr.all_loop.mpr ⟨all, tests.nested, bodies.nested⟩
  | .jump _ _ _ _ none, all => by
    obtain ⟨_, funcs, values, named⟩ := Expr.all_jump_none.mp all
    exact Expr.all_jump_none.mpr ⟨all, funcs.nested, AllOf.nested values, AllOfKwargs.nested named⟩
  | .jump _ _ _ _ (some _), all => by
    obtain ⟨_, funcs, values, named, ofCc⟩ := Expr.all_jump_some.mp all
    exact Expr.all_jump_some.mpr
      ⟨all, funcs.nested, AllOf.nested values, AllOfKwargs.nested named, ofCc.nested⟩
  | .capture .., all => Expr.all_capture.mpr ⟨all, Expr.All.nested (Expr.all_capture.mp all).2⟩

theorem AllOf.nested : ∀ {es : List Expr}, AllOf kind es -> AllOf (·.All kind) es
  | [], _ => fun _ member => absurd member List.not_mem_nil
  | _ :: _, all => by
    obtain ⟨first, others⟩ := allOf_cons.mp all
    exact allOf_cons.mpr ⟨first.nested, AllOf.nested others⟩

theorem AllOfKwargs.nested : ∀ {kwargs : List (String × Expr)}, AllOfKwargs kind kwargs ->
    AllOfKwargs (·.All kind) kwargs
  | [], _ => fun _ member => absurd member List.not_mem_nil
  | (_, _) :: _, all => by
    obtain ⟨first, others⟩ := allOfKwargs_cons.mp all
    exact allOfKwargs_cons.mpr ⟨first.nested, AllOfKwargs.nested others⟩

theorem AllOfArms.nested : ∀ {arms : List (Expr × Expr)}, AllOfArms kind arms ->
    AllOfArms (·.All kind) arms
  | [], _ => fun _ member => absurd member List.not_mem_nil
  | (_, _) :: _, all => by
    obtain ⟨tests, bodies, others⟩ := allOfArms_cons.mp all
    exact allOfArms_cons.mpr ⟨tests.nested, bodies.nested, AllOfArms.nested others⟩

end

mutual

/-- What holds of all expressions holds of those on the way to the end. -/
theorem Expr.All.tailPath : ∀ {e : Expr}, e.All kind -> ∀ node ∈ e.tailPath, kind node
  | .seq .., all => List.forall_mem_cons.mpr
    ⟨all.self, AllOf.tailPathOfLast (Expr.all_seq.mp all).2⟩
  | .cond _ _ none, all => by
    refine List.forall_mem_cons.mpr ⟨all.self, List.forall_mem_append.mpr ⟨?_, ?_⟩⟩
    · exact AllOfArms.tailPathOfArms (Expr.all_cond_none.mp all).2
    · exact fun _ member => absurd member List.not_mem_nil
  | .cond _ _ (some _), all => by
    obtain ⟨_, ofArms, ofAlt⟩ := Expr.all_cond_some.mp all
    exact List.forall_mem_cons.mpr ⟨all.self, List.forall_mem_append.mpr
      ⟨AllOfArms.tailPathOfArms ofArms, Expr.All.tailPath ofAlt⟩⟩
  | .short .., all => List.forall_mem_cons.mpr
    ⟨all.self, AllOf.tailPathOfLast (Expr.all_short.mp all).2⟩
  | .lit .., all | .var .., all | .fn .., all | .call .., all | .bind .., all | .assign .., all
  | .loop .., all | .jump .., all | .capture .., all => List.forall_mem_singleton.mpr all.self

theorem AllOf.tailPathOfLast : ∀ {es : List Expr}, AllOf kind es ->
    ∀ node ∈ Trampoline.tailPathOfLast es, kind node
  | [], _ => fun _ member => absurd member List.not_mem_nil
  | [_], all => Expr.All.tailPath (allOf_cons.mp all).1
  | _ :: _ :: _, all => by
    have last := AllOf.tailPathOfLast (allOf_cons.mp all).2
    exact last

/-- The ways through arms go through nodes. -/
theorem AllOfArms.tailPathOfArms : ∀ {arms : List (Expr × Expr)}, AllOfArms kind arms ->
    ∀ node ∈ Trampoline.tailPathOfArms arms, kind node
  | [], _ => fun _ member => absurd member List.not_mem_nil
  | (_, _) :: _, all => by
    obtain ⟨_, bodies, others⟩ := allOfArms_cons.mp all
    exact List.forall_mem_append.mpr
      ⟨Expr.All.tailPath bodies, AllOfArms.tailPathOfArms others⟩

end

/-! ## Functions -/

section Functions

variable {function : Function}

mutual

/-- The functions in an expression are those among its nodes. -/
theorem Expr.mem_functions : ∀ e : Expr,
    function ∈ e.functions ↔ ∃ mark, .fn mark function.signature function.body ∈ e.nodes
  | .lit .. | .var .. => by simp [Expr.functions, Expr.nodes]
  | .fn mark signature body => by
    have self :
      (∃ other, Expr.fn other function.signature function.body = .fn mark signature body) ↔
        function = ⟨signature, body⟩ := by
      cases function
      simp
    simp only [Expr.functions, Expr.nodes, List.mem_append, List.mem_cons, exists_or, self,
      body.mem_functions, List.not_mem_nil, or_false]
    exact or_comm
  | .call _ func args kwargs => by
    simp only [Expr.functions, Expr.nodes, List.mem_append, List.mem_cons, reduceCtorEq, false_or,
      exists_or, func.mem_functions, mem_functionsOfAll args, mem_functionsOfKwargs kwargs]
  | .cond _ arms none => by
    simp only [Expr.functions, Expr.nodes, List.mem_append, List.mem_cons, reduceCtorEq, false_or,
      exists_or, mem_functionsOfArms arms, List.not_mem_nil, exists_false]
  | .cond _ arms (some e) => by
    simp only [Expr.functions, Expr.nodes, List.mem_append, List.mem_cons, reduceCtorEq, false_or,
      exists_or, mem_functionsOfArms arms, e.mem_functions]
  | .short _ _ es | .seq _ es => by
    simp only [Expr.functions, Expr.nodes, List.mem_cons, reduceCtorEq, false_or,
      mem_functionsOfAll es]
  | .bind _ _ e | .assign _ _ e | .capture _ _ e => by
    simp only [Expr.functions, Expr.nodes, List.mem_cons, reduceCtorEq, false_or, e.mem_functions]
  | .loop _ test body => by
    simp only [Expr.functions, Expr.nodes, List.mem_append, List.mem_cons, reduceCtorEq, false_or,
      exists_or, test.mem_functions, body.mem_functions]
  | .jump _ func args kwargs none => by
    simp only [Expr.functions, Expr.nodes, List.mem_append, List.mem_cons, reduceCtorEq, false_or,
      exists_or, func.mem_functions, mem_functionsOfAll args, mem_functionsOfKwargs kwargs,
      List.not_mem_nil, exists_false]
  | .jump _ func args kwargs (some e) => by
    simp only [Expr.functions, Expr.nodes, List.mem_append, List.mem_cons, reduceCtorEq, false_or,
      exists_or, func.mem_functions, mem_functionsOfAll args, mem_functionsOfKwargs kwargs,
      e.mem_functions]

theorem mem_functionsOfAll : ∀ es : List Expr, function ∈ functionsOfAll es ↔
    ∃ mark, .fn mark function.signature function.body ∈ nodesOfAll es
  | [] => by simp [functionsOfAll, nodesOfAll]
  | e :: rest => by
    simp only [functionsOfAll, nodesOfAll, List.mem_append, exists_or, e.mem_functions,
      mem_functionsOfAll rest]

theorem mem_functionsOfKwargs : ∀ kwargs : List (String × Expr),
    function ∈ functionsOfKwargs kwargs ↔
      ∃ mark, .fn mark function.signature function.body ∈ nodesOfKwargs kwargs
  | [] => by simp [functionsOfKwargs, nodesOfKwargs]
  | (_, e) :: rest => by
    simp only [functionsOfKwargs, nodesOfKwargs, List.mem_append, exists_or, e.mem_functions,
      mem_functionsOfKwargs rest]

theorem mem_functionsOfArms : ∀ arms : List (Expr × Expr), function ∈ functionsOfArms arms ↔
    ∃ mark, .fn mark function.signature function.body ∈ nodesOfArms arms
  | [] => by simp [functionsOfArms, nodesOfArms]
  | (test, body) :: rest => by
    simp only [functionsOfArms, nodesOfArms, List.mem_append, exists_or, test.mem_functions,
      body.mem_functions, mem_functionsOfArms rest]

end

/-- Inserting a function by its number adds it and nothing else. -/
theorem Program.mem_insertById {other : Function} : ∀ {functions : List Function},
    other ∈ Program.insertById function functions ↔ other = function ∨ other ∈ functions
  | [] => List.mem_singleton.trans (or_iff_left List.not_mem_nil).symm
  | first :: rest => by
    unfold Program.insertById
    by_cases before : function.signature.id < first.signature.id
    · rw [if_pos before, List.mem_cons]
    · rw [if_neg before, List.mem_cons, Program.mem_insertById, List.mem_cons]
      exact or_left_comm

/-- The functions of several expressions are those of each. -/
theorem functionsOfAll_eq_flatMap (es : List Expr) :
    functionsOfAll es = es.flatMap Expr.functions := by
  induction es with
  | nil => rfl
  | cons e rest ih => rw [functionsOfAll, ih, List.flatMap_cons]

variable {program : Program}

/-- The functions of a program are those of its toplevel forms. -/
theorem Program.mem_functions_iff :
    function ∈ program.functions ↔ function ∈ functionsOfAll (program.top.map Toplevel.expr) := by
  have sorted : ∀ functions : List Function,
      function ∈ functions.foldr Program.insertById [] ↔ function ∈ functions := by
    intro functions
    induction functions with
    | nil => rfl
    | cons first rest ih => rw [List.foldr_cons, Program.mem_insertById, ih, List.mem_cons]
  rw [Program.functions, sorted, functionsOfAll_eq_flatMap, List.flatMap_map]

/-- The expressions of a program are those in its toplevel forms. -/
theorem Program.nodes_eq (program : Program) :
    program.nodes = nodesOfAll (program.top.map Toplevel.expr) := by
  unfold Program.nodes
  induction program.top with
  | nil => rfl
  | cons form rest ih => rw [List.flatMap_cons, ih, List.map_cons, nodesOfAll]

/-- The functions of a program are those among its expressions. -/
theorem Program.mem_functions : function ∈ program.functions ↔
    ∃ mark, .fn mark function.signature function.body ∈ program.nodes := by
  rw [Program.mem_functions_iff, mem_functionsOfAll, program.nodes_eq]

/-- A function expression among the nodes is a function of the program. -/
theorem Program.mem_functions_of_mem {mark : Mark} {signature : Signature}
    {body : Expr} (member : .fn mark signature body ∈ program.nodes) :
    ⟨signature, body⟩ ∈ program.functions :=
  Program.mem_functions.mpr ⟨mark, member⟩

end Functions

/-- What holds of all expressions in a program holds of those in the bodies of its functions. -/
theorem Program.all_body {program : Program} (all : ∀ node ∈ program.nodes, kind node) {mark : Mark}
    {signature : Signature} (member : .fn mark signature body ∈ program.nodes) : body.All kind := by
  obtain ⟨form, inTop, inForm⟩ := List.mem_flatMap.mp member
  have ofForm : form.expr.All kind :=
    fun node inside => all node (List.mem_flatMap.mpr ⟨form, inTop, inside⟩)
  exact (Expr.all_fn.mp (ofForm.nested _ inForm)).2

end All

end Trampoline
