import Trampoline.Proofs.Rewriting.Forests

/-!
# Calls to escape names

The transformation turns calls into jumps, which are made after the function has returned. Calls to
escape names stay calls wherever returns are deferred or passed to the continuation, but not where
they are captured: the captured call becomes a jump whatever it calls.
-/

namespace Trampoline

open Transform

variable {escapes : List String} {table : DecoratorTable} {nodes : List Expr}

/-- A jump with these operands hands a value to the continuation of the function. -/
structure HandsValueOver (callee : Expr) (args : List Expr) (kwargs : List (String × Expr))
    (cc : Option Expr) : Prop where
  callee : ∃ mark, callee = .var mark continuationParam
  args : args.length = 1
  kwargs : kwargs = []
  cc : cc = none

/-- Among the expressions is a capture of a call to the callee. -/
def Captured (nodes : List Expr) (callee : Expr) (binders : List String) : Prop :=
  ∃ mark callMark args kwargs, .capture mark binders (.call callMark callee args kwargs) ∈ nodes

/-- A jump with these operands is a captured call of one of the expressions, which takes along the
rest of the block, as a continuation function with the variables of the capture. -/
def ResumesCut (nodes : List Expr) (callee : Expr) (cc : Option Expr) : Prop :=
  ∃ mark signature body, cc = some (.fn mark signature body) ∧ signature.kind = .continuation ∧
    Captured nodes callee signature.params

/-- If the expression is a jump to an escape name, it hands a value over or comes of one of the
captures; if it captures a call to an escape name, it comes of one of them too. -/
def Expr.Spares (escapes : List String) (nodes : List Expr) : Expr -> Prop
  | .jump _ callee args kwargs cc => callee.isNameIn escapes = true ->
    HandsValueOver callee args kwargs cc ∨ ResumesCut nodes callee cc
  | .capture _ binders (.call _ callee _ _) => callee.isNameIn escapes = true ->
    Captured nodes callee binders
  | _ => True

/-! ## Bodies -/

/-- Rewriting a body without jumps on its tail path makes no others. -/
theorem spares_closed : ClosedUnderRewriting escapes False (Expr.Spares escapes nodes) where
  moved {e mark} spares _ := by
    cases e with
    | capture _ _ call => cases call <;> exact spares
    | _ => exact spares
  block _ _ := trivial
  cond _ := trivial
  short _ := trivial
  continuation _ _ := trivial
  nil _ _ := trivial
  handOver _ _ _ := .inl ⟨⟨_, rfl⟩, rfl, rfl, rfl⟩
  defer other _ named := absurd named (by simp [other])
  pass other _ named := absurd named (by simp [other])
  passJump never := never.elim
  cutCall captures _ _ named := .inr ⟨_, _, _, rfl, rfl, captures named⟩
  cutRest _ _ := trivial

/-! ## Programs -/

variable {becomes : Function -> Function -> Prop}

/-- A callee that is a name stays what it is. -/
theorem Mapping.callee {callee callee' : Expr} (mapping : Mapping becomes callee callee')
    (named : callee'.isNameIn escapes = true) : callee = callee' := by
  cases mapping with
  | var => rfl
  | _ => cases named

/-- An expression in a source without jumps. -/
def Expr.JumplessIn (nodes : List Expr) (e : Expr) : Prop := e ∈ nodes ∧ e.isJump = false

theorem Mapping.isJump {e e' : Expr} (mapping : Mapping becomes e e') : e'.isJump = e.isJump := by
  cases mapping <;> rfl

/-- Rewriting the bodies of a program without jumps spares its escapes. -/
theorem Mapping.spares {e e' : Expr} (mapping : Mapping (Rewrites escapes) e e')
    (all : e.All (Expr.JumplessIn nodes)) : e'.All (Expr.Spares escapes nodes) := by
  refine mapping.all ?_ ?_ all
  · intro mark signature body body' function all inside ofBody rewrites
    refine Expr.all_fn.mpr ⟨trivial, rewrites.of (spares_closed.functionBody_all ofBody ?_)⟩
    intro node' onPath jumps
    obtain ⟨node, before, same⟩ := inside.tailPath node' onPath
    have jumpless := ((Expr.all_fn.mp all).2.tailPath node before).2
    rw [← same.isJump, jumps] at jumpless
    cases jumpless
  · rintro e e' - mapping ⟨inSource, jumpless⟩
    cases mapping with
    | jumpNone | jumpSome => cases jumpless
    | capture call =>
      cases call with
      | call func =>
        intro named
        obtain rfl := func.callee named
        exact ⟨_, _, _, _, inSource⟩
      | _ => trivial
    | _ => trivial

theorem MappingAll.length_eq {es es' : List Expr} (mapping : MappingAll becomes es es') :
    es'.length = es.length := by
  induction es generalizing es' with
  | nil =>
    cases mapping
    rfl
  | cons e rest ih =>
    cases mapping with
    | cons _ others => rw [List.length_cons, List.length_cons, ih others]

/-- Giving functions their wrappers adds no jumps. -/
theorem Mapping.spares_dressed {e e' : Expr} (mapping : Mapping (Dresses table) e e')
    (all : e.All (Expr.Spares escapes nodes)) : e'.All (Expr.Spares escapes nodes) := by
  refine mapping.all ?_ ?_ all
  · intro mark signature body body' function _ _ ofBody dresses
    obtain ⟨wrappers, rfl⟩ := dresses.eq
    exact Expr.all_fn.mpr ⟨trivial, ofBody⟩
  · intro e e' _ mapping spares
    cases mapping with
    | jumpNone func args kwargs =>
      intro named
      obtain rfl := func.callee named
      rcases spares named with ⟨callee, one, rfl, -⟩ | ⟨_, _, _, ⟨⟩, _⟩
      cases kwargs
      exact .inl ⟨callee, args.length_eq.trans one, rfl, rfl⟩
    | jumpSome func args kwargs cc =>
      intro named
      obtain rfl := func.callee named
      rcases spares named with ⟨_, _, _, ⟨⟩⟩ | ⟨_, _, _, ⟨⟩, resumes⟩
      cases cc with
      | fn _ self =>
        obtain ⟨wrappers, rfl⟩ := self.eq
        exact .inr ⟨_, _, _, rfl, resumes⟩
    | capture call =>
      cases call with
      | call func =>
        intro named
        obtain rfl := func.callee named
        exact spares named
      | _ => trivial
    | _ => trivial

/-- Whatever is returned, calls to escape names are not deferred, unless they are captured: a jump
to an escape name hands a value over, if the name is that of the continuation, or it is a captured
call, which takes the rest of the block along. -/
theorem Program.escapes_undeferred {program : Program} {transformed : Transformed}
    (jumpless : ∀ node ∈ program.nodes, node.isJump = false)
    (succeeds : program.transform table escapes = .ok transformed) {mark : Mark} {callee : Expr}
    {args : List Expr} {kwargs : List (String × Expr)} {cc : Option Expr}
    (member : .jump mark callee args kwargs cc ∈ transformed.program.nodes)
    (named : callee.isNameIn escapes = true) :
    HandsValueOver callee args kwargs cc ∨ ResumesCut program.nodes callee cc := by
  obtain ⟨middle, rewriting, dressing⟩ := Program.transform_mapping succeeds
  have source : AllOf (Expr.JumplessIn program.nodes) (program.top.map Toplevel.expr) := by
    rw [AllOf, ← Program.nodes_eq]
    exact fun node member => ⟨member, jumpless node member⟩
  have rewritten := rewriting.all (fun _ _ mapping => mapping.spares) source
  have dressed := dressing.all (fun _ _ mapping => mapping.spares_dressed) rewritten
  rw [Program.nodes_eq] at member
  exact dressed _ member named

/-- The callee of a jump. -/
def Expr.jumpTarget? : Expr -> Option Expr
  | .jump _ callee _ _ _ => some callee
  | _ => none

/-- Functions that return by escape calls, after a capture too. -/
def escapingReturns : String :=
  "(tco (defn find (ec n) :decorators (call-ec) (if (< n 9) (ec n) (find (+ n 1)))))
  (continuations
    (defn stop (ec f) :decorators (call-ec)
      (capture (r) (f 1))
      (if r (ec r) (f r))))"

/-- A body that returns in all ways to an escape is an instance: no jump calls the escape. -/
theorem escapingReturns_undeferred : ∃ transformed,
    (Program.ofText escapingReturns).transform .default ["ec"] = .ok transformed ∧
    (transformed.program.nodes.filterMap Expr.jumpTarget?).length = 3 ∧
    ∀ callee ∈ transformed.program.nodes.filterMap Expr.jumpTarget?,
      callee.isNameIn ["ec"] = false := by
  have ⟨jumpless, captured, ends⟩ :
      (∀ node ∈ (Program.ofText escapingReturns).nodes, node.isJump = false) ∧
      (∀ node ∈ (Program.ofText escapingReturns).nodes, ∀ part ∈ node.parts,
        node.isCapture = true -> part.isCallTo ["ec"] = false) ∧
      ((Program.ofText escapingReturns).transform .default ["ec"]).toOption.any (fun transformed =>
        (transformed.program.nodes.filterMap Expr.jumpTarget?).length == 3) = true := by
    rw [Program.ofText, escapingReturns, Program.parse_ofList]
    decide +kernel
  cases succeeds : (Program.ofText escapingReturns).transform .default ["ec"] with
  | error error => simp [succeeds, Except.toOption] at ends
  | ok transformed =>
    simp only [succeeds, Except.toOption, Option.any_some, beq_iff_eq] at ends
    refine ⟨transformed, rfl, ends, fun callee member => Bool.eq_false_iff.mpr fun named => ?_⟩
    obtain ⟨node, inside, target⟩ := List.mem_filterMap.mp member
    cases node with
    | jump =>
      cases target
      rcases Program.escapes_undeferred jumpless succeeds inside named with
        ⟨⟨_, rfl⟩, -⟩ | ⟨_, _, _, -, -, _, _, _, _, capture⟩
      · simp [Expr.isNameIn, continuationParam] at named
      · exact absurd named (Bool.eq_false_iff.mp (captured _ capture _ List.mem_cons_self rfl))
    | _ => cases target

/-- A captured escape call. -/
def capturedEscape : String :=
  "(continuations (defn f (ec) :decorators (call-ec) (capture (r) (ec 1)) r))
  (f)"

/-- A captured escape call is the exception: it becomes a jump. -/
theorem capturedEscape_deferred :
    (∀ node ∈ (Program.ofText capturedEscape).nodes, node.isJump = false) ∧
    ((Program.ofText capturedEscape).transform .default ["ec", "brk"]).toOption.any
      (fun transformed =>
      (transformed.program.nodes.filterMap Expr.jumpTarget?).any
        (Expr.isNameIn ["ec", "brk"])) = true := by
  rw [Program.ofText, capturedEscape, Program.parse_ofList]
  decide +kernel

end Trampoline
