import Trampoline.Proofs.Rewriting.Origins
import Trampoline.Proofs.Syntax.Loans

/-!
# What rewriting does with lent names

Outside `continuations` blocks a body is rewritten by turning its returned calls into jumps, but no
calls to escape names. So an escape name that is lent to a body is still only called there.
-/

namespace Trampoline

open Transform

variable {escapes : List String} {table : DecoratorTable} {free lent : String -> Prop}

/-! ## Bodies -/

mutual

/-- Calls to what is lent are not deferred. -/
theorem Expr.Honours.deferTails (named : ∀ name, lent name -> name ∈ escapes) : ∀ {e : Expr},
    e.Honours free lent -> (e.deferTails escapes).Honours free lent
  | .seq .., honour | .short .., honour => AllHonour.deferLast named honour
  | .cond _ _ none, ⟨ofArms, _⟩ => ⟨ofArms.deferArms named, trivial⟩
  | .cond _ _ (some _), ⟨ofArms, ofAlt⟩ => ⟨ofArms.deferArms named, ofAlt.deferTails named⟩
  | .call mark func args kwargs, ⟨ofFunc, ofArgs, ofKwargs⟩ => by
    simp only [Expr.deferTails]
    split
    · exact ⟨ofFunc, ofArgs, ofKwargs⟩
    · next other =>
      refine ⟨ofFunc.resolve_right fun isLent => other ?_, ofArgs, ofKwargs, trivial⟩
      cases func with
      | var _ name => exact List.contains_iff_mem.mpr (named name isLent)
      | _ => exact isLent.elim
  | .lit .., honours | .var .., honours | .fn .., honours | .bind .., honours
  | .assign .., honours | .loop .., honours | .jump .., honours | .capture .., honours => honours

theorem AllHonour.deferLast (named : ∀ name, lent name -> name ∈ escapes) : ∀ {es : List Expr},
    AllHonour free lent es -> AllHonour free lent (Trampoline.deferLast escapes es)
  | [], _ => trivial
  | [_], ⟨ofLast, _⟩ => ⟨ofLast.deferTails named, trivial⟩
  | _ :: _ :: _, ⟨ofFirst, ofRest⟩ => ⟨ofFirst, AllHonour.deferLast named ofRest⟩

theorem ArmsHonour.deferArms (named : ∀ name, lent name -> name ∈ escapes) :
    ∀ {arms : List (Expr × Expr)},
      ArmsHonour free lent arms -> ArmsHonour free lent (Trampoline.deferArms escapes arms)
  | [], _ => trivial
  | (_, _) :: _, ⟨ofTest, ofBody, ofRest⟩ =>
    ⟨ofTest, ofBody.deferTails named, ofRest.deferArms named⟩

end

/-- What the second expression is lent it honours as the first does. -/
def Expr.HonoursAs (escapes : List String) (e e' : Expr) : Prop :=
  ∀ {free lent : String -> Prop}, (∀ name, lent name -> name ∈ escapes) ->
    e.Honours free lent -> e'.Honours free lent

/-- Functions become others that honour what is lent to them as before. -/
def KeepHonour (escapes : List String) (becomes : Function -> Function -> Prop) : Prop :=
  ∀ function other, becomes function other -> function.body.HonoursAs escapes other.body

variable {becomes : Function -> Function -> Prop}

/-- Mapping functions leaves an expression what is lent. -/
theorem Mapping.isLent {e e' : Expr} (mapping : Mapping becomes e e') (isLent : e.IsLent lent) :
    e'.IsLent lent := by
  cases mapping with
  | var => exact isLent
  | _ => exact isLent.elim

mutual

/-- An expression whose functions become others honours what is lent as before. -/
theorem Mapping.honours (keeps : KeepHonour escapes becomes) : ∀ {e e' : Expr}
    {free lent : String -> Prop}, Mapping becomes e e' -> (∀ name, lent name -> name ∈ escapes) ->
      e.Honours free lent -> e'.Honours free lent
  | _, _, _, _, .lit, _, _ => trivial
  | _, _, _, _, .var, _, isFree => isFree
  | _, _, _, _, .fn inside self, _, ofBody =>
    keeps _ _ self (fun _ => False.elim) (inside.honours keeps (fun _ => False.elim) ofBody)
  | _, _, _, _, .call func args kwargs, named, ⟨ofFunc, ofArgs, ofKwargs⟩ =>
    ⟨ofFunc.imp (func.honours keeps named) func.isLent, args.honour keeps named ofArgs,
      kwargs.honour keeps named ofKwargs⟩
  | _, _, _, _, .condNone arms, named, ⟨ofArms, _⟩ => ⟨arms.honour keeps named ofArms, trivial⟩
  | _, _, _, _, .condSome arms alt, named, ⟨ofArms, ofAlt⟩ =>
    ⟨arms.honour keeps named ofArms, alt.honours keeps named ofAlt⟩
  | _, _, _, _, .short parts, named, honour | _, _, _, _, .seq parts, named, honour =>
    parts.honour keeps named honour
  | _, _, _, _, .bind bindee, named, honours => (bindee.honours keeps named honours :)
  | _, _, _, _, .assign bindee, named, ⟨isFree, honours⟩ =>
    ⟨isFree, bindee.honours keeps named honours⟩
  | _, _, _, _, .loop test body, named, ⟨ofTest, ofBody⟩ =>
    ⟨test.honours keeps named ofTest, body.honours keeps named ofBody⟩
  | _, _, _, _, .jumpNone func args kwargs, named, ⟨ofFunc, ofArgs, ofKwargs, _⟩ =>
    ⟨func.honours keeps named ofFunc, args.honour keeps named ofArgs,
      kwargs.honour keeps named ofKwargs, trivial⟩
  | _, _, _, _, .jumpSome func args kwargs cc, named, ⟨ofFunc, ofArgs, ofKwargs, ofCc⟩ =>
    ⟨func.honours keeps named ofFunc, args.honour keeps named ofArgs,
      kwargs.honour keeps named ofKwargs, cc.honours keeps named ofCc⟩
  | _, _, _, _, .capture call, named, honours => (call.honours keeps named honours :)

theorem MappingAll.honour (keeps : KeepHonour escapes becomes) : ∀ {es es' : List Expr}
    {free lent : String -> Prop}, MappingAll becomes es es' ->
      (∀ name, lent name -> name ∈ escapes) -> AllHonour free lent es -> AllHonour free lent es'
  | _, _, _, _, .nil, _, _ => trivial
  | _, _, _, _, .cons first rest, named, ⟨ofFirst, ofRest⟩ =>
    ⟨first.honours keeps named ofFirst, rest.honour keeps named ofRest⟩

theorem MappingNamed.honour (keeps : KeepHonour escapes becomes) :
    ∀ {kwargs kwargs' : List (String × Expr)} {free lent : String -> Prop},
      MappingNamed becomes kwargs kwargs' -> (∀ name, lent name -> name ∈ escapes) ->
        NamedHonour free lent kwargs -> NamedHonour free lent kwargs'
  | _, _, _, _, .nil, _, _ => trivial
  | _, _, _, _, .cons first rest, named, ⟨ofFirst, ofRest⟩ =>
    ⟨first.honours keeps named ofFirst, rest.honour keeps named ofRest⟩

theorem MappingArms.honour (keeps : KeepHonour escapes becomes) :
    ∀ {arms arms' : List (Expr × Expr)} {free lent : String -> Prop},
      MappingArms becomes arms arms' -> (∀ name, lent name -> name ∈ escapes) ->
        ArmsHonour free lent arms -> ArmsHonour free lent arms'
  | _, _, _, _, .nil, _, _ => trivial
  | _, _, _, _, .cons test body rest, named, ⟨ofTest, ofBody, ofRest⟩ =>
    ⟨test.honours keeps named ofTest, body.honours keeps named ofBody,
      rest.honour keeps named ofRest⟩

end

/-! ## Programs -/

/-- How a function becomes another where its body is rewritten without being cut. -/
def Defers (escapes : List String) (function other : Function) : Prop :=
  other = function ∨ other = ⟨function.signature, function.body.deferTails escapes⟩

/-- A function outside `continuations` stays as it is or has its calls deferred. -/
theorem functionBody_defers {function : Function}
    (uncut : function.signature.regions.cont = false) :
    Produces True (functionBody escapes function) (Defers escapes function) := by
  unfold functionBody
  simp only [uncut, Bool.false_eq_true, if_false]
  refine .bind (.any _) fun _ _ => ?_
  by_cases deferred : function.signature.regions.tco = true
  · simp only [if_pos deferred]
    exact .bind (.any _) fun _ _ => .pure (.inr rfl)
  · simp only [if_neg deferred]
    exact .pure (.inl rfl)

namespace Defers

variable {function other : Function}

theorem signature (defers : Defers escapes function other) :
    other.signature = function.signature := by
  rcases defers with rfl | rfl <;> rfl

/-- Deferring calls changes no functions inside. -/
theorem functions (defers : Defers escapes function other) :
    other.body.functions ⊆ function.body.functions := by
  rcases defers with rfl | rfl
  · exact List.Subset.refl _
  · rw [Expr.functions_deferTails]
    exact List.Subset.refl _

/-- Deferring calls honours what is lent, if all that is lent is an escape name. -/
theorem keepHonour : KeepHonour escapes (Defers escapes) := by
  rintro function other (rfl | rfl) free lent named honours
  · exact honours
  · exact honours.deferTails named

end Defers

/-- Giving functions their wrappers honours what is lent. -/
theorem Dresses.keepHonour : KeepHonour escapes (Dresses table) := by
  intro function other dresses free lent _ honours
  obtain ⟨wrappers, rfl⟩ := dresses.eq
  exact honours

/-- A function that the expression is stands outside `continuations` blocks. -/
def Expr.Uncut : Expr -> Prop
  | .fn _ signature _ => signature.regions.cont = false
  | _ => True

variable {program : Program} {transformed : Transformed}

/-- Outside `continuations` blocks a program is transformed by deferring calls and then giving its
functions their wrappers. -/
theorem Program.transform_defers (succeeds : program.transform table escapes = .ok transformed)
    (uncut : ∀ function ∈ program.functions, function.signature.regions.cont = false) :
    ∃ middle, MappingAll (Defers escapes) (program.top.map Toplevel.expr) middle ∧
      MappingAll (Dresses table) middle (transformed.program.top.map Toplevel.expr) := by
  obtain ⟨_, middle, _, _, -, rewrites, dresses⟩ := Program.transform_stages succeeds
  have steps : StepsOn True Expr.Uncut (Defers escapes) (functionBody escapes) :=
    fun _ _ _ _ uncut _ => functionBody_defers uncut
  have all : ∀ form ∈ program.top, form.expr.All Expr.Uncut := by
    intro form member node inside
    cases node with
    | fn mark signature body =>
      have inProgram : .fn mark signature body ∈ program.nodes :=
        List.mem_flatMap.mpr ⟨form, member, inside⟩
      exact uncut ⟨signature, body⟩ (Program.mem_functions.mpr ⟨mark, inProgram⟩)
    | _ => trivial
  have always : ∀ form ∈ middle, form.expr.All fun _ => True := fun _ _ _ _ => trivial
  exact ⟨_, ((mapFunctionsOfTop_mapping steps _ all).of_ok rewrites).exprs,
    ((mapFunctionsOfTop_mapping Dresses.stepsOn _ always).of_ok dresses).exprs⟩

/-- A function of a transformed program without `continuations` blocks is one of the program with
its wrappers, and it honours what is lent to it as before. -/
theorem Program.transform_uncut (succeeds : program.transform table escapes = .ok transformed)
    (uncut : ∀ function ∈ program.functions, function.signature.regions.cont = false)
    {dressed : Function} (member : dressed ∈ transformed.program.functions) :
    ∃ function ∈ program.functions, function.signature.Dressed table dressed.signature ∧
      function.body.HonoursAs escapes dressed.body := by
  obtain ⟨middle, rewriting, dressing⟩ := Program.transform_defers succeeds uncut
  obtain ⟨rewritten, listed, comes⟩ :=
    dressing.origins dressed (Program.mem_functions_iff.mp member)
  obtain ⟨body, mapped, dresses⟩ := comes.alone fun _ _ dresses => dresses.akin.2
  obtain ⟨function, written, comes⟩ := rewriting.origins rewritten listed
  obtain ⟨body', mapped', defers⟩ := comes.alone fun _ _ defers => defers.functions
  refine ⟨function, Program.mem_functions_iff.mpr written, ?_, fun named honours => ?_⟩
  · have same := dresses.akin.1
    rwa [show rewritten.signature = function.signature from defers.signature] at same
  · have rewrites :=
      Defers.keepHonour _ _ defers named (mapped'.honours Defers.keepHonour named honours)
    exact Dresses.keepHonour _ _ dresses named (mapped.honours Dresses.keepHonour named rewrites)

end Trampoline
