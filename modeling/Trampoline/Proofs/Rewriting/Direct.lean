import Trampoline.Proofs.Rewriting.Functions

/-!
# Programs in direct style

A program in direct style is related to itself as it is, with every function kept: so its runs can
be compared with those on a machine whose handlers let some errors pass. Without captures a program
is in direct style already.
-/

namespace Trampoline

variable {mode : Rewriting} {escapes : List String}

/-! ## Programs as they are -/

/-- The comparison of a program with itself, up to these errors. -/
def Rewriting.same (lost : EvalError -> Bool) : Rewriting :=
  ⟨false, false, true, lost, fun passing => absurd passing Bool.noConfusion⟩

variable {lost : EvalError -> Bool}

/-- Every name may be seen in the comparison of a program with itself. -/
theorem Rewriting.same_sees (name : String) : (Rewriting.same lost).Sees name :=
  ⟨fun passing => absurd passing Bool.noConfusion, fun total => absurd total Bool.noConfusion⟩

/-- Every keyword may be named in the comparison of a program with itself. -/
theorem Rewriting.same_names (keyword : String) : (Rewriting.same lost).Names keyword :=
  fun passing => absurd passing Bool.noConfusion

/-- A function that fits a comparison is related to itself. -/
theorem Rewriting.FitsFunction.same {signature : Signature} {body : Expr}
    (fits : mode.FitsFunction escapes signature body) :
    SignatureRel (.same lost) .kept signature signature where
  id := rfl
  name := rfl
  params := rfl
  seen := fun param _ => Rewriting.same_sees param
  passing := fun passing => absurd passing Treatment.noConfusion
  bare := fits.bare
  wrappers := fun _ => fits.bare
  pending := fun undressed => absurd undressed Bool.noConfusion
  plain := ⟨fits.kind, fits.kind⟩
  strict := ⟨fits.strict, fits.strict⟩

mutual

/-- The direct form of an expression that fits is related to itself. -/
theorem Expr.direct_same (lost : EvalError -> Bool) : ∀ e : Expr, e.All (mode.Fits escapes) ->
    ExprRel (.same lost) e.direct e.direct
  | .lit .., _ => .lit
  | .var _ name, _ => .var (Rewriting.same_sees name)
  | .fn _ signature body, all => by
    obtain ⟨fits, inside⟩ := Expr.all_fn.mp all
    exact .fn fits.same (.kept (body.direct_same lost inside))
  | .call _ func args kwargs, all => by
    obtain ⟨_, funcs, values, named⟩ := Expr.all_call.mp all
    exact .call (func.direct_same lost funcs) (directAll_same lost args values)
      (directKwargs_same lost kwargs named)
  | .cond _ arms none, all => .condNone (directArms_same lost arms (Expr.all_cond_none.mp all).2)
  | .cond _ arms (some alt), all => by
    obtain ⟨_, ofArms, ofAlt⟩ := Expr.all_cond_some.mp all
    exact .condSome (directArms_same lost arms ofArms) (alt.direct_same lost ofAlt)
  | .short _ _ es, all => .short (directAll_same lost es (Expr.all_short.mp all).2)
  | .seq _ es, all => .seq (directAll_same lost es (Expr.all_seq.mp all).2)
  | .bind _ name e, all =>
    .bind (Rewriting.same_sees name) (e.direct_same lost (Expr.all_bind.mp all).2)
  | .assign _ name e, all =>
    .assign (Rewriting.same_sees name) (e.direct_same lost (Expr.all_assign.mp all).2)
  | .loop _ test body, all => by
    obtain ⟨_, tests, bodies⟩ := Expr.all_loop.mp all
    exact .loop (test.direct_same lost tests) (body.direct_same lost bodies)
  | .jump .., all => all.self.elim
  | .capture _ binders e, all => by
    obtain ⟨⟨_, name, rfl, _⟩, inside⟩ := Expr.all_capture.mp all
    exact .bind (Rewriting.same_sees name) (e.direct_same lost inside)

theorem directAll_same (lost : EvalError -> Bool) : ∀ es : List Expr,
    AllOf (mode.Fits escapes) es -> ExprsRel (.same lost) (directAll es) (directAll es)
  | [], _ => .nil
  | e :: rest, all =>
    .cons (e.direct_same lost (allOf_cons.mp all).1)
      (directAll_same lost rest (allOf_cons.mp all).2)

theorem directKwargs_same (lost : EvalError -> Bool) : ∀ kwargs : List (String × Expr),
    AllOfKwargs (mode.Fits escapes) kwargs ->
      NamedRel (.same lost) (directKwargs kwargs) (directKwargs kwargs)
  | [], _ => .nil
  | (name, e) :: rest, all =>
    .cons (Rewriting.same_names name) (e.direct_same lost (allOfKwargs_cons.mp all).1)
      (directKwargs_same lost rest (allOfKwargs_cons.mp all).2)

theorem directArms_same (lost : EvalError -> Bool) : ∀ arms : List (Expr × Expr),
    AllOfArms (mode.Fits escapes) arms ->
      ArmsRel (.same lost) (directArms arms) (directArms arms)
  | [], _ => .nil
  | (test, body) :: rest, all => by
    obtain ⟨tests, bodies, others⟩ := allOfArms_cons.mp all
    exact .cons (test.direct_same lost tests) (body.direct_same lost bodies)
      (directArms_same lost rest others)

end

/-- A program in direct style, as it is. -/
theorem Program.direct_same {program : Program} (fits : mode.FitsProgram escapes program)
    (lost : EvalError -> Bool) : TopRel (.same lost) program.direct.top program.direct.top := by
  have forms : ∀ top : List Toplevel, mode.FitsTop escapes top ->
      TopRel (.same lost) (top.map Toplevel.direct) (top.map Toplevel.direct) := by
    intro top fits
    induction top with
    | nil => exact .nil
    | cons form rest ih =>
      obtain ⟨first, others⟩ := List.forall_mem_cons.mp fits
      cases form with
      | define name bindee => exact .define (bindee.direct_same lost first) (ih others)
      | exec e => exact .exec (e.direct_same lost first) (ih others)
  exact forms program.top fits.top

/-! ## Programs without captures -/

mutual

/-- An expression without captures is its own direct form. -/
theorem Expr.direct_eq : ∀ e : Expr, e.All (·.isCapture = false) -> e.direct = e
  | .lit .., _ => rfl
  | .var .., _ => rfl
  | .fn _ signature body, all => by
    simp only [Expr.direct, body.direct_eq (Expr.all_fn.mp all).2]
  | .call _ func args kwargs, all => by
    obtain ⟨_, funcs, values, named⟩ := Expr.all_call.mp all
    simp only [Expr.direct, func.direct_eq funcs, directAll_eq args values,
      directKwargs_eq kwargs named]
  | .cond _ arms none, all => by
    simp only [Expr.direct, directArms_eq arms (Expr.all_cond_none.mp all).2]
  | .cond _ arms (some alt), all => by
    obtain ⟨_, ofArms, ofAlt⟩ := Expr.all_cond_some.mp all
    simp only [Expr.direct, directArms_eq arms ofArms, alt.direct_eq ofAlt]
  | .short _ _ es, all => by
    simp only [Expr.direct, directAll_eq es (Expr.all_short.mp all).2]
  | .seq _ es, all => by
    simp only [Expr.direct, directAll_eq es (Expr.all_seq.mp all).2]
  | .bind _ _ e, all => by
    simp only [Expr.direct, e.direct_eq (Expr.all_bind.mp all).2]
  | .assign _ _ e, all => by
    simp only [Expr.direct, e.direct_eq (Expr.all_assign.mp all).2]
  | .loop _ test body, all => by
    obtain ⟨_, tests, bodies⟩ := Expr.all_loop.mp all
    simp only [Expr.direct, test.direct_eq tests, body.direct_eq bodies]
  | .jump _ func args kwargs none, all => by
    obtain ⟨_, funcs, values, named⟩ := Expr.all_jump_none.mp all
    simp only [Expr.direct, func.direct_eq funcs, directAll_eq args values,
      directKwargs_eq kwargs named]
  | .jump _ func args kwargs (some cc), all => by
    obtain ⟨_, funcs, values, named, ofCc⟩ := Expr.all_jump_some.mp all
    simp only [Expr.direct, func.direct_eq funcs, directAll_eq args values,
      directKwargs_eq kwargs named, cc.direct_eq ofCc]
  | .capture .., all => absurd all.self Bool.noConfusion

theorem directAll_eq : ∀ es : List Expr, AllOf (·.isCapture = false) es -> directAll es = es
  | [], _ => rfl
  | e :: rest, all => by
    simp only [directAll, e.direct_eq (allOf_cons.mp all).1,
      directAll_eq rest (allOf_cons.mp all).2]

theorem directKwargs_eq : ∀ kwargs : List (String × Expr),
    AllOfKwargs (·.isCapture = false) kwargs -> directKwargs kwargs = kwargs
  | [], _ => rfl
  | (name, e) :: rest, all => by
    simp only [directKwargs, e.direct_eq (allOfKwargs_cons.mp all).1,
      directKwargs_eq rest (allOfKwargs_cons.mp all).2]

/-- Arms without captures are their own direct forms. -/
theorem directArms_eq : ∀ arms : List (Expr × Expr),
    AllOfArms (·.isCapture = false) arms -> directArms arms = arms
  | [], _ => rfl
  | (test, body) :: rest, all => by
    obtain ⟨tests, bodies, others⟩ := allOfArms_cons.mp all
    simp only [directArms, test.direct_eq tests, body.direct_eq bodies, directArms_eq rest others]

end

/-- Without captures a program is in direct style. -/
theorem Program.direct_eq {program : Program}
    (free : ∀ node ∈ program.nodes, node.isCapture = false) :
    program.direct = program := by
  obtain ⟨top, counters⟩ := program
  have forms : ∀ form ∈ top, form.direct = form := by
    intro form member
    have all : form.expr.All (·.isCapture = false) :=
      fun node inside => free node (List.mem_flatMap.mpr ⟨form, member, inside⟩)
    cases form with
    | define name bindee => exact congrArg (Toplevel.define name) (bindee.direct_eq all)
    | exec e => exact congrArg Toplevel.exec (e.direct_eq all)
  simp only [Program.direct, List.map_congr_left forms, List.map_id']

end Trampoline
