import Trampoline.Transform.Progress
import Trampoline.Proofs.Syntax.Nodes
import Trampoline.Proofs.Syntax.Steps

/-!
# Steps on every function

What applying a step to every function makes of an expression: an expression of the same shape, in
which every function is one that the step made of the function, after those inside it.
-/

namespace Trampoline

mutual

/-- An expression, and what it becomes when its functions become others. -/
inductive Mapping (becomes : Function -> Function -> Prop) : Expr -> Expr -> Prop where
  | lit {mark value} : Mapping becomes (.lit mark value) (.lit mark value)
  | var {mark name} : Mapping becomes (.var mark name) (.var mark name)
  | fn {mark signature body body' function} : Mapping becomes body body' ->
      becomes ⟨signature, body'⟩ function ->
      Mapping becomes (.fn mark signature body) (.fn mark function.signature function.body)
  | call {mark func func' args args' kwargs kwargs'} : Mapping becomes func func' ->
      MappingAll becomes args args' -> MappingNamed becomes kwargs kwargs' ->
      Mapping becomes (.call mark func args kwargs) (.call mark func' args' kwargs')
  | condNone {mark arms arms'} : MappingArms becomes arms arms' ->
      Mapping becomes (.cond mark arms none) (.cond mark arms' none)
  | condSome {mark arms arms' alt alt'} : MappingArms becomes arms arms' ->
      Mapping becomes alt alt' ->
      Mapping becomes (.cond mark arms (some alt)) (.cond mark arms' (some alt'))
  | short {mark op es es'} : MappingAll becomes es es' ->
      Mapping becomes (.short mark op es) (.short mark op es')
  | seq {mark es es'} : MappingAll becomes es es' ->
      Mapping becomes (.seq mark es) (.seq mark es')
  | bind {mark name e e'} : Mapping becomes e e' ->
      Mapping becomes (.bind mark name e) (.bind mark name e')
  | assign {mark name e e'} : Mapping becomes e e' ->
      Mapping becomes (.assign mark name e) (.assign mark name e')
  | loop {mark test test' body body'} : Mapping becomes test test' -> Mapping becomes body body' ->
      Mapping becomes (.loop mark test body) (.loop mark test' body')
  | jumpNone {mark func func' args args' kwargs kwargs'} : Mapping becomes func func' ->
      MappingAll becomes args args' -> MappingNamed becomes kwargs kwargs' ->
      Mapping becomes (.jump mark func args kwargs none) (.jump mark func' args' kwargs' none)
  | jumpSome {mark func func' args args' kwargs kwargs' cc cc'} : Mapping becomes func func' ->
      MappingAll becomes args args' -> MappingNamed becomes kwargs kwargs' ->
      Mapping becomes cc cc' ->
      Mapping becomes (.jump mark func args kwargs (some cc))
        (.jump mark func' args' kwargs' (some cc'))
  | capture {mark binders e e'} : Mapping becomes e e' ->
      Mapping becomes (.capture mark binders e) (.capture mark binders e')

/-- Several expressions, one by one. -/
inductive MappingAll (becomes : Function -> Function -> Prop) : List Expr -> List Expr -> Prop where
  | nil : MappingAll becomes [] []
  | cons {e e' rest rest'} : Mapping becomes e e' -> MappingAll becomes rest rest' ->
      MappingAll becomes (e :: rest) (e' :: rest')

/-- Keyword arguments, one by one. -/
inductive MappingNamed (becomes : Function -> Function -> Prop) :
    List (String × Expr) -> List (String × Expr) -> Prop where
  | nil : MappingNamed becomes [] []
  | cons {name e e' rest rest'} : Mapping becomes e e' -> MappingNamed becomes rest rest' ->
      MappingNamed becomes ((name, e) :: rest) ((name, e') :: rest')

/-- Arms, one by one. -/
inductive MappingArms (becomes : Function -> Function -> Prop) :
    List (Expr × Expr) -> List (Expr × Expr) -> Prop where
  | nil : MappingArms becomes [] []
  | cons {test test' body body' rest rest'} : Mapping becomes test test' ->
      Mapping becomes body body' -> MappingArms becomes rest rest' ->
      MappingArms becomes ((test, body) :: rest) ((test', body') :: rest')

end

/-- Toplevel forms, one by one. -/
inductive MappingTop (becomes : Function -> Function -> Prop) :
    List Toplevel -> List Toplevel -> Prop where
  | nil : MappingTop becomes [] []
  | define {name e e' rest rest'} : Mapping becomes e e' -> MappingTop becomes rest rest' ->
      MappingTop becomes (.define name e :: rest) (.define name e' :: rest')
  | exec {e e' rest rest'} : Mapping becomes e e' -> MappingTop becomes rest rest' ->
      MappingTop becomes (.exec e :: rest) (.exec e' :: rest')

variable {becomes : Function -> Function -> Prop}

variable {top top' : List Toplevel}

/-- The expressions of mapped forms are mapped one by one. -/
theorem MappingTop.exprs (mapping : MappingTop becomes top top') :
    MappingAll becomes (top.map Toplevel.expr) (top'.map Toplevel.expr) := by
  induction mapping with
  | nil => exact .nil
  | define first _ ih | exec first _ ih => exact .cons first ih

/-- What a mapped form defines comes from a definition of the same name. -/
theorem MappingTop.defined (mapping : MappingTop becomes top top')
    {name : String} {bindee' : Expr} (member : .define name bindee' ∈ top') :
    ∃ bindee, .define name bindee ∈ top ∧ Mapping becomes bindee bindee' := by
  induction mapping with
  | nil => exact absurd member List.not_mem_nil
  | define first _ ih =>
    rcases List.mem_cons.mp member with same | later
    · cases same
      exact ⟨_, List.mem_cons_self, first⟩
    · exact (ih later).imp fun _ => And.imp_left (List.mem_cons_of_mem _)
  | exec _ _ ih =>
    rcases List.mem_cons.mp member with same | later
    · cases same
    · exact (ih later).imp fun _ => And.imp_left (List.mem_cons_of_mem _)

/-! ## Applying a step -/

section Step

/-- A step on functions of a kind: what it makes of a function in which the functions became others
already. -/
def StepsOn (fallible : Prop) (kind : Expr -> Prop) (becomes : Function -> Function -> Prop)
    (step : Function -> Transform Function) : Prop :=
  ∀ mark signature body body', kind (.fn mark signature body) -> Mapping becomes body body' ->
    Produces fallible (step ⟨signature, body'⟩) (becomes ⟨signature, body'⟩)

variable {fallible : Prop} {kind : Expr -> Prop} {step : Function -> Transform Function}

mutual

/-- A step on functions maps an expression to one with other functions. -/
theorem Expr.mapFunctions_mapping (makes : StepsOn fallible kind becomes step) :
    ∀ e : Expr, e.All kind -> Produces fallible (e.mapFunctions step) (Mapping becomes e)
  | .lit .., _ => .pure .lit
  | .var .., _ => .pure .var
  | .fn _ signature body, all => by
    obtain ⟨self, inside⟩ := Expr.all_fn.mp all
    exact .bind (body.mapFunctions_mapping makes inside) fun body' inside =>
      .bind (makes _ signature body body' self inside) fun _ becomes => .pure (.fn inside becomes)
  | .call _ func args kwargs, all => by
    obtain ⟨-, funcs, values, named⟩ := Expr.all_call.mp all
    exact .bind (func.mapFunctions_mapping makes funcs) fun _ funcs =>
      .bind (mapFunctionsOfAll_mapping makes args values) fun _ values =>
        .bind (mapFunctionsOfKwargs_mapping makes kwargs named) fun _ named =>
          .pure (.call funcs values named)
  | .cond _ arms none, all => by
    obtain ⟨-, ofArms⟩ := Expr.all_cond_none.mp all
    exact .bind (mapFunctionsOfArms_mapping makes arms ofArms) fun _ arms => .pure (.condNone arms)
  | .cond _ arms (some e), all => by
    obtain ⟨-, ofArms, ofAlt⟩ := Expr.all_cond_some.mp all
    exact .bind (mapFunctionsOfArms_mapping makes arms ofArms) fun _ arms =>
      .bind (e.mapFunctions_mapping makes ofAlt) fun _ alt => .pure (.condSome arms alt)
  | .short _ _ es, all =>
    .bind (mapFunctionsOfAll_mapping makes es (Expr.all_short.mp all).2) fun _ operands =>
      .pure (.short operands)
  | .seq _ es, all =>
    .bind (mapFunctionsOfAll_mapping makes es (Expr.all_seq.mp all).2) fun _ items =>
      .pure (.seq items)
  | .bind _ _ e, all =>
    .bind (e.mapFunctions_mapping makes (Expr.all_bind.mp all).2) fun _ bindee =>
      .pure (.bind bindee)
  | .assign _ _ e, all =>
    .bind (e.mapFunctions_mapping makes (Expr.all_assign.mp all).2) fun _ bindee =>
      .pure (.assign bindee)
  | .loop _ test body, all => by
    obtain ⟨-, tests, bodies⟩ := Expr.all_loop.mp all
    exact .bind (test.mapFunctions_mapping makes tests) fun _ tests =>
      .bind (body.mapFunctions_mapping makes bodies) fun _ bodies => .pure (.loop tests bodies)
  | .jump _ func args kwargs none, all => by
    obtain ⟨-, funcs, values, named⟩ := Expr.all_jump_none.mp all
    exact .bind (func.mapFunctions_mapping makes funcs) fun _ funcs =>
      .bind (mapFunctionsOfAll_mapping makes args values) fun _ values =>
        .bind (mapFunctionsOfKwargs_mapping makes kwargs named) fun _ named =>
          .pure (.jumpNone funcs values named)
  | .jump _ func args kwargs (some e), all => by
    obtain ⟨-, funcs, values, named, ofCc⟩ := Expr.all_jump_some.mp all
    exact .bind (func.mapFunctions_mapping makes funcs) fun _ funcs =>
      .bind (mapFunctionsOfAll_mapping makes args values) fun _ values =>
        .bind (mapFunctionsOfKwargs_mapping makes kwargs named) fun _ named =>
          .bind (e.mapFunctions_mapping makes ofCc) fun _ cc =>
            .pure (.jumpSome funcs values named cc)
  | .capture _ _ e, all =>
    .bind (e.mapFunctions_mapping makes (Expr.all_capture.mp all).2) fun _ call =>
      .pure (.capture call)

theorem mapFunctionsOfAll_mapping (makes : StepsOn fallible kind becomes step) :
    ∀ es : List Expr, AllOf kind es ->
      Produces fallible (mapFunctionsOfAll step es) (MappingAll becomes es)
  | [], _ => .pure .nil
  | e :: rest, all => by
    obtain ⟨first, others⟩ := allOf_cons.mp all
    exact .bind (e.mapFunctions_mapping makes first) fun _ first =>
      .bind (mapFunctionsOfAll_mapping makes rest others) fun _ others => .pure (.cons first others)

theorem mapFunctionsOfKwargs_mapping (makes : StepsOn fallible kind becomes step) :
    ∀ kwargs : List (String × Expr), AllOfKwargs kind kwargs ->
      Produces fallible (mapFunctionsOfKwargs step kwargs) (MappingNamed becomes kwargs)
  | [], _ => .pure .nil
  | (_, e) :: rest, all => by
    obtain ⟨first, others⟩ := allOfKwargs_cons.mp all
    exact .bind (e.mapFunctions_mapping makes first) fun _ first =>
      .bind (mapFunctionsOfKwargs_mapping makes rest others) fun _ others =>
        .pure (.cons first others)

theorem mapFunctionsOfArms_mapping (makes : StepsOn fallible kind becomes step) :
    ∀ arms : List (Expr × Expr), AllOfArms kind arms ->
      Produces fallible (mapFunctionsOfArms step arms) (MappingArms becomes arms)
  | [], _ => .pure .nil
  | (test, body) :: rest, all => by
    obtain ⟨tests, bodies, others⟩ := allOfArms_cons.mp all
    exact .bind (test.mapFunctions_mapping makes tests) fun _ tests =>
      .bind (body.mapFunctions_mapping makes bodies) fun _ bodies =>
        .bind (mapFunctionsOfArms_mapping makes rest others) fun _ others =>
          .pure (.cons tests bodies others)

end

/-- Toplevel forms stay what they are, and their expressions become others. -/
theorem mapFunctionsOfTop_mapping (makes : StepsOn fallible kind becomes step) :
    ∀ top : List Toplevel, (∀ form ∈ top, form.expr.All kind) ->
      Produces fallible (mapFunctionsOfTop step top) (MappingTop becomes top)
  | [], _ => .pure .nil
  | .define _ bindee :: rest, all => by
    obtain ⟨first, others⟩ := List.forall_mem_cons.mp all
    exact .bind (bindee.mapFunctions_mapping makes first) fun _ first =>
      .bind (mapFunctionsOfTop_mapping makes rest others) fun _ others =>
        .pure (.define first others)
  | .exec e :: rest, all => by
    obtain ⟨first, others⟩ := List.forall_mem_cons.mp all
    exact .bind (e.mapFunctions_mapping makes first) fun _ first =>
      .bind (mapFunctionsOfTop_mapping makes rest others) fun _ others => .pure (.exec first others)

end Step

/-! ## Functions that stay as they are -/

mutual

/-- Where every function stays what it is, so does the expression. -/
theorem Mapping.eq : ∀ {e e' : Expr}, Mapping (fun function other => other = function) e e' ->
    e' = e
  | _, _, .lit => rfl
  | _, _, .var => rfl
  | _, _, .fn body same => by rw [same, body.eq]
  | _, _, .call func args kwargs => by rw [func.eq, args.eq, kwargs.eq]
  | _, _, .condNone arms => by rw [arms.eq]
  | _, _, .condSome arms alt => by rw [arms.eq, alt.eq]
  | _, _, .short operands => by rw [operands.eq]
  | _, _, .seq items => by rw [items.eq]
  | _, _, .bind bindee => by rw [bindee.eq]
  | _, _, .assign bindee => by rw [bindee.eq]
  | _, _, .loop test body => by rw [test.eq, body.eq]
  | _, _, .jumpNone func args kwargs => by rw [func.eq, args.eq, kwargs.eq]
  | _, _, .jumpSome func args kwargs cc => by rw [func.eq, args.eq, kwargs.eq, cc.eq]
  | _, _, .capture call => by rw [call.eq]

theorem MappingAll.eq : ∀ {es es' : List Expr},
    MappingAll (fun function other => other = function) es es' -> es' = es
  | _, _, .nil => rfl
  | _, _, .cons first rest => by rw [first.eq, rest.eq]

theorem MappingNamed.eq : ∀ {kwargs kwargs' : List (String × Expr)},
    MappingNamed (fun function other => other = function) kwargs kwargs' -> kwargs' = kwargs
  | _, _, .nil => rfl
  | _, _, .cons first rest => by rw [first.eq, rest.eq]

theorem MappingArms.eq : ∀ {arms arms' : List (Expr × Expr)},
    MappingArms (fun function other => other = function) arms arms' -> arms' = arms
  | _, _, .nil => rfl
  | _, _, .cons test body rest => by rw [test.eq, body.eq, rest.eq]

end

/-- If functions become themselves, so do toplevel forms. -/
theorem MappingTop.eq (mapping : MappingTop (fun function other => other = function) top top') :
    top' = top := by
  induction mapping with
  | nil => rfl
  | define first _ ih | exec first _ ih => rw [first.eq, ih]

/-! ## Tail paths -/

/-- Where the way ends at once on both sides, it is the expression that is mapped. -/
theorem Mapping.alone {e e' : Expr} (same : Mapping becomes e e') (path : e.tailPath = [e])
    (path' : e'.tailPath = [e']) : ∀ node' ∈ e'.tailPath, ∃ node ∈ e.tailPath,
      Mapping becomes node node' := by
  rw [path, path']
  intro node' member
  exact ⟨e, List.mem_cons_self, List.mem_singleton.mp member ▸ same⟩

mutual

/-- The tail path of what an expression becomes is made of what those on its own become. -/
theorem Mapping.tailPath : ∀ {e e' : Expr}, Mapping becomes e e' -> ∀ node' ∈ e'.tailPath,
    ∃ node ∈ e.tailPath, Mapping becomes node node'
  | _, _, .seq items, node', member => by
    rcases List.mem_cons.mp member with rfl | inItems
    · exact ⟨_, List.mem_cons_self, .seq items⟩
    · obtain ⟨node, inside, same⟩ := items.tailPathOfLast node' inItems
      exact ⟨node, List.mem_cons_of_mem _ inside, same⟩
  | _, _, .short operands, node', member => by
    rcases List.mem_cons.mp member with rfl | inOperands
    · exact ⟨_, List.mem_cons_self, .short operands⟩
    · obtain ⟨node, inside, same⟩ := operands.tailPathOfLast node' inOperands
      exact ⟨node, List.mem_cons_of_mem _ inside, same⟩
  | _, _, .condNone arms, node', member => by
    rcases List.mem_cons.mp member with rfl | inArms
    · exact ⟨_, List.mem_cons_self, .condNone arms⟩
    · obtain ⟨node, inside, same⟩ := arms.tailPathOfArms node' (by simpa using inArms)
      exact ⟨node, List.mem_cons_of_mem _ (List.mem_append_left _ inside), same⟩
  | _, _, .condSome arms alt, node', member => by
    rcases List.mem_cons.mp member with rfl | others
    · exact ⟨_, List.mem_cons_self, .condSome arms alt⟩
    · rcases List.mem_append.mp others with inArms | inAlt
      · obtain ⟨node, inside, same⟩ := arms.tailPathOfArms node' inArms
        exact ⟨node, List.mem_cons_of_mem _ (List.mem_append_left _ inside), same⟩
      · obtain ⟨node, inside, same⟩ := alt.tailPath node' inAlt
        exact ⟨node, List.mem_cons_of_mem _ (List.mem_append_right _ inside), same⟩
  | _, _, .lit, _, member => (Mapping.lit).alone rfl rfl _ member
  | _, _, .var, _, member => (Mapping.var).alone rfl rfl _ member
  | _, _, .fn body self, _, member => (Mapping.fn body self).alone rfl rfl _ member
  | _, _, .call func args kwargs, _, member =>
    (Mapping.call func args kwargs).alone rfl rfl _ member
  | _, _, .bind bindee, _, member => (Mapping.bind bindee).alone rfl rfl _ member
  | _, _, .assign bindee, _, member => (Mapping.assign bindee).alone rfl rfl _ member
  | _, _, .loop test body, _, member => (Mapping.loop test body).alone rfl rfl _ member
  | _, _, .jumpNone func args kwargs, _, member =>
    (Mapping.jumpNone func args kwargs).alone rfl rfl _ member
  | _, _, .jumpSome func args kwargs cc, _, member =>
    (Mapping.jumpSome func args kwargs cc).alone rfl rfl _ member
  | _, _, .capture call, _, member => (Mapping.capture call).alone rfl rfl _ member

theorem MappingAll.tailPathOfLast : ∀ {es es' : List Expr}, MappingAll becomes es es' ->
    ∀ node' ∈ Trampoline.tailPathOfLast es', ∃ node ∈ Trampoline.tailPathOfLast es,
      Mapping becomes node node'
  | _, _, .nil, _, member => absurd member List.not_mem_nil
  | _, _, .cons first .nil, node', member => first.tailPath node' member
  | _, _, .cons _ (.cons second rest), node', member =>
    (MappingAll.cons second rest).tailPathOfLast node' member

/-- The ways through arms are mapped. -/
theorem MappingArms.tailPathOfArms : ∀ {arms arms' : List (Expr × Expr)},
    MappingArms becomes arms arms' -> ∀ node' ∈ Trampoline.tailPathOfArms arms',
      ∃ node ∈ Trampoline.tailPathOfArms arms, Mapping becomes node node'
  | _, _, .nil, _, member => absurd member List.not_mem_nil
  | _, _, .cons _ body rest, node', member => by
    rcases List.mem_append.mp member with inBody | inRest
    · obtain ⟨node, inside, same⟩ := body.tailPath node' inBody
      exact ⟨node, List.mem_append_left _ inside, same⟩
    · obtain ⟨node, inside, same⟩ := rest.tailPathOfArms node' inRest
      exact ⟨node, List.mem_append_right _ inside, same⟩

end

/-! ## Functions -/

/-- Each of these functions becomes one of those, after the functions inside it. -/
def BecomeAmong (becomes : Function -> Function -> Prop) (functions others : List Function) :
    Prop :=
  ∀ function ∈ functions, ∃ body', Mapping becomes function.body body' ∧
    ∃ other ∈ others, becomes ⟨function.signature, body'⟩ other

namespace BecomeAmong

variable {functions others more further : List Function}

/-- Where there are no functions none becomes another. -/
theorem nil : BecomeAmong becomes [] others := fun _ member => absurd member List.not_mem_nil

/-- Functions become some of these, and so of more. -/
theorem mono (become : BecomeAmong becomes functions others) (within : others ⊆ further) :
    BecomeAmong becomes functions further := by
  intro function member
  obtain ⟨body', inside, other, listed, self⟩ := become function member
  exact ⟨body', inside, other, within listed, self⟩

/-- Functions of two lists become others of both. -/
theorem append (become : BecomeAmong becomes functions others)
    (become' : BecomeAmong becomes more further) :
    BecomeAmong becomes (functions ++ more) (others ++ further) := by
  intro function member
  rcases List.mem_append.mp member with first | second
  · exact become.mono (List.subset_append_left others further) function first
  · exact become'.mono (List.subset_append_right others further) function second

end BecomeAmong

/-- Functions keep those inside them when they become others. -/
def KeepInner (becomes : Function -> Function -> Prop) : Prop :=
  ∀ function other, becomes function other -> function.body.functions ⊆ other.body.functions

mutual

/-- The functions in an expression become some in what it becomes, if functions keep those inside
them when they become others. -/
theorem Mapping.functions (keeps : KeepInner becomes) : ∀ {e e' : Expr}, Mapping becomes e e' ->
    BecomeAmong becomes e.functions e'.functions
  | _, _, .lit => .nil
  | _, _, .var => .nil
  | _, _, @Mapping.fn _ _ signature body body' function inside self => by
    refine (inside.functions keeps).mono (keeps _ _ self) |>.append ?_
    intro other member
    obtain rfl := List.mem_singleton.mp member
    exact ⟨body', inside, function, List.mem_cons_self, self⟩
  | _, _, .call func args kwargs =>
    .append (.append (func.functions keeps) (args.functions keeps)) (kwargs.functions keeps)
  | _, _, .condNone arms => .append (arms.functions keeps) .nil
  | _, _, .condSome arms alt => .append (arms.functions keeps) (alt.functions keeps)
  | _, _, .short operands => operands.functions keeps
  | _, _, .seq items => items.functions keeps
  | _, _, .bind bindee => (bindee.functions keeps :)
  | _, _, .assign bindee => (bindee.functions keeps :)
  | _, _, .loop test body => .append (test.functions keeps) (body.functions keeps)
  | _, _, .jumpNone func args kwargs =>
    .append (.append (.append (func.functions keeps) (args.functions keeps))
      (kwargs.functions keeps)) .nil
  | _, _, .jumpSome func args kwargs cc =>
    .append (.append (.append (func.functions keeps) (args.functions keeps))
      (kwargs.functions keeps)) (cc.functions keeps)
  | _, _, .capture call => (call.functions keeps :)

theorem MappingAll.functions (keeps : KeepInner becomes) : ∀ {es es' : List Expr},
    MappingAll becomes es es' -> BecomeAmong becomes (functionsOfAll es) (functionsOfAll es')
  | _, _, .nil => .nil
  | _, _, .cons first rest => .append (first.functions keeps) (rest.functions keeps)

theorem MappingNamed.functions (keeps : KeepInner becomes) :
    ∀ {kwargs kwargs' : List (String × Expr)}, MappingNamed becomes kwargs kwargs' ->
      BecomeAmong becomes (functionsOfKwargs kwargs) (functionsOfKwargs kwargs')
  | _, _, .nil => .nil
  | _, _, .cons first rest => .append (first.functions keeps) (rest.functions keeps)

theorem MappingArms.functions (keeps : KeepInner becomes) : ∀ {arms arms' : List (Expr × Expr)},
    MappingArms becomes arms arms' ->
      BecomeAmong becomes (functionsOfArms arms) (functionsOfArms arms')
  | _, _, .nil => .nil
  | _, _, .cons test body rest =>
    .append (.append (test.functions keeps) (body.functions keeps)) (rest.functions keeps)

end

end Trampoline
