import Trampoline.Syntax.Expr

/-!
# Names that are only called

A name is lent to a body that may call it but not hand it on: the body neither evaluates the name
for its value nor assigns it, and no function in the body mentions it. All other names that are
mentioned are free.
-/

namespace Trampoline

/-- The expression is a name that is lent. -/
def Expr.IsLent (lent : String -> Prop) : Expr -> Prop
  | .var _ name => lent name
  | _ => False

mutual

/-- The names that are looked up or assigned in the expression are free, or lent and only called by
the expression itself. -/
def Expr.Honours (free lent : String -> Prop) : Expr -> Prop
  | .lit .. => True
  | .var _ name => free name
  | .fn _ _ body => body.Honours free fun _ => False
  | .call _ func args kwargs => (func.Honours free lent ∨ func.IsLent lent) ∧
    AllHonour free lent args ∧ NamedHonour free lent kwargs
  | .cond _ arms alt => ArmsHonour free lent arms ∧
    match alt with
    | none => True
    | some e => e.Honours free lent
  | .short _ _ es | .seq _ es => AllHonour free lent es
  | .bind _ _ bindee => bindee.Honours free lent
  | .assign _ name bindee => free name ∧ bindee.Honours free lent
  | .loop _ test body => test.Honours free lent ∧ body.Honours free lent
  | .jump _ func args kwargs cc => func.Honours free lent ∧ AllHonour free lent args ∧
    NamedHonour free lent kwargs ∧
    match cc with
    | none => True
    | some e => e.Honours free lent
  | .capture _ _ e => e.Honours free lent

/-- All expressions honour what is lent. -/
def AllHonour (free lent : String -> Prop) : List Expr -> Prop
  | [] => True
  | e :: rest => e.Honours free lent ∧ AllHonour free lent rest

/-- All keyword arguments honour what is lent. -/
def NamedHonour (free lent : String -> Prop) : List (String × Expr) -> Prop
  | [] => True
  | (_, e) :: rest => e.Honours free lent ∧ NamedHonour free lent rest

/-- All arms honour what is lent. -/
def ArmsHonour (free lent : String -> Prop) : List (Expr × Expr) -> Prop
  | [] => True
  | (test, body) :: rest => test.Honours free lent ∧ body.Honours free lent ∧
    ArmsHonour free lent rest

end

variable {free lent : String -> Prop}

variable {mark : Mark} {func : Expr}

/-- A conditional honours what is lent if its arms and its alternative do. -/
theorem Expr.honours_cond {arms : List (Expr × Expr)} {alt : Option Expr} :
    (Expr.cond mark arms alt).Honours free lent ↔
      ArmsHonour free lent arms ∧ ∀ e ∈ alt, e.Honours free lent := by
  cases alt <;> simp [Expr.Honours]

/-- A jump honours what is lent if its parts do. -/
theorem Expr.honours_jump {args : List Expr} {kwargs : List (String × Expr)} {cc : Option Expr} :
    (Expr.jump mark func args kwargs cc).Honours free lent ↔ func.Honours free lent ∧
      AllHonour free lent args ∧ NamedHonour free lent kwargs ∧
        ∀ e ∈ cc, e.Honours free lent := by
  cases cc <;> simp [Expr.Honours]

/-! ## Deciding -/

instance Expr.decidableIsLent [DecidablePred lent] : (e : Expr) -> Decidable (e.IsLent lent)
  | .var _ name => inferInstanceAs (Decidable (lent name))
  | .lit .. | .fn .. | .call .. | .cond .. | .short .. | .seq .. | .bind .. | .assign .. | .loop ..
  | .jump .. | .capture .. => isFalse fun never => never

mutual

/-- Whether an expression honours what is lent. -/
def Expr.decideHonours (free lent : String -> Prop) [DecidablePred free] [DecidablePred lent] :
    (e : Expr) -> Decidable (e.Honours free lent)
  | .lit .. => isTrue trivial
  | .var _ name => inferInstanceAs (Decidable (free name))
  | .fn _ _ body => body.decideHonours free fun _ => False
  | .call _ func args kwargs =>
    have := func.decideHonours free lent
    have := decideAllHonour free lent args
    have := decideNamedHonour free lent kwargs
    inferInstanceAs (Decidable ((_ ∨ _) ∧ _ ∧ _))
  | .cond _ arms none =>
    have := decideArmsHonour free lent arms
    inferInstanceAs (Decidable (_ ∧ True))
  | .cond _ arms (some e) =>
    have := decideArmsHonour free lent arms
    have := e.decideHonours free lent
    inferInstanceAs (Decidable (_ ∧ _))
  | .short _ _ es | .seq _ es => decideAllHonour free lent es
  | .bind _ _ bindee => bindee.decideHonours free lent
  | .assign _ _ bindee =>
    have := bindee.decideHonours free lent
    inferInstanceAs (Decidable (_ ∧ _))
  | .loop _ test body =>
    have := test.decideHonours free lent
    have := body.decideHonours free lent
    inferInstanceAs (Decidable (_ ∧ _))
  | .jump _ func args kwargs none =>
    have := func.decideHonours free lent
    have := decideAllHonour free lent args
    have := decideNamedHonour free lent kwargs
    inferInstanceAs (Decidable (_ ∧ _ ∧ _ ∧ True))
  | .jump _ func args kwargs (some e) =>
    have := func.decideHonours free lent
    have := decideAllHonour free lent args
    have := decideNamedHonour free lent kwargs
    have := e.decideHonours free lent
    inferInstanceAs (Decidable (_ ∧ _ ∧ _ ∧ _))
  | .capture _ _ e => e.decideHonours free lent

/-- Whether all expressions honour what is lent. -/
def decideAllHonour (free lent : String -> Prop) [DecidablePred free] [DecidablePred lent] :
    (es : List Expr) -> Decidable (AllHonour free lent es)
  | [] => isTrue trivial
  | e :: rest =>
    have := e.decideHonours free lent
    have := decideAllHonour free lent rest
    inferInstanceAs (Decidable (_ ∧ _))

/-- Whether all keyword arguments honour what is lent. -/
def decideNamedHonour (free lent : String -> Prop) [DecidablePred free] [DecidablePred lent] :
    (kwargs : List (String × Expr)) -> Decidable (NamedHonour free lent kwargs)
  | [] => isTrue trivial
  | (_, e) :: rest =>
    have := e.decideHonours free lent
    have := decideNamedHonour free lent rest
    inferInstanceAs (Decidable (_ ∧ _))

/-- Whether all arms honour what is lent. -/
def decideArmsHonour (free lent : String -> Prop) [DecidablePred free] [DecidablePred lent] :
    (arms : List (Expr × Expr)) -> Decidable (ArmsHonour free lent arms)
  | [] => isTrue trivial
  | (test, body) :: rest =>
    have := test.decideHonours free lent
    have := body.decideHonours free lent
    have := decideArmsHonour free lent rest
    inferInstanceAs (Decidable (_ ∧ _ ∧ _))

end

instance [DecidablePred free] [DecidablePred lent] (e : Expr) : Decidable (e.Honours free lent) :=
  e.decideHonours free lent

/-! ## What is lent to others -/

mutual

/-- Where all names are free, every expression honours what is lent. -/
theorem Expr.honours_of_free (all : ∀ name, free name) :
    ∀ (e : Expr) {lent : String -> Prop}, e.Honours free lent
  | .lit .., _ => trivial
  | .var _ name, _ => all name
  | .fn _ _ body, _ => (body.honours_of_free all :)
  | .call _ func args kwargs, _ =>
    ⟨.inl (func.honours_of_free all), allHonour_of_free all args, namedHonour_of_free all kwargs⟩
  | .cond _ arms none, _ => ⟨armsHonour_of_free all arms, trivial⟩
  | .cond _ arms (some e), _ => ⟨armsHonour_of_free all arms, e.honours_of_free all⟩
  | .short _ _ es, _ | .seq _ es, _ => allHonour_of_free all es
  | .bind _ _ bindee, _ => (bindee.honours_of_free all :)
  | .assign _ name bindee, _ => ⟨all name, bindee.honours_of_free all⟩
  | .loop _ test body, _ => ⟨test.honours_of_free all, body.honours_of_free all⟩
  | .jump _ func args kwargs none, _ =>
    ⟨func.honours_of_free all, allHonour_of_free all args, namedHonour_of_free all kwargs, trivial⟩
  | .jump _ func args kwargs (some e), _ =>
    ⟨func.honours_of_free all, allHonour_of_free all args, namedHonour_of_free all kwargs,
      e.honours_of_free all⟩
  | .capture _ _ e, _ => (e.honours_of_free all :)

theorem allHonour_of_free (all : ∀ name, free name) :
    ∀ (es : List Expr) {lent : String -> Prop}, AllHonour free lent es
  | [], _ => trivial
  | e :: rest, _ => ⟨e.honours_of_free all, allHonour_of_free all rest⟩

theorem namedHonour_of_free (all : ∀ name, free name) :
    ∀ (kwargs : List (String × Expr)) {lent : String -> Prop}, NamedHonour free lent kwargs
  | [], _ => trivial
  | (_, e) :: rest, _ => ⟨e.honours_of_free all, namedHonour_of_free all rest⟩

theorem armsHonour_of_free (all : ∀ name, free name) :
    ∀ (arms : List (Expr × Expr)) {lent : String -> Prop}, ArmsHonour free lent arms
  | [], _ => trivial
  | (test, body) :: rest, _ =>
    ⟨test.honours_of_free all, body.honours_of_free all, armsHonour_of_free all rest⟩

end

/-- What is known of names lets those that are free be free in another way, and those that are lent
be lent in another way. -/
structure Relends (known free free' lent lent' : String -> Prop) : Prop where
  frees : ∀ name, known name -> free name -> free' name
  lends : ∀ name, known name -> lent name -> lent' name

variable {known free' lent' : String -> Prop}

/-- Nothing is lent to the functions inside. -/
theorem Relends.inside (relends : Relends known free free' lent lent') :
    Relends known free free' (fun _ => False) fun _ => False :=
  ⟨relends.frees, fun _ _ never => never⟩

/-- A name that is lent is lent on under the other names. -/
theorem Expr.IsLent.relent {e : Expr} (isLent : e.IsLent lent)
    (relends : Relends known free free' lent lent')
    (ofKnown : e.Honours known (fun _ => False)) : e.IsLent lent' := by
  cases e with
  | var mark name => exact relends.lends name ofKnown isLent
  | _ => exact isLent.elim

/-- Nothing is lent, so the callee is no lent name. -/
theorem Expr.Honours.callee
    (ofFunc : func.Honours known (fun _ => False) ∨ func.IsLent fun _ => False) :
    func.Honours known fun _ => False := by
  refine ofFunc.resolve_right fun isLent => ?_
  cases func <;> exact isLent

mutual

/-- An expression that mentions only names of which something is known honours what is lent in
another way. -/
theorem Expr.Honours.relent : ∀ {e : Expr} {lent lent' : String -> Prop}, e.Honours free lent ->
    Relends known free free' lent lent' -> e.Honours known (fun _ => False) ->
      e.Honours free' lent'
  | .lit .., _, _, _, _, _ => trivial
  | .var _ name, _, _, isFree, relends, ofName => relends.frees name ofName isFree
  | .fn _ _ body, _, _, inside, relends, ofBody =>
    Expr.Honours.relent (e := body) inside relends.inside ofBody
  | .call .., _, _, ⟨func, args, kwargs⟩, relends, ⟨ofFunc, ofArgs, ofKwargs⟩ => by
    have ofFunc := Expr.Honours.callee ofFunc
    refine ⟨func.imp ?_ ?_, args.relent relends ofArgs, kwargs.relent relends ofKwargs⟩
    · exact fun honours => honours.relent relends ofFunc
    · exact fun isLent => isLent.relent relends ofFunc
  | .cond _ _ none, _, _, ⟨arms, _⟩, relends, ⟨ofArms, _⟩ => ⟨arms.relent relends ofArms, trivial⟩
  | .cond _ _ (some _), _, _, ⟨arms, alt⟩, relends, ⟨ofArms, ofAlt⟩ =>
    ⟨arms.relent relends ofArms, alt.relent relends ofAlt⟩
  | .short .., _, _, honour, relends, ofParts | .seq .., _, _, honour, relends, ofParts =>
    AllHonour.relent honour relends ofParts
  | .bind _ _ bindee, _, _, honours, relends, ofBindee =>
    Expr.Honours.relent (e := bindee) honours relends ofBindee
  | .assign _ name _, _, _, ⟨isFree, bindee⟩, relends, ⟨ofName, ofBindee⟩ =>
    ⟨relends.frees name ofName isFree, bindee.relent relends ofBindee⟩
  | .loop .., _, _, ⟨test, body⟩, relends, ⟨ofTest, ofBody⟩ =>
    ⟨test.relent relends ofTest, body.relent relends ofBody⟩
  | .jump _ _ _ _ none, _, _, ⟨func, args, kwargs, _⟩, relends, ⟨ofFunc, ofArgs, ofKwargs, _⟩ =>
    ⟨func.relent relends ofFunc, args.relent relends ofArgs,
      kwargs.relent relends ofKwargs, trivial⟩
  | .jump _ _ _ _ (some _), _, _, ⟨func, args, kwargs, cc⟩, relends,
      ⟨ofFunc, ofArgs, ofKwargs, ofCc⟩ =>
    ⟨func.relent relends ofFunc, args.relent relends ofArgs, kwargs.relent relends ofKwargs,
      cc.relent relends ofCc⟩
  | .capture _ _ call, _, _, honours, relends, ofCall =>
    Expr.Honours.relent (e := call) honours relends ofCall

theorem AllHonour.relent : ∀ {es : List Expr} {lent lent' : String -> Prop},
    AllHonour free lent es -> Relends known free free' lent lent' ->
      AllHonour known (fun _ => False) es -> AllHonour free' lent' es
  | [], _, _, _, _, _ => trivial
  | _ :: _, _, _, ⟨first, rest⟩, relends, ⟨ofFirst, ofRest⟩ =>
    ⟨first.relent relends ofFirst, rest.relent relends ofRest⟩

theorem NamedHonour.relent : ∀ {kwargs : List (String × Expr)} {lent lent' : String -> Prop},
    NamedHonour free lent kwargs -> Relends known free free' lent lent' ->
      NamedHonour known (fun _ => False) kwargs -> NamedHonour free' lent' kwargs
  | [], _, _, _, _, _ => trivial
  | _ :: _, _, _, ⟨first, rest⟩, relends, ⟨ofFirst, ofRest⟩ =>
    ⟨first.relent relends ofFirst, rest.relent relends ofRest⟩

theorem ArmsHonour.relent : ∀ {arms : List (Expr × Expr)} {lent lent' : String -> Prop},
    ArmsHonour free lent arms -> Relends known free free' lent lent' ->
      ArmsHonour known (fun _ => False) arms -> ArmsHonour free' lent' arms
  | [], _, _, _, _, _ => trivial
  | _ :: _, _, _, ⟨test, body, rest⟩, relends, ⟨ofTest, ofBody, ofRest⟩ =>
    ⟨test.relent relends ofTest, body.relent relends ofBody, rest.relent relends ofRest⟩

end

/-- Whatever is free stays free, and whatever is lent stays lent. -/
abbrev Widens (free free' lent lent' : String -> Prop) : Prop :=
  Relends (fun _ => True) free free' lent lent'

section Mono

variable (widens : Widens free free' lent lent')
include widens

/-- An expression honours loans among more names. -/
theorem Expr.Honours.mono {e : Expr} (honours : e.Honours free lent) : e.Honours free' lent' :=
  honours.relent widens (e.honours_of_free fun _ => trivial)

/-- Expressions honour loans among more names. -/
theorem AllHonour.mono {es : List Expr} (honour : AllHonour free lent es) :
    AllHonour free' lent' es :=
  honour.relent widens (allHonour_of_free (fun _ => trivial) es)

theorem NamedHonour.mono {kwargs : List (String × Expr)} (honour : NamedHonour free lent kwargs) :
    NamedHonour free' lent' kwargs :=
  honour.relent widens (namedHonour_of_free (fun _ => trivial) kwargs)

/-- Arms honour loans among more names. -/
theorem ArmsHonour.mono {arms : List (Expr × Expr)} (honour : ArmsHonour free lent arms) :
    ArmsHonour free' lent' arms :=
  honour.relent widens (armsHonour_of_free (fun _ => trivial) arms)

end Mono

end Trampoline
