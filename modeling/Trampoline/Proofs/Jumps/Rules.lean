import Trampoline.Proofs.Rewriting.Inner

/-!
# Where jumps stand

A jump is a value that only a trampoline may see. So jumps stand at the ends of bodies, and only of
bodies that a trampoline runs. The rules say which functions may stand in a program and which of
them may end with a jump; each half of the transformation leads from programs by one set of rules to
programs by another.
-/

namespace Trampoline

/-- Rules for the functions of a program. -/
structure JumpRules where
  /-- A function may be so. -/
  admits : Signature -> Prop
  /-- The body of a function may end with a jump. -/
  loose : Signature -> Bool

variable {rules rules' : JumpRules} {jumps jumps' : Bool}

mutual

/-- The expression stands by the rules: jumps are only at the ends of bodies that may end with one,
and at its own end only if `jumps`. -/
def Expr.Obeys (rules : JumpRules) (jumps : Bool) : Expr -> Prop
  | .lit .. | .var .. => True
  | .fn _ signature body => rules.admits signature ∧ body.Obeys rules (rules.loose signature)
  | .call _ func args kwargs =>
    func.Obeys rules false ∧ AllObey rules args ∧ AllNamedObey rules kwargs
  | .cond _ arms alt => ArmsObey rules jumps arms ∧
    match alt with
    | none => True
    | some e => e.Obeys rules jumps
  | .short _ _ operands => LastObeys rules jumps operands
  | .seq _ items => LastObeys rules jumps items
  | .bind _ _ bindee => bindee.Obeys rules false
  | .assign _ _ bindee => bindee.Obeys rules false
  | .loop _ test body => test.Obeys rules false ∧ body.Obeys rules false
  | .jump _ func args kwargs cc => jumps = true ∧
    func.Obeys rules false ∧ AllObey rules args ∧ AllNamedObey rules kwargs ∧
      match cc with
      | none => True
      | some e => e.Obeys rules false
  | .capture _ _ e => e.Obeys rules false

/-- Several expressions stand by the rules, none of them with a jump at its end. -/
def AllObey (rules : JumpRules) : List Expr -> Prop
  | [] => True
  | e :: rest => e.Obeys rules false ∧ AllObey rules rest

/-- Keyword arguments stand by the rules. -/
def AllNamedObey (rules : JumpRules) : List (String × Expr) -> Prop
  | [] => True
  | (_, e) :: rest => e.Obeys rules false ∧ AllNamedObey rules rest

/-- Several expressions stand by the rules, at most the last with a jump at its end. -/
def LastObeys (rules : JumpRules) (jumps : Bool) : List Expr -> Prop
  | [] => True
  | [e] => e.Obeys rules jumps
  | e :: rest => e.Obeys rules false ∧ LastObeys rules jumps rest

/-- Arms stand by the rules. -/
def ArmsObey (rules : JumpRules) (jumps : Bool) : List (Expr × Expr) -> Prop
  | [] => True
  | (test, body) :: rest =>
    test.Obeys rules false ∧ body.Obeys rules jumps ∧ ArmsObey rules jumps rest

end

mutual

/-- Where no jump may stand there may as well be none. -/
theorem Expr.Obeys.loosen (implies : jumps = true -> jumps' = true) :
    ∀ {e : Expr}, e.Obeys rules jumps -> e.Obeys rules jumps'
  | .lit .., _ | .var .., _ => trivial
  | .fn .., obeys | .call .., obeys | .bind .., obeys | .assign .., obeys | .loop .., obeys
  | .capture .., obeys => by
    simpa only [Expr.Obeys] using obeys
  | .cond _ _ none, obeys => by
    simp only [Expr.Obeys] at obeys ⊢
    exact ⟨ArmsObey.loosen implies obeys.1, trivial⟩
  | .cond _ _ (some _), obeys => by
    simp only [Expr.Obeys] at obeys ⊢
    exact ⟨ArmsObey.loosen implies obeys.1, Expr.Obeys.loosen implies obeys.2⟩
  | .short .., obeys | .seq .., obeys => by
    simp only [Expr.Obeys] at obeys ⊢
    exact LastObeys.loosen implies obeys
  | .jump _ _ _ _ none, obeys | .jump _ _ _ _ (some _), obeys => by
    simp only [Expr.Obeys] at obeys ⊢
    exact ⟨implies obeys.1, obeys.2⟩

theorem LastObeys.loosen (implies : jumps = true -> jumps' = true) :
    ∀ {es : List Expr}, LastObeys rules jumps es -> LastObeys rules jumps' es
  | [], _ => by simp only [LastObeys]
  | [_], obeys => by
    simp only [LastObeys] at obeys ⊢
    exact Expr.Obeys.loosen implies obeys
  | _ :: _ :: _, obeys => by
    rw [LastObeys.eq_def] at obeys ⊢
    exact ⟨obeys.1, LastObeys.loosen implies obeys.2⟩

theorem ArmsObey.loosen (implies : jumps = true -> jumps' = true) :
    ∀ {arms : List (Expr × Expr)}, ArmsObey rules jumps arms -> ArmsObey rules jumps' arms
  | [], _ => by simp only [ArmsObey]
  | (_, _) :: _, obeys => by
    simp only [ArmsObey] at obeys ⊢
    exact ⟨obeys.1, Expr.Obeys.loosen implies obeys.2.1, ArmsObey.loosen implies obeys.2.2⟩

end

variable {e : Expr} {rest : List Expr} {mark : Mark}

/-- An expression without a jump at its end stands by the rules in any position. -/
theorem Expr.Obeys.strict (obeys : e.Obeys rules false) : e.Obeys rules jumps :=
  have implies : false = true -> jumps = true := nofun
  obeys.loosen implies

/-- Only the last of several items may end with a jump. -/
theorem lastObeys_cons {next : Expr} : LastObeys rules jumps (e :: next :: rest) ↔
      e.Obeys rules false ∧ LastObeys rules jumps (next :: rest) := by
  rw [LastObeys.eq_def]

/-- The first item ends with a jump only if it is the last. -/
theorem LastObeys.first (obeys : LastObeys rules jumps (e :: rest)) :
    e.Obeys rules jumps ∧ (rest ≠ [] -> e.Obeys rules false) ∧ LastObeys rules jumps rest := by
  cases rest with
  | nil => exact ⟨by simpa only [LastObeys] using obeys, by simp, by simp only [LastObeys]⟩
  | cons next rest =>
    obtain ⟨first, others⟩ := lastObeys_cons.mp obeys
    exact ⟨first.strict, fun _ => first, others⟩

/-- Operands stand by the rules as the items of a block. -/
theorem AllObey.last {es : List Expr} (obeys : AllObey rules es) : LastObeys rules jumps es := by
  induction es with
  | nil => simp only [LastObeys]
  | cons e rest ih =>
    simp only [AllObey] at obeys
    cases rest with
    | nil => simpa only [LastObeys] using obeys.1.strict
    | cons next rest => exact lastObeys_cons.mpr ⟨obeys.1, ih obeys.2⟩

/-- The mark of an expression does not matter to the rules. -/
theorem Expr.Obeys.withMark (obeys : e.Obeys rules jumps) (mark : Mark) :
    (e.withMark mark).Obeys rules jumps := by
  cases e with
  | cond _ arms alt => cases alt <;> simpa only [Expr.withMark, Expr.Obeys] using obeys
  | jump _ func args kwargs cc => cases cc <;> simpa only [Expr.withMark, Expr.Obeys] using obeys
  | lit | var => trivial
  | _ => simpa only [Expr.withMark, Expr.Obeys] using obeys

/-- A conditional stands by the rules if its arms and its alternative do. -/
theorem Expr.obeys_cond {arms : List (Expr × Expr)} {alt : Option Expr} :
    (Expr.cond mark arms alt).Obeys rules jumps ↔
      ArmsObey rules jumps arms ∧ ∀ e ∈ alt, e.Obeys rules jumps := by
  cases alt <;> simp [Expr.Obeys]

/-- A jump stands by the rules at an end that allows it, with its parts free of jumps at their
ends. -/
theorem Expr.obeys_jump {func : Expr} {args : List Expr}
    {kwargs : List (String × Expr)} {cc : Option Expr} :
    (Expr.jump mark func args kwargs cc).Obeys rules jumps ↔ jumps = true ∧
      func.Obeys rules false ∧ AllObey rules args ∧ AllNamedObey rules kwargs ∧
        ∀ e ∈ cc, e.Obeys rules false := by
  cases cc <;> simp [Expr.Obeys]

/-! ## Steps on every function -/

/-- A function that stands by the one set of rules becomes one that stands by the other, if what is
in it did before. -/
def JumpRules.LeadTo (rules rules' : JumpRules) (becomes : Function -> Function -> Prop) : Prop :=
  ∀ function other, becomes function other -> rules.admits function.signature ->
    function.body.Obeys rules' (rules.loose function.signature) ->
      rules'.admits other.signature ∧ other.body.Obeys rules' (rules'.loose other.signature)

section Mapping

variable {becomes : Function -> Function -> Prop}

mutual

/-- A mapping whose step leads from the first rules to the second keeps expressions to them. -/
theorem Mapping.obeys (leads : rules.LeadTo rules' becomes) :
    ∀ {e e' : Expr} {jumps : Bool}, Mapping becomes e e' -> e.Obeys rules jumps ->
      e'.Obeys rules' jumps
  | _, _, _, .lit, _ | _, _, _, .var, _ => trivial
  | _, _, _, .fn body self, obeys => by
    simp only [Expr.Obeys] at obeys ⊢
    exact leads _ _ self obeys.1 (body.obeys leads obeys.2)
  | _, _, _, .call func args kwargs, obeys => by
    simp only [Expr.Obeys] at obeys ⊢
    exact ⟨func.obeys leads obeys.1, args.obeys leads obeys.2.1, kwargs.obeys leads obeys.2.2⟩
  | _, _, _, .condNone arms, obeys => by
    simp only [Expr.Obeys] at obeys ⊢
    exact ⟨arms.obeys leads obeys.1, trivial⟩
  | _, _, _, .condSome arms alt, obeys => by
    simp only [Expr.Obeys] at obeys ⊢
    exact ⟨arms.obeys leads obeys.1, alt.obeys leads obeys.2⟩
  | _, _, _, .short operands, obeys => by
    simp only [Expr.Obeys] at obeys ⊢
    exact operands.lastObeys leads obeys
  | _, _, _, .seq items, obeys => by
    simp only [Expr.Obeys] at obeys ⊢
    exact items.lastObeys leads obeys
  | _, _, _, .bind bindee, obeys | _, _, _, .assign bindee, obeys
  | _, _, _, .capture bindee, obeys => by
    simp only [Expr.Obeys] at obeys ⊢
    exact bindee.obeys leads obeys
  | _, _, _, .loop test body, obeys => by
    simp only [Expr.Obeys] at obeys ⊢
    exact ⟨test.obeys leads obeys.1, body.obeys leads obeys.2⟩
  | _, _, _, .jumpNone func args kwargs, obeys => by
    simp only [Expr.Obeys] at obeys ⊢
    obtain ⟨loose, funcs, values, named, -⟩ := obeys
    exact ⟨loose, func.obeys leads funcs, args.obeys leads values,
      kwargs.obeys leads named, trivial⟩
  | _, _, _, .jumpSome func args kwargs cc, obeys => by
    simp only [Expr.Obeys] at obeys ⊢
    obtain ⟨loose, funcs, values, named, continuation⟩ := obeys
    exact ⟨loose, func.obeys leads funcs, args.obeys leads values, kwargs.obeys leads named,
      cc.obeys leads continuation⟩

theorem MappingAll.obeys (leads : rules.LeadTo rules' becomes) :
    ∀ {es es' : List Expr}, MappingAll becomes es es' -> AllObey rules es -> AllObey rules' es'
  | _, _, .nil, _ => by simp only [AllObey]
  | _, _, .cons first rest, obeys => by
    simp only [AllObey] at obeys ⊢
    exact ⟨first.obeys leads obeys.1, rest.obeys leads obeys.2⟩

theorem MappingAll.lastObeys (leads : rules.LeadTo rules' becomes) :
    ∀ {es es' : List Expr} {jumps : Bool}, MappingAll becomes es es' ->
      LastObeys rules jumps es -> LastObeys rules' jumps es'
  | _, _, _, .nil, _ => by simp only [LastObeys]
  | _, _, _, .cons first .nil, obeys => by
    simp only [LastObeys] at obeys ⊢
    exact first.obeys leads obeys
  | _, _, _, .cons first (.cons second rest), obeys => by
    obtain ⟨ofFirst, others⟩ := lastObeys_cons.mp obeys
    exact lastObeys_cons.mpr
      ⟨first.obeys leads ofFirst, (MappingAll.cons second rest).lastObeys leads others⟩

theorem MappingNamed.obeys (leads : rules.LeadTo rules' becomes) :
    ∀ {kwargs kwargs' : List (String × Expr)}, MappingNamed becomes kwargs kwargs' ->
      AllNamedObey rules kwargs -> AllNamedObey rules' kwargs'
  | _, _, .nil, _ => by simp only [AllNamedObey]
  | _, _, .cons first rest, obeys => by
    simp only [AllNamedObey] at obeys ⊢
    exact ⟨first.obeys leads obeys.1, rest.obeys leads obeys.2⟩

theorem MappingArms.obeys (leads : rules.LeadTo rules' becomes) :
    ∀ {arms arms' : List (Expr × Expr)} {jumps : Bool}, MappingArms becomes arms arms' ->
      ArmsObey rules jumps arms -> ArmsObey rules' jumps arms'
  | _, _, _, .nil, _ => by simp only [ArmsObey]
  | _, _, _, .cons test body rest, obeys => by
    simp only [ArmsObey] at obeys ⊢
    exact ⟨test.obeys leads obeys.1, body.obeys leads obeys.2.1, rest.obeys leads obeys.2.2⟩

end

end Mapping

end Trampoline
