import Trampoline.Machine.Eval
import Trampoline.Proofs.Simulation.Rules

/-!
# The scope of an applied function

A function and its rewritten form bind their parameters alike. One that takes a continuation binds
it last, to a cell that the program cannot name.
-/

namespace Trampoline

variable {mode : Rewriting} {cells more : Pairing} {world : World} {source target : Machine}

/-- Parameters and what they are bound to so far. -/
inductive BoundRel (mode : Rewriting) (cells : Pairing) :
    List (String × Option Value) -> List (String × Option Value) -> Prop where
  | nil : BoundRel mode cells [] []
  | bound {param value value' rest rest'} : mode.Sees param -> ValueRel mode cells value value' ->
      BoundRel mode cells rest rest' ->
      BoundRel mode cells ((param, some value) :: rest) ((param, some value') :: rest')
  | free {param rest rest'} : mode.Sees param -> BoundRel mode cells rest rest' ->
      BoundRel mode cells ((param, none) :: rest) ((param, none) :: rest')

variable {bound bound' : List (String × Option Value)} {args : List Value}

theorem BoundRel.mono (grown : cells.Within more)
    (related : BoundRel mode cells bound bound') : BoundRel mode more bound bound' := by
  induction related with
  | nil => exact .nil
  | bound seen same _ ih => exact .bound seen (same.mono grown) ih
  | free seen _ ih => exact .free seen ih

/-! ## Positional and keyword arguments -/

/-- Related arguments are bound alike to parameters. -/
protected theorem BoundRel.bindPositional {params : List String}
    (seen : ∀ param ∈ params, mode.Sees param)
    {args' : List Value} (related : ValuesRel mode cells args args') :
    BoundRel mode cells (bindPositional params args) (bindPositional params args') := by
  induction params generalizing args args' with
  | nil => exact .nil
  | cons param params ih =>
    have first := seen param List.mem_cons_self
    have others := fun param member => seen param (List.mem_cons_of_mem _ member)
    cases related with
    | nil => exact .free first (ih others .nil)
    | cons same rest => exact .bound first same (ih others rest)

/-- One more parameter at the end is left without an argument if there were enough before. -/
theorem bindPositional_append (params : List String) (last : String)
    (enough : args.length ≤ params.length) :
    bindPositional (params ++ [last]) args = bindPositional params args ++ [(last, none)] := by
  induction params generalizing args with
  | nil =>
    have empty : args = [] := List.eq_nil_of_length_eq_zero (Nat.le_zero.mp enough)
    subst empty
    rfl
  | cons param params ih =>
    cases args with
    | nil => exact congrArg ((param, none) :: ·) (ih (Nat.zero_le _))
    | cons value rest =>
      exact congrArg ((param, some value) :: ·) (ih (Nat.le_of_succ_le_succ enough))

/-- A keyword argument is bound alike, or both calls fail. -/
protected theorem BoundRel.bindKeyword
    (related : BoundRel mode cells bound bound') (keyword : String) {value value' : Value}
    (same : ValueRel mode cells value value') :
    (bindKeyword keyword value bound = none ∧ bindKeyword keyword value' bound' = none) ∨
      ∃ next next', bindKeyword keyword value bound = some next ∧
        bindKeyword keyword value' bound' = some next' ∧ BoundRel mode cells next next' := by
  induction related with
  | nil => exact .inl ⟨rfl, rfl⟩
  | @bound param old old' rest rest' seen kept others ih =>
    by_cases equal : param = keyword
    · simp only [Trampoline.bindKeyword, if_pos equal]
      exact .inr ⟨_, _, rfl, rfl, .bound seen same others⟩
    · simp only [Trampoline.bindKeyword, if_neg equal]
      rcases ih with ⟨none, none'⟩ | ⟨next, next', some, some', holds⟩
      · exact .inl ⟨by rw [none]; rfl, by rw [none']; rfl⟩
      · exact .inr ⟨_, _, by rw [some]; rfl, by rw [some']; rfl, .bound seen kept holds⟩
  | @free param rest rest' seen others ih =>
    by_cases equal : param = keyword
    · simp only [Trampoline.bindKeyword, if_pos equal]
      exact .inr ⟨_, _, rfl, rfl, .bound seen same others⟩
    · simp only [Trampoline.bindKeyword, if_neg equal]
      rcases ih with ⟨none, none'⟩ | ⟨next, next', some, some', holds⟩
      · exact .inl ⟨by rw [none]; rfl, by rw [none']; rfl⟩
      · exact .inr ⟨_, _, by rw [some]; rfl, by rw [some']; rfl, .free seen holds⟩

/-- A keyword other than the last parameter is bound as if that were not there. -/
theorem bindKeyword_append {keyword last : String} (differs : keyword ≠ last) (value : Value)
    (content : Option Value) (bound : List (String × Option Value)) :
    bindKeyword keyword value (bound ++ [(last, content)]) =
      (bindKeyword keyword value bound).map (· ++ [(last, content)]) := by
  induction bound with
  | nil => simp [bindKeyword, differs.symm]
  | cons first rest ih =>
    obtain ⟨param, old⟩ := first
    by_cases equal : param = keyword
    · simp [bindKeyword, equal]
    · simp only [bindKeyword, List.cons_append, if_neg equal, ih, Option.map_map]
      rfl

/-- The continuation is bound to the last parameter. -/
theorem BoundRel.bindKeyword_last (passing : mode.passing = true)
    (related : BoundRel mode cells bound bound') (value : Value) (content : Option Value) :
    bindKeyword continuationParam value (bound' ++ [(continuationParam, content)]) =
      some (bound' ++ [(continuationParam, some value)]) := by
  induction related with
  | nil => simp [bindKeyword]
  | bound seen _ _ ih => simp [Trampoline.bindKeyword, seen.1 passing, ih]
  | free seen _ ih => simp [Trampoline.bindKeyword, seen.1 passing, ih]

/-- A last parameter with a value gets its cell after the others. -/
theorem bindCells_append (func param : String) (value : Value)
    (bound : List (String × Option Value)) (env : Env) :
    bindCells func (bound ++ [(param, some value)]) env = (do
      let scope ← bindCells func bound env
      let ref ← Run.newCell value
      pure ((param, ref) :: scope)) := by
  induction bound generalizing env with
  | nil => rfl
  | cons first rest ih =>
    obtain ⟨name, content⟩ := first
    cases content with
    | none => rfl
    | some content => exact bind_congr fun ref => ih _

theorem SignatureRel.label_eq {how : Treatment} {signature signature' : Signature}
    (same : SignatureRel mode how signature signature') : signature'.label = signature.label := by
  simp only [Signature.label, same.name, same.id]

namespace Agree

variable {kwargs kwargs' : Kwargs} {bound bound' : List (String × Option Value)}
  {value value' : Value} {env env' : Env} {signature signature' : Signature}
  {args args' : List Value}

protected theorem bindKeywords (func : String) (named : KwargsRel mode world.cells kwargs kwargs')
    (related : BoundRel mode world.cells bound bound')
    (machines : MachineRel mode world source target) :
    Agree mode world (.lift (bindKeywords func kwargs bound))
      (.lift (bindKeywords func kwargs' bound')) source target (Gives mode (BoundRel mode)) := by
  induction named generalizing bound bound' with
  | nil => exact Agree.pure ⟨related, machines⟩
  | @cons name value value' rest rest' _ same _ ih =>
    rcases related.bindKeyword name same with ⟨none, none'⟩ | ⟨next, next', some, some', holds⟩
    · simp only [Trampoline.bindKeywords, none, none']
      exact Agree.fail _ machines
    · simp only [Trampoline.bindKeywords, some, some']
      exact ih holds

/-- Keyword arguments with a continuation after them. -/
theorem bindKeywords_last (passing : mode.passing = true) (func : String)
    (named : KwargsRel mode world.cells kwargs kwargs')
    (related : BoundRel mode world.cells bound bound') (value : Value)
    (machines : MachineRel mode world source target) :
    Agree mode world (.lift (bindKeywords func kwargs bound))
      (.lift (bindKeywords func (kwargs' ++ [(continuationParam, value)])
        (bound' ++ [(continuationParam, none)])))
      source target (Gives mode fun cells bound extended => ∃ bound',
        extended = bound' ++ [(continuationParam, some value)] ∧
          BoundRel mode cells bound bound') := by
  induction named generalizing bound bound' with
  | nil =>
    simp only [List.nil_append, Trampoline.bindKeywords, related.bindKeyword_last passing]
    exact Agree.pure ⟨⟨bound', rfl, related⟩, machines⟩
  | @cons name old old' rest rest' seen same _ ih =>
    simp only [List.cons_append, Trampoline.bindKeywords, bindKeyword_append (seen passing)]
    rcases related.bindKeyword name same with ⟨none, none'⟩ | ⟨next, next', some, some', holds⟩
    · simp only [none, none', Option.map_none]
      exact Agree.fail _ machines
    · simp only [some, some', Option.map_some]
      exact ih holds

/-! ## Cells -/

protected theorem newCell (same : ValueRel mode world.cells value value')
    (machines : MachineRel mode world source target) :
    Agree mode world (.lift (Run.newCell value)) (.lift (Run.newCell value')) source target
      (Gives mode fun cells left right => cells left right) :=
  Agree.ends (World.le_pair _ _ _) rfl rfl ⟨.inr ⟨rfl, rfl⟩, machines.pairCell same⟩

protected theorem setCell {left right : Nat} (paired : world.cells left right)
    (same : ValueRel mode world.cells value value')
    (machines : MachineRel mode world source target) :
    Agree mode world (.lift (Run.setCell left value)) (.lift (Run.setCell right value')) source
      target (Gives mode Equal) :=
  Agree.ends (World.le_refl world) rfl rfl ⟨rfl, machines.setCell paired same⟩

protected theorem bindCells (func : String)
    (related : BoundRel mode world.cells bound bound') (scope : EnvRel mode world.cells env env')
    (machines : MachineRel mode world source target) :
    Agree mode world (.lift (bindCells func bound env)) (.lift (bindCells func bound' env')) source
      target (Gives mode (EnvRel mode)) := by
  induction bound generalizing bound' env env' world source target with
  | nil =>
    cases related
    exact Agree.pure ⟨scope, machines⟩
  | cons first rest ih =>
    cases related with
    | free => exact Agree.fail _ machines
    | bound seen same others =>
      simp only [Trampoline.bindCells, Bounded.lift_bind]
      refine Agree.bind (Agree.newCell same machines) ?_
      rintro later left right source target grown ⟨paired, machines⟩
      exact ih (others.mono grown.cells) (.cons paired (scope.mono grown.cells)) machines

/-- A function's scope, with its continuation in a cell that the program cannot name. -/
def Opens (mode : Rewriting) (callable : Callable) : Post Machine Machine Env Env :=
  fun world scope scope' source target => EnvRel mode world.cells scope scope' ∧
    (∃ ref, scope'.lookup continuationParam = some ref ∧ world.conts ref callable) ∧
    MachineRel mode world source target

/-- The scope of a function that takes no continuation. -/
theorem scope {how : Treatment} (takes : how ≠ .passing)
    (same : SignatureRel mode how signature signature')
    (closed : EnvRel mode world.cells env env') (values : ValuesRel mode world.cells args args')
    (named : KwargsRel mode world.cells kwargs kwargs')
    (machines : MachineRel mode world source target) :
    Agree mode world (.lift (parameterScope signature env args kwargs))
      (.lift (parameterScope signature' env' args' kwargs')) source target
      (Gives mode (EnvRel mode)) := by
  have params : signature'.params = signature.params := by
    rw [same.params]
    cases how with
    | kept => rfl
    | deferring => rfl
    | passing => exact absurd rfl takes
  simp only [parameterScope, same.label_eq, params, values.length_eq]
  by_cases many : signature.params.length < args.length
  · simp only [if_pos many]
    exact Agree.fail _ machines
  · simp only [if_neg many, Bounded.lift_bind]
    have bound := BoundRel.bindPositional same.seen values
    refine Agree.bind (Agree.bindKeywords _ named bound machines) ?_
    rintro later bound bound' source target grown ⟨bound, machines⟩
    exact Agree.bindCells _ bound (closed.mono grown.cells) machines

/-- The scope of a function that takes a continuation. -/
theorem scope_passing (same : SignatureRel mode .passing signature signature')
    (closed : EnvRel mode world.cells env env') (values : ValuesRel mode world.cells args args')
    (named : KwargsRel mode world.cells kwargs kwargs') (callable : Callable)
    (machines : MachineRel mode world source target) :
    Agree mode world (.lift (parameterScope signature env args kwargs))
      (.lift (parameterScope signature' env' args'
        (kwargs' ++ [(continuationParam, .func callable)])))
      source target (Opens mode callable) := by
  have passing := same.passing rfl
  by_cases many : signature.params.length < args.length
  · refine Agree.lost (mode.lost_arity passing signature.label signature.params.length args.length)
      machines ?_ ?_ <;> simp only [Bounded.lift, parameterScope, if_pos many] <;> rfl
  · have enough : args'.length ≤ signature.params.length := by
      rw [values.length_eq]
      exact Nat.le_of_not_lt many
    have fits : ¬ (signature.params ++ [continuationParam]).length < args'.length := by
      simp only [List.length_append, List.length_singleton]
      omega
    simp only [parameterScope, if_neg many, if_neg fits, same.label_eq, same.params,
      Treatment.params, bindPositional_append _ _ enough, Bounded.lift_bind]
    have bound := BoundRel.bindPositional same.seen values
    refine Agree.bind (Agree.bindKeywords_last passing _ named bound _ machines) ?_
    rintro later names _ source target grown ⟨⟨names', rfl, bound⟩, machines⟩
    rw [bindCells_append, Bounded.lift_bind, ← bind_pure (Bounded.lift (bindCells _ names env))]
    refine Agree.bind (Agree.bindCells _ bound (closed.mono grown.cells) machines) ?_
    rintro later scope scope' source target grown ⟨scopes, machines⟩
    exact Agree.ends (World.le_hide _ _ _) rfl rfl
      ⟨.continuation passing scopes, ⟨_, List.lookup_cons_self, .inr ⟨rfl, rfl⟩⟩,
        machines.hideCell passing callable⟩

end Agree

end Trampoline
