import Trampoline.Proofs.Simulation.Relation
import Trampoline.Machine.Natives

/-!
# Values of a program and of its rewritten form

Two machines run side by side, one with the source program and one with the rewritten one. Given
which of their cells hold the same variable, the relations here say which values, scopes and
globals of the two belong together. Lists and closures have the same numbers on both sides.
-/

namespace Trampoline

/-- Which cells hold the same variable. -/
abbrev Pairing := Nat -> Nat -> Prop

/-- Scopes with the same names. The second may know continuations besides. -/
inductive EnvRel (mode : Rewriting) (cells : Pairing) : Env -> Env -> Prop where
  | nil : EnvRel mode cells [] []
  | cons {name left right env env'} : cells left right -> EnvRel mode cells env env' ->
      EnvRel mode cells ((name, left) :: env) ((name, right) :: env')
  | continuation {right env env'} : mode.passing = true -> EnvRel mode cells env env' ->
      EnvRel mode cells env ((continuationParam, right) :: env')

/-- Callables that do the same. The second may be in wrappers. -/
inductive CallableRel (mode : Rewriting) (cells : Pairing) : Callable -> Callable -> Prop where
  | native {op} : CallableRel mode cells (.native op) (.native op)
  | identity : mode.total = false -> CallableRel mode cells (.identity 0) (.identity 0)
  | closure {how ref function function' env env'} : FunctionRel mode how function function' ->
      EnvRel mode cells env env' ->
      CallableRel mode cells (.closure ref function env) (how.dress (.closure ref function' env'))

mutual

/-- Values that are the same but for the callables in them. -/
inductive ValueRel (mode : Rewriting) (cells : Pairing) : Value -> Value -> Prop where
  | nil : ValueRel mode cells .nil .nil
  | bool {value} : ValueRel mode cells (.bool value) (.bool value)
  | int {value} : ValueRel mode cells (.int value) (.int value)
  | str {value} : ValueRel mode cells (.str value) (.str value)
  | tuple {items items'} : ValuesRel mode cells items items' ->
      ValueRel mode cells (.tuple items) (.tuple items')
  | list {ref} : ValueRel mode cells (.list ref) (.list ref)
  | func {callable callable'} : CallableRel mode cells callable callable' ->
      ValueRel mode cells (.func callable) (.func callable')

/-- Several values, one by one. -/
inductive ValuesRel (mode : Rewriting) (cells : Pairing) : List Value -> List Value -> Prop where
  | nil : ValuesRel mode cells [] []
  | cons {value value' rest rest'} : ValueRel mode cells value value' ->
      ValuesRel mode cells rest rest' -> ValuesRel mode cells (value :: rest) (value' :: rest')

end

/-- Keyword arguments, one by one. -/
inductive KwargsRel (mode : Rewriting) (cells : Pairing) : Kwargs -> Kwargs -> Prop where
  | nil : KwargsRel mode cells [] []
  | cons {name value value' rest rest'} : mode.Names name -> ValueRel mode cells value value' ->
      KwargsRel mode cells rest rest' ->
      KwargsRel mode cells ((name, value) :: rest) ((name, value') :: rest')

/-- Globals, one by one. Those with names that the program does not use may differ. -/
inductive GlobalsRel (mode : Rewriting) (cells : Pairing) :
    List (String × Value) -> List (String × Value) -> Prop where
  | nil : GlobalsRel mode cells [] []
  | cons {name value value' rest rest'} :
      (mode.Sees name -> ValueRel mode cells value value') -> GlobalsRel mode cells rest rest' ->
      GlobalsRel mode cells ((name, value) :: rest) ((name, value') :: rest')

variable {mode : Rewriting} {cells more : Pairing}

/-! ## Growing pairings -/

/-- All that belongs together still does. -/
def Pairing.Within (cells more : Pairing) : Prop :=
  ∀ left right, cells left right -> more left right

variable {env env' : Env} {callable callable' : Callable} {globals globals' : List (String × Value)}
  {value value' : Value} {values values' args args' : List Value} {name : String}

theorem EnvRel.mono (grown : cells.Within more)
    (related : EnvRel mode cells env env') : EnvRel mode more env env' := by
  induction related with
  | nil => exact .nil
  | cons paired _ rest => exact .cons (grown _ _ paired) rest
  | continuation passing _ rest => exact .continuation passing rest

theorem CallableRel.mono (grown : cells.Within more)
    (related : CallableRel mode cells callable callable') :
    CallableRel mode more callable callable' := by
  cases related with
  | native => exact .native
  | identity partly => exact .identity partly
  | closure same scope => exact .closure same (scope.mono grown)

mutual

/-- Values that belong together still do when more cells do. -/
theorem ValueRel.mono (grown : cells.Within more) {value value' : Value}
    (related : ValueRel mode cells value value') : ValueRel mode more value value' := by
  cases related with
  | nil => exact .nil
  | bool => exact .bool
  | int => exact .int
  | str => exact .str
  | tuple items => exact .tuple (ValuesRel.mono grown items)
  | list => exact .list
  | func same => exact .func (same.mono grown)

theorem ValuesRel.mono (grown : cells.Within more) {values values' : List Value}
    (related : ValuesRel mode cells values values') : ValuesRel mode more values values' := by
  cases related with
  | nil => exact .nil
  | cons first rest => exact .cons (ValueRel.mono grown first) (ValuesRel.mono grown rest)

end

theorem KwargsRel.mono (grown : cells.Within more) {kwargs kwargs' : Kwargs}
    (related : KwargsRel mode cells kwargs kwargs') : KwargsRel mode more kwargs kwargs' := by
  induction related with
  | nil => exact .nil
  | cons seen same _ rest => exact .cons seen (same.mono grown) rest

theorem GlobalsRel.mono (grown : cells.Within more)
    (related : GlobalsRel mode cells globals globals') : GlobalsRel mode more globals globals' := by
  induction related with
  | nil => exact .nil
  | cons same _ rest => exact .cons (fun seen => (same seen).mono grown) rest

/-! ## What related values have in common -/

/-- Related callables have the same identity. -/
theorem CallableRel.ident_eq (related : CallableRel mode cells callable callable') :
    callable'.ident = callable.ident := by
  cases related with
  | native => rfl
  | identity _ => rfl
  | @closure how => cases how <;> rfl

/-- Related callables are continuations on both sides or on neither. -/
theorem CallableRel.isContinuation_eq (related : CallableRel mode cells callable callable') :
    callable'.isContinuation = callable.isContinuation := by
  cases related with
  | native => rfl
  | identity _ => rfl
  | @closure how => cases how <;> rfl

/-- Related callables are called the same in messages. -/
theorem CallableRel.label_eq (related : CallableRel mode cells callable callable') :
    callable'.label = callable.label := by
  cases related with
  | native => rfl
  | identity _ => rfl
  | @closure how _ _ _ _ _ same =>
    cases how <;> simp only [Treatment.dress, Callable.label, same.signature.id]

/-- Related values have the same type. -/
theorem ValueRel.type_eq (related : ValueRel mode cells value value') :
    value'.type = value.type := by
  cases related with
  | func same => simp only [Value.type, same.isContinuation_eq]
  | _ => rfl

/-- Related values count as true on both sides or on neither. -/
theorem ValueRel.truthy_eq (related : ValueRel mode cells value value') :
    value'.truthy = value.truthy := by
  cases related <;> rfl

/-- Neither a jump nor a promise: what stands for itself in a strict program. -/
def Value.IsSettled (value : Value) : Prop :=
  (∀ ref, value ≠ .jump ref) ∧ ∀ ref, value ≠ .promise ref

/-- A callable stands for itself. -/
theorem Value.func_settled (callable : Callable) : (Value.func callable).IsSettled :=
  ⟨fun _ => nofun, fun _ => nofun⟩

/-- Related values stand for themselves on both sides. -/
theorem ValueRel.settled (related : ValueRel mode cells value value') :
    value.IsSettled ∧ value'.IsSettled := by
  cases related <;> simp [Value.IsSettled]

/-- A literal is related to itself. -/
theorem ValueRel.ofLiteral (value : Literal) :
    ValueRel mode cells (.ofLiteral value) (.ofLiteral value) := by
  cases value
  · exact .nil
  · exact .bool
  · exact .int
  · exact .str

theorem ValuesRel.length_eq (related : ValuesRel mode cells values values') :
    values'.length = values.length := by
  induction values generalizing values' with
  | nil => cases related; rfl
  | cons value rest ih =>
    cases related with
    | cons _ same => simp only [List.length_cons, ih same]

theorem ValueRel.pack (related : ValuesRel mode cells values values') :
    ValueRel mode cells (.pack values) (.pack values') := by
  cases related with
  | nil => exact .nil
  | cons first rest =>
    cases rest with
    | nil => exact first
    | cons second others => exact .tuple (.cons first (.cons second others))

/-- What is at the same place in related values is related. -/
theorem ValuesRel.getElem? (related : ValuesRel mode cells values values') (index : Nat) :
    (values[index]? = none ∧ values'[index]? = none) ∨
      ∃ value value', values[index]? = some value ∧ values'[index]? = some value' ∧
        ValueRel mode cells value value' := by
  induction values generalizing values' index with
  | nil => cases related; exact .inl ⟨rfl, rfl⟩
  | cons value rest ih =>
    cases related with
    | cons first same =>
      cases index with
      | zero => exact .inr ⟨_, _, rfl, rfl, first⟩
      | succ index => simpa only [List.getElem?_cons_succ] using ih same index

theorem ValuesRel.append {others others' : List Value}
    (related : ValuesRel mode cells values values') (rest : ValuesRel mode cells others others') :
    ValuesRel mode cells (values ++ others) (values' ++ others') := by
  induction values generalizing values' with
  | nil => cases related; exact rest
  | cons value values ih =>
    cases related with
    | cons first same => exact .cons first (ih same)

theorem ValueRel.one (related : ValuesRel mode cells args args') :
    ValueRel mode cells (Native.one args) (Native.one args') := by
  cases related with
  | nil => exact .nil
  | cons first _ => exact first

theorem ValueRel.two (related : ValuesRel mode cells args args') :
    ValueRel mode cells (Native.two args).1 (Native.two args').1 ∧
      ValueRel mode cells (Native.two args).2 (Native.two args').2 := by
  cases related with
  | nil => exact ⟨.nil, .nil⟩
  | cons first rest =>
    cases rest with
    | nil => exact ⟨first, .nil⟩
    | cons second _ => exact ⟨first, second⟩

/-! ## Names -/

/-- A name that the program may use means the same in related scopes. -/
theorem EnvRel.lookup (related : EnvRel mode cells env env') (seen : mode.Sees name) :
    (env.lookup name = none ∧ env'.lookup name = none) ∨
      ∃ left right, env.lookup name = some left ∧ env'.lookup name = some right ∧
        cells left right := by
  induction related with
  | nil => exact .inl ⟨rfl, rfl⟩
  | @cons other left right env env' paired _ ih =>
    by_cases same : name = other
    · subst same
      exact .inr ⟨left, right, List.lookup_cons_self, List.lookup_cons_self, paired⟩
    · have differs : (name == other) = false := beq_false_of_ne same
      simpa only [List.lookup_cons, differs] using ih
  | @continuation right env env' passing _ ih =>
    have differs : (name == continuationParam) = false := beq_false_of_ne (seen.1 passing)
    simpa only [List.lookup_cons, differs] using ih

/-- Where no function takes a continuation and variables keep their cells, scopes are equal. -/
theorem EnvRel.eq (kept : mode.passing = false)
    (exact : ∀ left right, cells left right -> left = right)
    (related : EnvRel mode cells env env') : env' = env := by
  induction related with
  | nil => rfl
  | cons paired _ ih => rw [ih, exact _ _ paired]
  | continuation passing _ _ => simp [kept] at passing

/-- A global that the program may use has related values. -/
theorem GlobalsRel.lookup (related : GlobalsRel mode cells globals globals')
    (seen : mode.Sees name) :
    (globals.lookup name = none ∧ globals'.lookup name = none) ∨
      ∃ value value', globals.lookup name = some value ∧ globals'.lookup name = some value' ∧
        ValueRel mode cells value value' := by
  induction related with
  | nil => exact .inl ⟨rfl, rfl⟩
  | @cons other value value' rest rest' same _ ih =>
    by_cases equal : name = other
    · subst equal
      exact .inr ⟨value, value', List.lookup_cons_self, List.lookup_cons_self, same seen⟩
    · have differs : (name == other) = false := beq_false_of_ne equal
      simpa only [List.lookup_cons, differs] using ih

/-- Globals that are set to related values are related. -/
theorem GlobalsRel.set (related : GlobalsRel mode cells globals globals') (name : String)
    (same : ValueRel mode cells value value') :
    GlobalsRel mode cells (Machine.setGlobal name value globals)
      (Machine.setGlobal name value' globals') := by
  induction related with
  | nil => exact .cons (fun _ => same) .nil
  | @cons other old old' rest rest' kept others ih =>
    simp only [Machine.setGlobal]
    by_cases equal : other = name
    · simpa only [if_pos equal] using .cons (fun _ => same) others
    · simpa only [if_neg equal] using .cons kept ih

end Trampoline
