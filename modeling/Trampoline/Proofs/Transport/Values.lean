import Mathlib.Data.List.Forall2
import Trampoline.Machine.Eval
import Trampoline.Proofs.Syntax.Nodes

/-!
# Values of machines that mirror each other

Two machines run the same code, and what one has under a number the other has under another. A
reflection says which numbers stand for each other; given one, values, scopes and errors of the two
machines are the same up to numbers. A mirror says what may differ besides: names that only scopes
of the first machine know, and callables that do the same without being the same.
-/

namespace Trampoline

/-- What a machine keeps under numbers, or only counts. -/
inductive Store where
  | cell
  | list
  | promise
  | jump
  | cache
  | extent
  | point
  | closure
  | handle
  | continuation
  | identity
  deriving DecidableEq

/-- How many numbers are given out. -/
def Machine.count (m : Machine) : Store -> Nat
  | .cell => m.cells.size
  | .list => m.lists.size
  | .promise => m.promises.size
  | .jump => m.jumps.size
  | .cache => m.caches.size
  | .extent => m.extents.size
  | .point => m.points.size
  | .closure => m.closures
  | .handle => m.handles
  | .continuation => m.continuations
  | .identity => m.identities

/-- Which numbers of two machines stand for each other. -/
structure Reflection where
  pairs : Store -> Nat -> Nat -> Prop
  /-- Cells of the first machine to which none corresponds, and what they hold for good. -/
  held : CellRef -> Value -> Prop
  /-- Globals that keep their values for good. -/
  fixed : String -> Value -> Value -> Prop

namespace Reflection

/-- The later reflection knows all that the earlier one knows. -/
structure Within (earlier later : Reflection) : Prop where
  pairs : ∀ {store a b}, earlier.pairs store a b -> later.pairs store a b
  held : ∀ {ref value}, earlier.held ref value -> later.held ref value
  fixed : ∀ {name value value'}, earlier.fixed name value value' -> later.fixed name value value'

instance : LE Reflection := ⟨Within⟩

variable {reflection later latest : Reflection}

theorem le_refl (reflection : Reflection) : reflection ≤ reflection := ⟨id, id, id⟩

theorem le_trans (first : reflection ≤ later) (second : later ≤ latest) : reflection ≤ latest :=
  ⟨fun known => second.pairs (first.pairs known), fun known => second.held (first.held known),
    fun known => second.fixed (first.fixed known)⟩

/-- One more pair of numbers. -/
def pair (reflection : Reflection) (store : Store) (a b : Nat) : Reflection :=
  { reflection with
    pairs := fun other a' b' => reflection.pairs other a' b' ∨ other = store ∧ a' = a ∧ b' = b }

/-- A reflection with one more pair is later. -/
theorem le_pair (reflection : Reflection) (store : Store) (a b : Nat) :
    reflection ≤ reflection.pair store a b := ⟨.inl, id, id⟩

/-- The pair that was added is known. -/
theorem pair_self {store : Store} {a b : Nat} : (reflection.pair store a b).pairs store a b :=
  .inr ⟨rfl, rfl, rfl⟩

/-- Every number has one counterpart at most. -/
structure OneToOne (reflection : Reflection) : Prop where
  eq_iff : ∀ {store a b a' b'}, reflection.pairs store a b -> reflection.pairs store a' b' ->
    (a = a' ↔ b = b')

/-- Numbers are equal on one side exactly if they are on the other. -/
theorem OneToOne.beq_eq (exact : reflection.OneToOne) {store : Store} {a b a' b' : Nat}
    (known : reflection.pairs store a b) (known' : reflection.pairs store a' b') :
    (b == b') = (a == a') := by
  rw [Bool.eq_iff_iff, beq_iff_eq, beq_iff_eq]
  exact (exact.eq_iff known known').symm

end Reflection

/-! ## Callables -/

/-- Identities that are the same up to numbers. -/
inductive CallableId.Mirrors (reflection : Reflection) : CallableId -> CallableId -> Prop where
  | closure {ref ref'} : reflection.pairs .closure ref ref' ->
      Mirrors reflection (.closure ref) (.closure ref')
  | native {op} : Mirrors reflection (.native op) (.native op)
  | loopHandle {ref ref'} : reflection.pairs .handle ref ref' ->
      Mirrors reflection (.loopHandle ref) (.loopHandle ref')
  | escape {tag tag'} : reflection.pairs .point tag tag' ->
      Mirrors reflection (.escape tag) (.escape tag')
  | continuation {ref ref'} : reflection.pairs .continuation ref ref' ->
      Mirrors reflection (.continuation ref) (.continuation ref')
  | identity {ref ref'} : reflection.pairs .identity ref ref' ->
      Mirrors reflection (.identity ref) (.identity ref')

/-- Callables that no program can tell apart without calling them. -/
structure Callable.Resembles (reflection : Reflection) (callable callable' : Callable) : Prop where
  isLazy : callable'.isLazy = callable.isLazy
  acceptsCc : callable'.acceptsCc = callable.acceptsCc
  isContinuation : callable'.isContinuation = callable.isContinuation
  label : callable'.label = callable.label
  ident : callable.ident.Mirrors reflection callable'.ident

/-- What two machines are compared by. -/
structure Mirror where
  /-- Errors of the first machine after which nothing is compared. Its handlers let them pass. -/
  lost : EvalError -> Bool
  /-- Errors of the second machine after which nothing is compared. -/
  lost' : EvalError -> Bool
  /-- The other errors that handlers let pass. -/
  passed : EvalError -> Bool
  /-- Whether continuations are valid in both machines at the same time. -/
  tracked : Bool
  /-- Whether the machines have as many lists. -/
  sized : Bool
  /-- Whether the machines give out the same numbers, -/
  aligned : Bool
  /-- of which only these have no counterpart. -/
  spare : Store -> Nat -> Prop
  /-- What expressions there may be. -/
  node : Expr -> Prop
  /-- Names that scopes of the first machine may know alone. -/
  hides : String -> Prop
  /-- Globals that are assigned nowhere. -/
  constant : String -> Prop
  /-- Callables that do the same without being the same. -/
  special : Reflection -> Callable -> Callable -> Prop
  /-- What was printed before. -/
  printed : String
  printed' : String
  /-- The extents that were on the stack before. -/
  depth : Nat
  depth' : Nat
  special_le : ∀ {reflection later callable callable'}, reflection ≤ later ->
    special reflection callable callable' -> special later callable callable'
  special_resembles : ∀ {reflection callable callable'},
    special reflection callable callable' -> callable.Resembles reflection callable'
  special_bare : ∀ {reflection callable callable'}, special reflection callable callable' ->
    callable.underTrampoline = callable ∧ callable'.underTrampoline = callable'
  assigns_none : ∀ {mark name bindee}, node (.assign mark name bindee) -> ¬ constant name
  /-- An escape is never lost. -/
  lost_stays : ∀ {error}, lost error = true -> error.isEscape = false
  lost_stays' : ∀ {error}, lost' error = true -> error.isEscape = false
  invalidated_lost : tracked = false -> lost .continuationInvalidated = true
  invalidated_lost' : tracked = false -> lost' .continuationInvalidated = true

/-- An expression that there may be, in scopes that may hide names. -/
structure Mirror.Allows (mirror : Mirror) (veiled : Bool) (e : Expr) : Prop where
  node : mirror.node e
  names : veiled = true -> ∀ name ∈ e.names, ¬ mirror.hides name

/-- Scopes that mean the same by all names that are not hidden. -/
inductive Env.Mirrors (mirror : Mirror) (reflection : Reflection) (veiled : Bool) :
    Env -> Env -> Prop where
  | nil : Env.Mirrors mirror reflection veiled [] []
  | cons {name ref ref' env env'} : reflection.pairs .cell ref ref' ->
      Env.Mirrors mirror reflection veiled env env' ->
      Env.Mirrors mirror reflection veiled ((name, ref) :: env) ((name, ref') :: env')
  | hidden {name ref env env'} : veiled = true -> mirror.hides name ->
      Env.Mirrors mirror reflection veiled env env' ->
      Env.Mirrors mirror reflection veiled ((name, ref) :: env) env'

/-- Callables that are the same up to numbers and special ones. -/
inductive Callable.Mirrors (mirror : Mirror) (reflection : Reflection) :
    Callable -> Callable -> Prop where
  | closure {ref ref' function env env'} (veiled : Bool) : reflection.pairs .closure ref ref' ->
      function.body.All (mirror.Allows veiled) -> Env.Mirrors mirror reflection veiled env env' ->
      Mirrors mirror reflection (.closure ref function env) (.closure ref' function env')
  | native {op} : Mirrors mirror reflection (.native op) (.native op)
  | trampolined {inner inner' variant} : Mirrors mirror reflection inner inner' ->
      Mirrors mirror reflection (.trampolined inner variant) (.trampolined inner' variant)
  | memoized {inner inner' cache cache'} : Mirrors mirror reflection inner inner' ->
      reflection.pairs .cache cache cache' ->
      Mirrors mirror reflection (.memoized inner cache) (.memoized inner' cache')
  | looped {inner inner'} : Mirrors mirror reflection inner inner' ->
      Mirrors mirror reflection (.looped inner) (.looped inner')
  | loopHandle {ref ref' inner inner'} : reflection.pairs .handle ref ref' ->
      Mirrors mirror reflection inner inner' ->
      Mirrors mirror reflection (.loopHandle ref inner) (.loopHandle ref' inner')
  | escapePoint {inner inner'} : Mirrors mirror reflection inner inner' ->
      Mirrors mirror reflection (.escapePoint inner) (.escapePoint inner')
  | escape {tag tag'} : reflection.pairs .point tag tag' ->
      Mirrors mirror reflection (.escape tag) (.escape tag')
  | contEnabled {inner inner'} : Mirrors mirror reflection inner inner' ->
      Mirrors mirror reflection (.contEnabled inner) (.contEnabled inner')
  | lazyFn {inner inner'} : Mirrors mirror reflection inner inner' ->
      Mirrors mirror reflection (.lazyFn inner) (.lazyFn inner')
  | continuation {ref ref' function env env' extent extent' isLazy} (veiled : Bool) :
      reflection.pairs .continuation ref ref' -> function.body.All (mirror.Allows veiled) ->
      Env.Mirrors mirror reflection veiled env env' -> reflection.pairs .extent extent extent' ->
      Mirrors mirror reflection (.continuation ref function env extent isLazy)
        (.continuation ref' function env' extent' isLazy)
  | identity {ref ref'} : reflection.pairs .identity ref ref' ->
      Mirrors mirror reflection (.identity ref) (.identity ref')
  | special {callable callable'} : mirror.special reflection callable callable' ->
      Mirrors mirror reflection callable callable'

variable {mirror : Mirror} {reflection later : Reflection}

/-- Callables are the same one on one side exactly if they are on the other. -/
theorem CallableId.Mirrors.eq_iff (exact : reflection.OneToOne)
    {left left' right right' : CallableId}
    (mirrors : left.Mirrors reflection left') (mirrors' : right.Mirrors reflection right') :
    left = right ↔ left' = right' := by
  cases mirrors <;> cases mirrors' <;> simp
  all_goals exact exact.eq_iff ‹_› ‹_›

namespace Env.Mirrors

variable {veiled : Bool} {env env' : Env}

theorem mono (order : reflection ≤ later)
    (mirrors : Env.Mirrors mirror reflection veiled env env') :
    Env.Mirrors mirror later veiled env env' := by
  induction mirrors with
  | nil => exact .nil
  | cons known _ ih => exact .cons (order.pairs known) ih
  | hidden veiled hidden _ ih => exact .hidden veiled hidden ih

/-- A name that is not hidden stands for cells that stand for each other. -/
theorem lookup (mirrors : Env.Mirrors mirror reflection veiled env env') {name : String}
    (seen : veiled = true -> ¬ mirror.hides name) :
    Option.Rel (reflection.pairs .cell) (env.lookup name) (env'.lookup name) := by
  induction mirrors with
  | nil => exact .none
  | @cons other ref ref' _ _ known _ ih =>
    by_cases same : name = other
    · subst same
      simpa only [List.lookup_cons_self] using .some known
    · simpa only [List.lookup_cons, beq_false_of_ne same] using ih
  | @hidden other ref _ _ veiled hidden _ ih =>
    have differs : name ≠ other := by
      rintro rfl
      exact seen veiled hidden
    simpa only [List.lookup_cons, beq_false_of_ne differs] using ih

theorem eq (exact : ∀ {store a b}, reflection.pairs store a b -> a = b)
    (bare : ∀ name, ¬ mirror.hides name) (mirrors : Env.Mirrors mirror reflection veiled env env') :
    env' = env := by
  induction mirrors with
  | nil => rfl
  | cons known _ ih => rw [ih, exact known]
  | hidden _ hidden => exact absurd hidden (bare _)

end Env.Mirrors

namespace Callable.Mirrors

variable {callable callable' : Callable}

/-- Callables are the same under later reflections. -/
theorem mono (order : reflection ≤ later) (mirrors : callable.Mirrors mirror reflection callable') :
    callable.Mirrors mirror later callable' := by
  induction mirrors with
  | closure veiled known fits scope =>
    exact .closure veiled (order.pairs known) fits (scope.mono order)
  | native => exact .native
  | trampolined _ ih => exact .trampolined ih
  | memoized _ known ih => exact .memoized ih (order.pairs known)
  | looped _ ih => exact .looped ih
  | loopHandle known _ ih => exact .loopHandle (order.pairs known) ih
  | escapePoint _ ih => exact .escapePoint ih
  | escape known => exact .escape (order.pairs known)
  | contEnabled _ ih => exact .contEnabled ih
  | lazyFn _ ih => exact .lazyFn ih
  | continuation veiled known fits scope extent =>
    exact .continuation veiled (order.pairs known) fits (scope.mono order) (order.pairs extent)
  | identity known => exact .identity (order.pairs known)
  | special special => exact .special (mirror.special_le order special)

/-- Callables that are the same up to numbers can not be told apart without calling them. -/
theorem resembles (mirrors : callable.Mirrors mirror reflection callable') :
    callable.Resembles reflection callable' := by
  induction mirrors with
  | closure veiled known => exact ⟨rfl, rfl, rfl, rfl, .closure known⟩
  | native => exact ⟨rfl, rfl, rfl, rfl, .native⟩
  | trampolined _ ih => exact ⟨ih.isLazy, ih.acceptsCc, ih.isContinuation, ih.label, ih.ident⟩
  | memoized _ _ ih => exact ⟨rfl, rfl, rfl, ih.label, ih.ident⟩
  | looped _ ih => exact ⟨ih.isLazy, ih.acceptsCc, rfl, ih.label, ih.ident⟩
  | loopHandle known => exact ⟨rfl, rfl, rfl, rfl, .loopHandle known⟩
  | escapePoint _ ih => exact ⟨ih.isLazy, ih.acceptsCc, rfl, ih.label, ih.ident⟩
  | escape known => exact ⟨rfl, rfl, rfl, rfl, .escape known⟩
  | contEnabled _ ih => exact ⟨ih.isLazy, rfl, rfl, ih.label, ih.ident⟩
  | lazyFn _ ih => exact ⟨rfl, ih.acceptsCc, rfl, ih.label, ih.ident⟩
  | continuation veiled known => exact ⟨rfl, rfl, rfl, rfl, .continuation known⟩
  | identity known => exact ⟨rfl, rfl, rfl, rfl, .identity known⟩
  | special special => exact mirror.special_resembles special

/-- They ask for the same variant of a trampoline. -/
theorem variant (mirrors : callable.Mirrors mirror reflection callable') :
    Variant.of callable' = Variant.of callable := by
  simp only [Variant.of, mirrors.resembles.isLazy]

/-- Below their trampolines they are the same as well. -/
theorem underTrampoline (mirrors : callable.Mirrors mirror reflection callable') :
    callable.underTrampoline.Mirrors mirror reflection callable'.underTrampoline := by
  cases mirrors with
  | trampolined inner => exact inner
  | special special =>
    rw [(mirror.special_bare special).1, (mirror.special_bare special).2]
    exact .special special
  | closure veiled known fits scope => exact .closure veiled known fits scope
  | native => exact .native
  | memoized inner known => exact .memoized inner known
  | looped inner => exact .looped inner
  | loopHandle known inner => exact .loopHandle known inner
  | escapePoint inner => exact .escapePoint inner
  | escape known => exact .escape known
  | contEnabled inner => exact .contEnabled inner
  | lazyFn inner => exact .lazyFn inner
  | continuation veiled known fits scope extent =>
    exact .continuation veiled known fits scope extent
  | identity known => exact .identity known

theorem eq (exact : ∀ {store a b}, reflection.pairs store a b -> a = b)
    (bare : ∀ name, ¬ mirror.hides name)
    (plain : ∀ reflection callable callable', ¬ mirror.special reflection callable callable')
    (mirrors : callable.Mirrors mirror reflection callable') : callable' = callable := by
  induction mirrors with
  | closure veiled known _ scope => rw [exact known, scope.eq exact bare]
  | native => rfl
  | trampolined _ ih | looped _ ih | escapePoint _ ih | contEnabled _ ih | lazyFn _ ih => rw [ih]
  | memoized _ known ih | loopHandle known _ ih => rw [ih, exact known]
  | escape known | identity known => rw [exact known]
  | continuation veiled known _ scope extent =>
    rw [exact known, scope.eq exact bare, exact extent]
  | special special => exact absurd special (plain _ _ _)

end Callable.Mirrors

/-! ## Values -/

mutual

/-- Values that are the same up to numbers and special callables. -/
inductive Value.Mirrors (mirror : Mirror) (reflection : Reflection) : Value -> Value -> Prop where
  | nil : Value.Mirrors mirror reflection .nil .nil
  | bool {value} : Value.Mirrors mirror reflection (.bool value) (.bool value)
  | int {value} : Value.Mirrors mirror reflection (.int value) (.int value)
  | str {value} : Value.Mirrors mirror reflection (.str value) (.str value)
  | tuple {items items'} : ValuesMirror mirror reflection items items' ->
      Value.Mirrors mirror reflection (.tuple items) (.tuple items')
  | list {ref ref'} : reflection.pairs .list ref ref' ->
      Value.Mirrors mirror reflection (.list ref) (.list ref')
  | func {callable callable'} : callable.Mirrors mirror reflection callable' ->
      Value.Mirrors mirror reflection (.func callable) (.func callable')
  | jump {ref ref'} : reflection.pairs .jump ref ref' ->
      Value.Mirrors mirror reflection (.jump ref) (.jump ref')
  | promise {ref ref'} : reflection.pairs .promise ref ref' ->
      Value.Mirrors mirror reflection (.promise ref) (.promise ref')

/-- Several values, one by one. -/
inductive ValuesMirror (mirror : Mirror) (reflection : Reflection) :
    List Value -> List Value -> Prop where
  | nil : ValuesMirror mirror reflection [] []
  | cons {value value' rest rest'} : Value.Mirrors mirror reflection value value' ->
      ValuesMirror mirror reflection rest rest' ->
      ValuesMirror mirror reflection (value :: rest) (value' :: rest')

end

/-- Keyword arguments, one by one. -/
def KwargsMirror (mirror : Mirror) (reflection : Reflection) : Kwargs -> Kwargs -> Prop :=
  List.Forall₂ fun named named' =>
    named'.1 = named.1 ∧ named.2.Mirrors mirror reflection named'.2

mutual

/-- Values are the same under later reflections. -/
theorem Value.Mirrors.mono (order : reflection ≤ later) {value value' : Value}
    (mirrors : value.Mirrors mirror reflection value') : value.Mirrors mirror later value' := by
  cases mirrors with
  | nil => exact .nil
  | bool => exact .bool
  | int => exact .int
  | str => exact .str
  | tuple items => exact .tuple (ValuesMirror.mono order items)
  | list known => exact .list (order.pairs known)
  | func same => exact .func (same.mono order)
  | jump known => exact .jump (order.pairs known)
  | promise known => exact .promise (order.pairs known)

theorem ValuesMirror.mono (order : reflection ≤ later) {values values' : List Value}
    (mirrors : ValuesMirror mirror reflection values values') :
    ValuesMirror mirror later values values' := by
  cases mirrors with
  | nil => exact .nil
  | cons first rest => exact .cons (Value.Mirrors.mono order first) (ValuesMirror.mono order rest)

end

theorem KwargsMirror.mono (order : reflection ≤ later) {kwargs kwargs' : Kwargs}
    (mirrors : KwargsMirror mirror reflection kwargs kwargs') :
    KwargsMirror mirror later kwargs kwargs' :=
  List.Forall₂.imp (fun _ _ known => ⟨known.1, known.2.mono order⟩) mirrors

mutual

/-- Where numbers stand for themselves, so do values. -/
theorem Value.Mirrors.eq (exact : ∀ {store a b}, reflection.pairs store a b -> a = b)
    (bare : ∀ name, ¬ mirror.hides name)
    (plain : ∀ reflection callable callable', ¬ mirror.special reflection callable callable')
    {value value' : Value} (mirrors : value.Mirrors mirror reflection value') : value' = value := by
  cases mirrors with
  | nil | bool | int | str => rfl
  | tuple items => rw [ValuesMirror.eq exact bare plain items]
  | list known | jump known | promise known => rw [exact known]
  | func same => rw [same.eq exact bare plain]

theorem ValuesMirror.eq (exact : ∀ {store a b}, reflection.pairs store a b -> a = b)
    (bare : ∀ name, ¬ mirror.hides name)
    (plain : ∀ reflection callable callable', ¬ mirror.special reflection callable callable')
    {values values' : List Value} (mirrors : ValuesMirror mirror reflection values values') :
    values' = values := by
  cases mirrors with
  | nil => rfl
  | cons first rest =>
    rw [Value.Mirrors.eq exact bare plain first, ValuesMirror.eq exact bare plain rest]

end

namespace ValuesMirror

variable {values values' others others' : List Value}

/-- Values that are the same one by one are so as a relation on lists. -/
theorem forall₂ (mirrors : ValuesMirror mirror reflection values values') :
    List.Forall₂ (Value.Mirrors mirror reflection) values values' := by
  induction values generalizing values' with
  | nil => cases mirrors; exact .nil
  | cons value rest ih =>
    cases mirrors with
    | cons first others => exact .cons first (ih others)

/-- Values that are related as lists are the same one by one. -/
theorem of_forall₂ (same : List.Forall₂ (Value.Mirrors mirror reflection) values values') :
    ValuesMirror mirror reflection values values' := by
  induction same with
  | nil => exact .nil
  | cons first _ ih => exact .cons first ih

theorem length_eq (mirrors : ValuesMirror mirror reflection values values') :
    values'.length = values.length := mirrors.forall₂.length_eq.symm

theorem append (mirrors : ValuesMirror mirror reflection values values')
    (rest : ValuesMirror mirror reflection others others') :
    ValuesMirror mirror reflection (values ++ others) (values' ++ others') :=
  .of_forall₂ (List.rel_append mirrors.forall₂ rest.forall₂)

/-- Values at the same place are the same, or missing on both sides. -/
theorem getElem? (mirrors : ValuesMirror mirror reflection values values') (index : Nat) :
    Option.Rel (Value.Mirrors mirror reflection) values[index]? values'[index]? := by
  induction values generalizing values' index with
  | nil => cases mirrors; exact .none
  | cons value rest ih =>
    cases mirrors with
    | cons first others =>
      cases index with
      | zero => exact .some first
      | succ index => simpa only [List.getElem?_cons_succ] using ih others index

theorem pack (mirrors : ValuesMirror mirror reflection values values') :
    (Value.pack values).Mirrors mirror reflection (Value.pack values') := by
  cases mirrors with
  | nil => exact .nil
  | cons first rest =>
    cases rest with
    | nil => exact first
    | cons second others => exact .tuple (.cons first (.cons second others))

theorem one (mirrors : ValuesMirror mirror reflection values values') :
    (Native.one values).Mirrors mirror reflection (Native.one values') := by
  cases mirrors with
  | nil => exact .nil
  | cons first _ => exact first

theorem two (mirrors : ValuesMirror mirror reflection values values') :
    (Native.two values).1.Mirrors mirror reflection (Native.two values').1 ∧
      (Native.two values).2.Mirrors mirror reflection (Native.two values').2 := by
  cases mirrors with
  | nil => exact ⟨.nil, .nil⟩
  | cons first rest =>
    cases rest with
    | nil => exact ⟨first, .nil⟩
    | cons second _ => exact ⟨first, second⟩

end ValuesMirror

namespace Value.Mirrors

variable {value value' : Value}

/-- A literal is the same on both sides. -/
theorem ofLiteral (literal : Literal) :
    (Value.ofLiteral literal).Mirrors mirror reflection (.ofLiteral literal) := by
  cases literal with
  | nil => exact .nil
  | bool => exact .bool
  | int => exact .int
  | str => exact .str

/-- Values that are the same up to numbers have the same type. -/
theorem type_eq (mirrors : value.Mirrors mirror reflection value') : value'.type = value.type := by
  cases mirrors with
  | func same => simp only [Value.type, same.resembles.isContinuation]
  | _ => rfl

/-- Values that are the same up to numbers count as true alike. -/
theorem truthy_eq (mirrors : value.Mirrors mirror reflection value') :
    value'.truthy = value.truthy := by
  cases mirrors <;> rfl

end Value.Mirrors

mutual

/-- Numbers are in no keys, so values that are the same up to them have the same key. -/
theorem Value.Mirrors.memoKey?_eq {value value' : Value}
    (mirrors : value.Mirrors mirror reflection value') : value'.memoKey? = value.memoKey? := by
  cases mirrors with
  | tuple items => simp only [Value.memoKey?, ValuesMirror.memoKeys?_eq items]
  | _ => simp only [Value.memoKey?]

theorem ValuesMirror.memoKeys?_eq {values values' : List Value}
    (mirrors : ValuesMirror mirror reflection values values') :
    memoKeys? values' = memoKeys? values := by
  cases mirrors with
  | nil => rfl
  | cons first rest =>
    simp only [memoKeys?, Value.Mirrors.memoKey?_eq first, ValuesMirror.memoKeys?_eq rest]

end

/-! ## What is shown and compared -/

section Shown

variable {show' show'' : Nat -> String} {same same' : Nat -> Nat -> Bool}

mutual

/-- Values that are the same up to numbers are shown alike if lists are. -/
theorem Value.Mirrors.reprWith_eq
    (lists : ∀ a b, reflection.pairs .list a b -> show'' b = show' a) {value value' : Value}
    (mirrors : value.Mirrors mirror reflection value') :
    value'.reprWith show'' = value.reprWith show' := by
  cases mirrors with
  | bool => rename_i value; cases value <;> simp only [Value.reprWith]
  | tuple items => simp only [Value.reprWith, ValuesMirror.reprItemsWith_eq lists items]
  | list known => simp only [Value.reprWith, lists _ _ known]
  | func known => simp only [Value.reprWith, known.resembles.label]
  | _ => simp only [Value.reprWith]

theorem ValuesMirror.reprItemsWith_eq
    (lists : ∀ a b, reflection.pairs .list a b -> show'' b = show' a) {values values' : List Value}
    (mirrors : ValuesMirror mirror reflection values values') :
    reprItemsWith show'' values' = reprItemsWith show' values := by
  cases mirrors with
  | nil => rfl
  | cons first rest =>
    simp only [reprItemsWith, Value.Mirrors.reprWith_eq lists first,
      ValuesMirror.reprItemsWith_eq lists rest]

end

mutual

/-- Values that are the same up to numbers compare alike if lists do. -/
theorem Value.Mirrors.equalWith_eq (exact : reflection.OneToOne)
    (lists : ∀ a b a' b', reflection.pairs .list a b -> reflection.pairs .list a' b' ->
      same' b b' = same a a') {left left' : Value} (mirrors : left.Mirrors mirror reflection left')
    {right right' : Value} (mirrors' : right.Mirrors mirror reflection right') :
    left'.equalWith same' right' = left.equalWith same right := by
  cases mirrors with
  | tuple items =>
    cases mirrors' with
    | tuple items' =>
      simp only [Value.equalWith, ValuesMirror.equalItemsWith_eq exact lists items items']
    | _ => simp only [Value.equalWith]
  | list known =>
    cases mirrors' with
    | list known' => simp only [Value.equalWith, lists _ _ _ _ known known']
    | _ => simp only [Value.equalWith]
  | func known =>
    cases mirrors' with
    | func known' =>
      simp only [Value.equalWith]
      rw [Bool.eq_iff_iff, beq_iff_eq, beq_iff_eq]
      exact (CallableId.Mirrors.eq_iff exact known.resembles.ident known'.resembles.ident).symm
    | _ => simp only [Value.equalWith]
  | jump known =>
    cases mirrors' with
    | jump known' => simp only [Value.equalWith, exact.beq_eq known known']
    | _ => simp only [Value.equalWith]
  | promise known =>
    cases mirrors' with
    | promise known' => simp only [Value.equalWith, exact.beq_eq known known']
    | _ => simp only [Value.equalWith]
  | _ => cases mirrors' <;> simp only [Value.equalWith]

theorem ValuesMirror.equalItemsWith_eq (exact : reflection.OneToOne)
    (lists : ∀ a b a' b', reflection.pairs .list a b -> reflection.pairs .list a' b' ->
      same' b b' = same a a') {lefts lefts' : List Value}
    (mirrors : ValuesMirror mirror reflection lefts lefts') {rights rights' : List Value}
    (mirrors' : ValuesMirror mirror reflection rights rights') :
    equalItemsWith same' lefts' rights' = equalItemsWith same lefts rights := by
  cases mirrors with
  | nil => cases mirrors' <;> simp only [equalItemsWith]
  | cons first rest =>
    cases mirrors' with
    | nil => simp only [equalItemsWith]
    | cons first' rest' =>
      simp only [equalItemsWith, Value.Mirrors.equalWith_eq exact lists first first',
        ValuesMirror.equalItemsWith_eq exact lists rest rest']

end

end Shown

end Trampoline
