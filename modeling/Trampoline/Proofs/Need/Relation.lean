import Mathlib.Data.List.Forall2
import Trampoline.Proofs.Evaluation.Runs
import Trampoline.Proofs.Need.Reference
import Trampoline.Proofs.Rewriting.Mapping

/-!
# Machines and evaluation by name

What the values of a machine mean to evaluation by name. The references of a machine are read as
what was behind them when they were made: a cell as the entry of its name, a list as its items, a
promise as its thunk, a closure as the path where it was made. Readings only grow. Every path is
used at most once: no two closures were made at the same path, and below the path of a promise that
waits nothing was made yet.
-/

namespace Trampoline

/-- Whether an expression binds a name in the block around it. -/
def Expr.isBind : Expr -> Bool
  | bind .. => true
  | _ => false

/-- Whether an expression is a function expression. -/
def Expr.isFunction : Expr -> Bool
  | fn .. => true
  | _ => false

namespace ByName

/-! ## Paths -/

/-- Neither path leads through the other. -/
def Apart (left right : Path) : Prop := ¬ left <:+ right ∧ ¬ right <:+ left

namespace Apart

variable {left right : Path}

/-- Paths are apart both ways. -/
theorem symm (apart : Apart left right) : Apart right left := ⟨apart.2, apart.1⟩

theorem cons (apart : Apart left right) (turn : Nat) : Apart (turn :: left) right := by
  constructor
  · intro leads
    exact apart.1 ((List.suffix_cons turn left).trans leads)
  · intro leads
    rcases List.suffix_cons_iff.mp leads with rfl | leads
    · exact apart.1 (List.suffix_cons turn left)
    · exact apart.2 leads

/-- Different turns at one path lead to paths that are apart. -/
theorem turns {turn other : Nat} (different : turn ≠ other) (path : Path) :
    Apart (turn :: path) (other :: path) := by
  have never : ∀ {turn other : Nat}, turn ≠ other -> ¬ turn :: path <:+ other :: path := by
    intro turn other different leads
    have same := leads.eq_of_length rfl
    exact different (List.cons.inj same).1
  exact ⟨never different, never different.symm⟩

end Apart

/-! ## Programs -/

/-- What is asked of each node of a program: there are no effects, names are bound by the items of
blocks only, and what is defined in a lazy body is lazy. -/
def IsPure : Expr -> Prop
  | .var _ name => ∀ op : Native, op.isPure = false -> name ≠ op.name
  | .fn _ signature body => signature.kind = .plain ∧ body.isBind = false ∧
    (signature.regions.lazy = true -> body.All fun node =>
      ∀ mark signature body, node = .fn mark signature body -> signature.regions.lazy = true)
  | .assign .. | .jump .. | .capture .. => False
  | .seq .. => True
  | e => ∀ child ∈ e.children, child.isBind = false

/-- What is asked of each node of an expression in a lazy body or in another. -/
structure Suits (isLazy : Bool) (node : Expr) : Prop where
  isPure : IsPure node
  inner : isLazy = true -> ∀ mark signature body, node = .fn mark signature body ->
    signature.regions.lazy = true

/-- The wrappers of a function: none, or that of lazy functions. -/
def wrappersOf (dressed : Bool) (signature : Signature) : List Decorator :=
  if dressed && signature.regions.lazy then [.lazy] else []

/-- A callable with the wrappers of its function. -/
def dress (dressed : Bool) (signature : Signature) (base : Callable) : Callable :=
  if dressed && signature.regions.lazy then .lazyFn base else base

/-- A function of the machine is the function with its wrappers. -/
def Wears (dressed : Bool) (function other : Function) : Prop :=
  other = ⟨{ function.signature with wrappers := wrappersOf dressed function.signature },
    function.body⟩

/-- A function of the machine is the function with its wrappers, and so are those inside it. -/
def Becomes (dressed : Bool) (function other : Function) : Prop :=
  ∃ body, Mapping (Wears dressed) function.body body ∧
    Wears dressed ⟨function.signature, body⟩ other

/-- Whether an entry is still to be evaluated. -/
def Entry.isThunk : Entry -> Bool
  | thunk .. => true
  | _ => false

/-- No name is bound to a thunk. -/
def Settled (env : Bindings) : Prop := ∀ bound ∈ env, bound.2.isThunk = false

/-- The function is one of a pure program, made in a scope. -/
structure Fits (function : Function) (env : Bindings) : Prop where
  plain : function.signature.kind = .plain
  suits : function.body.All (Suits function.signature.regions.lazy)
  body : function.body.isBind = false
  settled : function.signature.regions.lazy = false -> Settled env

/-! ## Values -/

/-- What the references of a machine stand for. -/
structure Reading where
  cells : List Entry
  lists : List (List Val)
  promises : List Entry
  closures : List Path

/-- All references stand for what they stood for. -/
structure Reading.Grows (reading more : Reading) : Prop where
  cells : reading.cells <+: more.cells
  lists : reading.lists <+: more.lists
  promises : reading.promises <+: more.promises
  closures : reading.closures <+: more.closures

/-- The cells of a scope stand for the entries of the names. -/
def Stands (reading : Reading) (env : Env) (names : Bindings) : Prop :=
  List.Forall₂ (fun cell entry => cell.1 = entry.1 ∧ reading.cells[cell.2]? = some entry.2)
    env names

mutual

/-- What a value of the machine means. No promise means a value. -/
inductive Means (dressed : Bool) (reading : Reading) : Value -> Val -> Prop where
  | nil : Means dressed reading .nil .nil
  | bool (value : Bool) : Means dressed reading (.bool value) (.bool value)
  | int (value : Int64) : Means dressed reading (.int value) (.int value)
  | str (value : String) : Means dressed reading (.str value) (.str value)
  | tuple {items vals} : MeanAll dressed reading items vals ->
      Means dressed reading (.tuple items) (.tuple vals)
  | list {ref vals} : reading.lists[ref]? = some vals ->
      Means dressed reading (.list ref) (.list vals)
  | native {op : Native} : op.isPure = true ->
      Means dressed reading (.func (.native op)) (.native op)
  | identity (ref : Nat) : Means dressed reading (.func (.identity ref)) (.identity ref)
  | closure {callable ref path function other env names} :
      callable = dress dressed function.signature (.closure ref other env) ->
      reading.closures[ref]? = some path -> Becomes dressed function other ->
      Stands reading env names -> Fits function names ->
      Means dressed reading (.func callable) (.closure path function names)

/-- What several values mean, one by one. -/
inductive MeanAll (dressed : Bool) (reading : Reading) : List Value -> List Val -> Prop where
  | nil : MeanAll dressed reading [] []
  | cons {value val rest vals} : Means dressed reading value val ->
      MeanAll dressed reading rest vals -> MeanAll dressed reading (value :: rest) (val :: vals)

end

section Growing

variable {dressed : Bool} {reading more : Reading}

/-- What is at a place of a list is there when the list has grown. -/
theorem getElem?_grow {α : Type} {left right : List α} (grows : left <+: right) {n : Nat}
    {value : α} (found : left[n]? = some value) : right[n]? = some value := by
  obtain ⟨rest, rfl⟩ := grows
  rw [List.getElem?_append_left (List.getElem?_eq_some_iff.mp found).1]
  exact found

namespace Reading.Grows

/-- A reading grows by nothing. -/
theorem refl (reading : Reading) : reading.Grows reading :=
  ⟨List.prefix_rfl, List.prefix_rfl, List.prefix_rfl, List.prefix_rfl⟩

theorem trans {further : Reading} (grows : reading.Grows more) (grows' : more.Grows further) :
    reading.Grows further :=
  ⟨grows.cells.trans grows'.cells, grows.lists.trans grows'.lists,
    grows.promises.trans grows'.promises, grows.closures.trans grows'.closures⟩

end Reading.Grows

theorem Stands.grow {env : Env} {names : Bindings} (stands : Stands reading env names)
    (grows : reading.Grows more) : Stands more env names :=
  stands.imp fun _ _ ⟨same, found⟩ => ⟨same, getElem?_grow grows.cells found⟩

mutual

/-- A value means what it meant under a reading that has grown. -/
theorem Means.grow (grows : reading.Grows more) : ∀ {value : Value} {val : Val},
    Means dressed reading value val -> Means dressed more value val
  | _, _, .nil => .nil
  | _, _, .bool value => .bool value
  | _, _, .int value => .int value
  | _, _, .str value => .str value
  | _, _, .tuple all => .tuple (all.grow grows)
  | _, _, .list found => .list (getElem?_grow grows.lists found)
  | _, _, .native kind => .native kind
  | _, _, .identity ref => .identity ref
  | _, _, .closure dresses found becomes stands fits =>
    .closure dresses (getElem?_grow grows.closures found) becomes (stands.grow grows) fits

theorem MeanAll.grow (grows : reading.Grows more) : ∀ {values : List Value} {vals : List Val},
    MeanAll dressed reading values vals -> MeanAll dressed more values vals
  | _, _, .nil => .nil
  | _, _, .cons means all => .cons (means.grow grows) (all.grow grows)

end

end Growing

/-! ## Entries -/

/-- The value that evaluation by name gives an entry. -/
def Entry.Evaluates (globals : List (String × Val)) (entry : Entry) (val : Val) : Prop :=
  refer globals (.need entry) = some val

/-- What a value of the machine is to the entry that it was made from: the value of the entry, or
its promise. -/
inductive Holds (dressed : Bool) (globals : List (String × Val)) (reading : Reading) :
    Value -> Entry -> Prop where
  | value {value val entry} : Means dressed reading value val -> entry.Evaluates globals val ->
      Holds dressed globals reading value entry
  | promise {ref e names path} : reading.promises[ref]? = some (.thunk e names path) ->
      Holds dressed globals reading (.promise ref) (.thunk e names path)

/-- What a promise is to its entry. -/
inductive Keeps (dressed : Bool) (globals : List (String × Val)) (reading : Reading) :
    Promise -> Entry -> Prop where
  | pending {e other env names path} : Mapping (Wears dressed) e other -> e.All (Suits true) ->
      e.isBind = false -> Stands reading env names ->
      Keeps dressed globals reading (.pending (.expr other env)) (.thunk e names path)
  | forcing {e names path} : Keeps dressed globals reading .forcing (.thunk e names path)
  | forced {value val e names path} : Means dressed reading value val ->
      Entry.Evaluates globals (.thunk e names path) val ->
      Keeps dressed globals reading (.forced value) (.thunk e names path)

/-! ## Machines -/

/-- The promise waits to be forced, at the path. -/
def Awaits (reading : Reading) (m : Machine) (ref : Nat) (path : Path) : Prop :=
  (∃ e names, reading.promises[ref]? = some (.thunk e names path)) ∧
    ∃ thunk, m.promise ref = .pending thunk

/-- Nothing was made at the path or below it, and no promise waits to make something there. -/
structure Free (reading : Reading) (m : Machine) (path : Path) : Prop where
  unused : ∀ other ∈ reading.closures, ¬ path <:+ other
  unclaimed : ∀ ref other, Awaits reading m ref other -> Apart path other

/-- The machine is as its references are read. -/
structure Agrees (dressed : Bool) (globals : List (String × Val)) (reading : Reading)
    (m : Machine) : Prop where
  cells : reading.cells.length = m.cells.size
  lists : reading.lists.length = m.lists.size
  promises : reading.promises.length = m.promises.size
  closures : reading.closures.length = m.closures
  cell : ∀ ref entry, reading.cells[ref]? = some entry ->
    Holds dressed globals reading (m.cell ref) entry
  items : ∀ ref vals, reading.lists[ref]? = some vals ->
    MeanAll dressed reading (m.items ref).toList vals ∧ depthAll vals ≤ ref
  promise : ∀ ref entry, reading.promises[ref]? = some entry ->
    Keeps dressed globals reading (m.promise ref) entry
  distinct : reading.closures.Nodup
  claims : ∀ ref path, Awaits reading m ref path ->
    (∀ other ∈ reading.closures, ¬ path <:+ other) ∧
      ∀ ref' path', Awaits reading m ref' path' -> ref ≠ ref' -> Apart path path'
  known : ∀ name, (∀ op : Native, op.isPure = false -> name ≠ op.name) ->
    Option.Rel (Means dressed reading) (m.global? name) (globals.lookup name)

/-- The promises that are being forced are known to be blocked. -/
def Ready (blocked : Entry -> Prop) (reading : Reading) (m : Machine) : Prop :=
  ∀ ref entry, reading.promises[ref]? = some entry -> m.promise ref = .forcing -> blocked entry

/-- What becomes of a machine while something is evaluated: what is spared stays free, and what is
being forced was being forced before. -/
structure Moves (spared : Path -> Prop) (reading : Reading) (m : Machine) (more : Reading)
    (m' : Machine) : Prop where
  grows : reading.Grows more
  free : ∀ path, spared path -> Free reading m path -> Free more m' path
  forcing : ∀ ref entry, more.promises[ref]? = some entry -> m'.promise ref = .forcing ->
    reading.promises[ref]? = some entry ∧ m.promise ref = .forcing

end ByName

end Trampoline
