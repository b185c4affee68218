import Trampoline.Machine.Eval

/-!
# Evaluation by name

Call by need and call by value are compared with a third way to evaluate, which has no machine: a
lazy body binds names to expressions, and whoever asks for a name evaluates its expression anew.
Values hold all that they refer to. A function is known by the path of the evaluation that made
it, so it stays the same however often it is made. Evaluation is told as the queries that lead
from one to the next; with fuel, which every query uses up by one, they are answered.
-/

namespace Trampoline

/-- The natives that neither print nor change lists nor handle errors. -/
def Native.isPure : Native -> Bool
  | push | print | attempt => false
  | _ => true

namespace ByName

/-- Where an evaluation stands in a run: the turns taken on the way there, the last one first. -/
abbrev Path := List Nat

mutual

/-- Values. -/
inductive Val where
  | nil
  | bool (value : Bool)
  | int (value : Int64)
  | str (value : String)
  | tuple (items : List Val)
  | list (items : List Val)
  | native (op : Native)
  | identity (ref : Nat)
  /-- A function that was made at the path. -/
  | closure (path : Path) (function : Function) (env : List (String × Entry))

/-- What a name is bound to. -/
inductive Entry where
  | value (value : Val)
  /-- An expression of a lazy body, to be evaluated at the path. -/
  | thunk (e : Expr) (env : List (String × Entry)) (path : Path)
  /-- A function that sees its own name. -/
  | recur (name : String) (path : Path) (function : Function) (env : List (String × Entry))

end

instance : Inhabited Val := ⟨.nil⟩

/-- The names of a scope, innermost names first. -/
abbrev Bindings := List (String × Entry)

/-! ## Values -/

namespace Val

/-- Only nil and false count as false. -/
def truthy : Val -> Bool
  | nil | bool false => false
  | _ => true

/-- The value of a constant. -/
def ofLiteral : Literal -> Val
  | .nil => nil
  | .bool value => bool value
  | .int value => int value
  | .str value => str value

/-- No value is nil, one is itself, several are a tuple. -/
def pack : List Val -> Val
  | [] => nil
  | [value] => value
  | values => tuple values

/-- Whether operands in a lazy body are left to it to evaluate. -/
def takesThunks : Val -> Bool
  | closure _ function _ => function.signature.regions.lazy
  | _ => false

/-- The type of a value. -/
def type : Val -> ValueType
  | nil => .nil
  | bool _ => .bool
  | int _ => .int
  | str _ => .str
  | tuple _ => .tuple
  | list _ => .list
  | native _ | closure .. => .function
  | identity _ => .continuation

/-- The integer that a value is. -/
def int? : Val -> Option Int64
  | int value => some value
  | _ => none

end Val

mutual

/-- A value as shown inside others. -/
def Val.repr : Val -> String
  | .nil => "nil"
  | .bool true => "#t"
  | .bool false => "#f"
  | .int value => toString value.toInt
  | .str value => Quoted.write value
  | .tuple items => "(tuple" ++ reprAll items ++ ")"
  | .list items => "(list" ++ reprAll items ++ ")"
  | .native op => "<native " ++ op.name ++ ">"
  | .identity _ => "<identity>"
  | .closure _ function _ => "<fn #" ++ toString function.signature.id ++ ">"

/-- Several values, each after a blank. -/
def reprAll : List Val -> String
  | [] => ""
  | value :: rest => " " ++ value.repr ++ reprAll rest

end

/-- A value as printed. -/
def Val.display : Val -> String
  | .str text => text
  | value => value.repr

mutual

/-- Whether two values are equal: functions are if they were made at the same path. -/
def Val.same : Val -> Val -> Bool
  | .nil, .nil => true
  | .bool left, .bool right => left == right
  | .int left, .int right => left == right
  | .str left, .str right => left == right
  | .tuple lefts, .tuple rights => sameAll lefts rights
  | .list lefts, .list rights => sameAll lefts rights
  | .native left, .native right => left == right
  | .identity left, .identity right => left == right
  | .closure left _ _, .closure right _ _ => left == right
  | _, _ => false

/-- Whether two lists of values are equal, one by one. -/
def sameAll : List Val -> List Val -> Bool
  | [], [] => true
  | left :: lefts, right :: rights => left.same right && sameAll lefts rights
  | _, _ => false

end

mutual

/-- How deep lists are nested in a value. -/
def Val.depth : Val -> Nat
  | .tuple items => depthAll items
  | .list items => depthAll items + 1
  | _ => 0

/-- How deep lists are nested in several values. -/
def depthAll : List Val -> Nat
  | [] => 0
  | value :: rest => max value.depth (depthAll rest)

end

/-! ## Natives -/

/-- The first of some values. -/
def one : List Val -> Val
  | value :: _ => value
  | [] => .nil

/-- The first two of some values. -/
def two : List Val -> Val × Val
  | left :: right :: _ => (left, right)
  | [left] => (left, .nil)
  | [] => (.nil, .nil)

/-- The integers that all values must be. -/
def ints : List Val -> Option (List Int64)
  | [] => some []
  | value :: rest => do
    let first ← value.int?
    let others ← ints rest
    some (first :: others)

/-- The first integer less all others, or the only one negated. -/
def difference : List Int64 -> Option Val
  | [] => none
  | [only] => some (.int (-only))
  | first :: rest => some (.int (rest.foldl (· - ·) first))

/-- Compare two integers. -/
def compareInts (test : Int64 -> Int64 -> Bool) (args : List Val) : Option Val := do
  let left ← (two args).1.int?
  let right ← (two args).2.int?
  some (.bool (test left right))

/-- Divide two integers. -/
def divideInts (divide : Int64 -> Int64 -> Int64) (args : List Val) : Option Val := do
  let right ← (two args).2.int?
  if right = 0 then none
  else do
    let left ← (two args).1.int?
    some (.int (divide left right))

/-- The item at an index, which must be in range. -/
def pick (items : List Val) (index : Int64) : Option Val :=
  if index < 0 then none else items[index.toInt.toNat]?

/-- The number of items or characters. -/
def length : Val -> Option Nat
  | .list items | .tuple items => some items.length
  | .str text => some text.length
  | _ => none

/-- The items of a list or a tuple. -/
def Val.items? : Val -> Option (List Val)
  | .list items | .tuple items => some items
  | _ => none

/-- What a native makes of as many values as it takes. -/
def reckon (op : Native) (args : List Val) : Option Val :=
  match op with
  | .add => do
    let values ← ints args
    some (.int (values.foldl (· + ·) 0))
  | .sub => ints args >>= difference
  | .mul => do
    let values ← ints args
    some (.int (values.foldl (· * ·) 1))
  | .div => divideInts (· / ·) args
  | .rem => divideInts (· % ·) args
  | .eq => some (.bool ((two args).1.same (two args).2))
  | .lt => compareInts (fun left right => left < right) args
  | .gt => compareInts (fun left right => right < left) args
  | .le => compareInts (fun left right => left ≤ right) args
  | .ge => compareInts (fun left right => right ≤ left) args
  | .not => some (.bool !(one args).truthy)
  | .list => some (.list args)
  | .tuple => some (.tuple args)
  | .values => some (.pack args)
  | .len => do
    let count ← length (one args)
    some (.int (Int64.ofNat count))
  | .nth => do
    let index ← (two args).2.int?
    let items ← (two args).1.items?
    pick items index
  | .typeOf => some (.str (one args).type.name)
  | .str => some (.str (String.join (args.map Val.display)))
  | .assertEq => if (two args).1.same (two args).2 then some .nil else none
  | .force | .forceDeep => some (one args)
  | .raise | .push | .print | .attempt => none

/-- What a native makes of some values. -/
def applyNative (op : Native) (args : List Val) : Option Val :=
  match op.arity with
  | none => reckon op args
  | some expected => if args.length = expected then reckon op args else none

/-! ## Parameters -/

/-- The value that an entry is. -/
def Entry.value? : Entry -> Option Val
  | .value held => some held
  | _ => none

/-- What parameters are bound to by the positional arguments. -/
def place : (params : List String) -> List Entry -> List (String × Option Entry)
  | [], _ => []
  | param :: params, [] => (param, none) :: place params []
  | param :: params, entry :: rest => (param, some entry) :: place params rest

/-- Bind the first parameter of a name, if there is one. -/
def placeKeyword (keyword : String) (entry : Entry) :
    List (String × Option Entry) -> Option (List (String × Option Entry))
  | [] => none
  | (param, old) :: rest =>
    if param = keyword then some ((param, some entry) :: rest)
    else (placeKeyword keyword entry rest).map ((param, old) :: ·)

/-- Bind parameters to the keyword arguments, in place of positional ones. -/
def placeKeywords : Bindings -> List (String × Option Entry) ->
    Option (List (String × Option Entry))
  | [], bound => some bound
  | (keyword, entry) :: rest, bound => placeKeyword keyword entry bound >>= placeKeywords rest

/-- Bind every parameter. -/
def fill : List (String × Option Entry) -> Bindings -> Option Bindings
  | [], env => some env
  | (param, some entry) :: rest, env => fill rest ((param, entry) :: env)
  | (_, none) :: _, _ => none

/-- The names of the body of a function applied to arguments. -/
def parameters (signature : Signature) (env : Bindings) (args : List Entry) (kwargs : Bindings) :
    Option Bindings :=
  if signature.params.length < args.length then none
  else do
    let bound ← placeKeywords kwargs (place signature.params args)
    fill bound env

/-! ## Queries -/

/-- The scope of a running body. -/
structure Scope where
  env : Bindings
  isLazy : Bool

/-- What can be asked about a program. -/
inductive Query where
  /-- The value of a global. -/
  | global (name : String)
  /-- The value of an expression. -/
  | eval (e : Expr) (scope : Scope) (path : Path)
  /-- What a name is bound to. -/
  | binding (name : String) (bindee : Expr) (scope : Scope) (path : Path)
  /-- What an operand is passed as. -/
  | operand (byName : Bool) (e : Expr) (scope : Scope) (path : Path)
  | operands (byName : Bool) (es : List Expr) (scope : Scope) (path : Path)
  | keywords (byName : Bool) (es : List (String × Expr)) (scope : Scope) (path : Path)
  | arms (arms : List (Expr × Expr)) (alt : Option Expr) (scope : Scope) (path : Path)
  | short (op : Connective) (es : List Expr) (last : Val) (scope : Scope) (path : Path)
  | items (es : List Expr) (last : Val) (scope : Scope) (path : Path)
  | loop (test body : Expr) (scope : Scope) (path : Path)
  | apply (callee : Val) (args : List Entry) (kwargs : Bindings) (path : Path)
  /-- The value behind an entry. -/
  | need (entry : Entry)

/-- What a query is answered with. -/
@[reducible]
def Query.Answer : Query -> Type
  | global _ | eval .. | arms .. | short .. | items .. | loop .. | apply .. | need _ => Val
  | binding .. | operand .. => Entry
  | operands .. => List Entry
  | keywords .. => Bindings

/-- A computation that leaves open how the queries in it are answered. -/
inductive Course (α : Type) : Type where
  | done (value : α)
  | stuck
  | ask (query : Query) (next : query.Answer -> Course α)

namespace Course

variable {α β : Type}

/-- Go on with what a course comes to. -/
protected def bind (first : Course α) (next : α -> Course β) : Course β :=
  match first with
  | done value => next value
  | stuck => stuck
  | ask query rest => ask query fun answer => (rest answer).bind next

instance : Monad Course where
  pure := done
  bind := Course.bind

/-- A query. -/
@[reducible]
def sub (query : Query) : Course query.Answer := ask query done

/-- What is there, or nothing. -/
def ofOption : Option α -> Course α
  | some value => done value
  | none => stuck

/-- Follow a course, with the queries answered as given. -/
def run (refer : (query : Query) -> Option query.Answer) : Course α -> Option α
  | done value => some value
  | stuck => none
  | ask query next => refer query >>= fun answer => (next answer).run refer

variable {refer : (query : Query) -> Option query.Answer}

@[simp] theorem run_pure (value : α) : (pure value : Course α).run refer = some value := rfl

@[simp] theorem run_done (value : α) : (done value).run refer = some value := rfl

@[simp] theorem run_stuck : (stuck : Course α).run refer = none := rfl

@[simp] theorem run_sub (query : Query) : (sub query).run refer = refer query := bind_pure _

@[simp] theorem run_ofOption (value : Option α) : (ofOption value).run refer = value := by
  cases value <;> rfl

@[simp] theorem run_bind (first : Course α) (next : α -> Course β) :
    (first >>= next).run refer = first.run refer >>= fun value => (next value).run refer := by
  show (first.bind next).run refer = _
  induction first with
  | done value => rfl
  | stuck => rfl
  | ask query rest ih => simp only [Course.bind, run, bind_assoc, ih]

@[simp] theorem run_ite (test : Prop) [Decidable test] (first second : Course α) :
    (if test then first else second).run refer =
      if test then first.run refer else second.run refer :=
  apply_ite (Course.run refer) test first second

end Course

open Course

/-- What a name stands for: its entry in the scope, else the global. -/
def Scope.entry (scope : Scope) (name : String) : Course Entry :=
  match scope.env.lookup name with
  | some entry => pure entry
  | none => do
    let value ← sub (.global name)
    pure (.value value)

/-- How a query is answered, given the globals. -/
def Query.course (globals : List (String × Val)) : (query : Query) -> Course query.Answer
  | global name => ofOption (globals.lookup name)
  | eval e scope path =>
    match e with
    | .lit _ value => pure (.ofLiteral value)
    | .var _ name => do
      let entry ← scope.entry name
      sub (need entry)
    | .fn _ signature body => pure (.closure path ⟨signature, body⟩ scope.env)
    | .call _ func args kwargs => do
      let callee ← sub (eval func scope (0 :: path))
      let byName := scope.isLazy && callee.takesThunks
      let args ← sub (operands byName args scope (1 :: path))
      let kwargs ← sub (keywords byName kwargs scope (2 :: path))
      sub (apply callee args kwargs (3 :: path))
    | .cond _ branches alt => sub (arms branches alt scope path)
    | .short _ op es => sub (short op es (.bool (op = .and)) scope path)
    | .seq _ es => sub (items es .nil scope path)
    | .bind _ name bindee => do
      let _ ← sub (binding name bindee scope path)
      pure .nil
    | .loop _ test body => sub (loop test body scope path)
    | .assign .. | .jump .. | .capture .. => stuck
  | binding name bindee scope path =>
    match bindee with
    | .fn _ signature body => pure (.recur name path ⟨signature, body⟩ scope.env)
    | bindee => sub (operand scope.isLazy bindee scope path)
  | operand false e scope path => do
    let value ← sub (eval e scope path)
    pure (.value value)
  | operand true e scope path =>
    match e with
    | .var _ name => scope.entry name
    | .lit _ value => pure (.value (.ofLiteral value))
    | .fn _ signature body => pure (.value (.closure path ⟨signature, body⟩ scope.env))
    | e => pure (.thunk e scope.env path)
  | operands _ [] _ _ => pure []
  | operands byName (e :: rest) scope path => do
    let entry ← sub (operand byName e scope (0 :: path))
    let others ← sub (operands byName rest scope (1 :: path))
    pure (entry :: others)
  | keywords _ [] _ _ => pure []
  | keywords byName ((name, e) :: rest) scope path => do
    let entry ← sub (operand byName e scope (0 :: path))
    let others ← sub (keywords byName rest scope (1 :: path))
    pure ((name, entry) :: others)
  | arms [] none _ _ => pure .nil
  | arms [] (some e) scope path => sub (eval e scope path)
  | arms ((test, body) :: rest) alt scope path => do
    let value ← sub (eval test scope (0 :: path))
    if value.truthy then sub (eval body scope (1 :: path))
    else sub (arms rest alt scope (1 :: path))
  | short _ [] last _ _ => pure last
  | short op (e :: rest) _ scope path => do
    let value ← sub (eval e scope (0 :: path))
    if value.truthy = (op = .or) then pure value else sub (short op rest value scope (1 :: path))
  | items [] last _ _ => pure last
  | items (e :: rest) _ scope path =>
    match e with
    | .bind _ name bindee => do
      let entry ← sub (binding name bindee scope (0 :: path))
      sub (items rest .nil { scope with env := (name, entry) :: scope.env } (1 :: path))
    | e => do
      let value ← sub (eval e scope (0 :: path))
      sub (items rest value scope (1 :: path))
  | loop test body scope path => do
    let value ← sub (eval test scope (0 :: path))
    if value.truthy then do
      let _ ← sub (eval body scope (1 :: path))
      sub (loop test body scope (2 :: path))
    else pure .nil
  | apply callee args kwargs path =>
    match callee with
    | .closure _ function env => do
      let env ← ofOption (parameters function.signature env args kwargs)
      sub (eval function.body ⟨env, function.signature.regions.lazy⟩ path)
    | .native op =>
      match kwargs with
      | [] => do
        let values ← ofOption (args.mapM Entry.value?)
        ofOption (applyNative op values)
      | _ :: _ => stuck
    | .identity _ =>
      match kwargs with
      | [] => do
        let values ← ofOption (args.mapM Entry.value?)
        pure (.pack values)
      | _ :: _ => stuck
    | _ => stuck
  | need entry =>
    match entry with
    | .value value => pure value
    | .thunk e env path => sub (eval e ⟨env, true⟩ path)
    | .recur name path function env =>
      pure (.closure path function ((name, .recur name path function env) :: env))

/-! ## Answers -/

variable {globals more : List (String × Val)}

/-- The answer to a query, given an amount of fuel. -/
def referAt (globals : List (String × Val)) : Nat -> (query : Query) -> Option query.Answer
  | 0, _ => none
  | n + 1, query => (query.course globals).run (referAt globals n)

/-- Some answers are among others. -/
def Within (refer other : (query : Query) -> Option query.Answer) : Prop :=
  ∀ query answer, refer query = some answer -> other query = some answer

variable {α : Type} {value : α} {course : Course α} {n : Nat} {query : Query}
  {answer : query.Answer}

/-- What can be answered with some queries can be answered with more. -/
theorem Course.run_within {refer other : (query : Query) -> Option query.Answer}
    (within : Within refer other)
    (ends : course.run refer = some value) : course.run other = some value := by
  induction course with
  | done _ => exact ends
  | stuck => cases ends
  | ask query next ih =>
    obtain ⟨answer, answered, rest⟩ := Option.bind_eq_some_iff.mp ends
    exact Option.bind_eq_some_iff.mpr ⟨answer, within query answer answered, ih answer rest⟩

/-- Names that are bound among some globals are bound alike among more. -/
def Extend (globals more : List (String × Val)) : Prop :=
  ∀ name value, globals.lookup name = some value -> more.lookup name = some value

/-- More globals and more fuel answer what was answered before. -/
theorem referAt_within (extend : Extend globals more) (n : Nat) :
    Within (referAt globals n) (referAt more (n + 1)) := by
  induction n with
  | zero => exact fun _ _ => nofun
  | succ n ih =>
    intro query answer ends
    cases query with
    | global name =>
      rw [referAt, Query.course, run_ofOption] at ends ⊢
      exact extend name answer ends
    | operand byName => cases byName <;> exact run_within ih ends
    | operands _ es | keywords _ es | short _ es | items es =>
      cases es <;> exact run_within ih ends
    | arms branches alt => cases branches <;> cases alt <;> exact run_within ih ends
    | _ => exact run_within ih ends

/-- More fuel answers what was answered with less. -/
theorem referAt_le {k : Nat} (less : n ≤ k) : Within (referAt globals n) (referAt globals k) := by
  induction less with
  | refl => exact fun _ _ => id
  | step _ below =>
    exact fun query answer ends =>
      referAt_within (fun _ _ => id) _ query answer (below query answer ends)

/-- The least fuel that a query takes. -/
theorem first_answer (answered : referAt globals n query = some answer) :
    ∃ k < n, referAt globals k query = none ∧ referAt globals (k + 1) query = some answer := by
  induction n with
  | zero => cases answered
  | succ n ih =>
    cases before : referAt globals n query with
    | none => exact ⟨n, n.lt_succ_self, before, answered⟩
    | some other =>
      obtain rfl : other = answer :=
        Option.some.inj ((referAt_le n.le_succ query other before).symm.trans answered)
      obtain ⟨k, less, least⟩ := ih before
      exact ⟨k, Nat.lt_succ_of_lt less, least⟩

open Classical in
/-- The answer to a query. -/
noncomputable def refer (globals : List (String × Val)) (query : Query) : Option query.Answer :=
  if ends : ∃ n, (referAt globals n query).isSome then referAt globals ends.choose query else none

/-- A query is answered if some fuel suffices for it. -/
theorem refer_eq_some :
    refer globals query = some answer ↔ ∃ n, referAt globals n query = some answer := by
  unfold refer
  constructor
  · intro ended
    split at ended
    · exact ⟨_, ended⟩
    · cases ended
  · rintro ⟨n, ended⟩
    have ends : ∃ n, (referAt globals n query).isSome := ⟨n, by rw [ended]; rfl⟩
    rw [dif_pos ends]
    obtain ⟨other, chosen⟩ := Option.isSome_iff_exists.mp ends.choose_spec
    rcases Nat.le_total n ends.choose with less | less
    · exact referAt_le less query answer ended
    · have same := referAt_le less query other chosen
      rw [ended] at same
      rw [chosen, same]

/-- Every answer with some fuel is an answer. -/
theorem referAt_within_refer (n : Nat) : Within (referAt globals n) (refer globals) :=
  fun _ _ ended => refer_eq_some.mpr ⟨n, ended⟩

/-- More globals keep every answer. -/
theorem refer_within (extend : Extend globals more) : Within (refer globals) (refer more) := by
  intro query answer ended
  obtain ⟨n, ended⟩ := refer_eq_some.mp ended
  exact refer_eq_some.mpr ⟨n + 1, referAt_within extend n query answer ended⟩

/-- A course has a value if some fuel suffices for all that it asks. -/
theorem Course.run_refer_eq_some : course.run (refer globals) = some value ↔
      ∃ n, course.run (referAt globals n) = some value := by
  constructor
  · intro ends
    induction course with
    | done _ => exact ⟨0, ends⟩
    | stuck => cases ends
    | ask query next ih =>
      obtain ⟨answer, answered, rest⟩ := Option.bind_eq_some_iff.mp ends
      obtain ⟨n, answered⟩ := refer_eq_some.mp answered
      obtain ⟨k, rest⟩ := ih answer rest
      exact ⟨max n k, Option.bind_eq_some_iff.mpr ⟨answer,
        referAt_le (Nat.le_max_left n k) query answer answered,
        run_within (referAt_le (Nat.le_max_right n k)) rest⟩⟩
  · rintro ⟨n, ends⟩
    exact run_within (referAt_within_refer n) ends

/-- A query is answered by its course. -/
theorem refer_eq (query : Query) :
    refer globals query = (query.course globals).run (refer globals) := by
  refine Option.ext fun answer => ?_
  rw [run_refer_eq_some, refer_eq_some]
  constructor
  · rintro ⟨_ | n, ends⟩
    · cases ends
    · exact ⟨n, ends⟩
  · rintro ⟨n, ends⟩
    exact ⟨n + 1, ends⟩

end ByName

end Trampoline
