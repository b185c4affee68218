import Trampoline.Machine.Show

/-!
# Natives that only compute

Arithmetic, comparison and containers: the natives that neither force nor call. Integers have 64
bits and wrap; division goes toward zero.
-/

namespace Trampoline.Native

/-- The integer that an argument must be. -/
def int (op : Native) : Value -> Run Int64
  | .int value => pure value
  | value => Exec.fail (.typeMismatch op [.int] value.type)

/-- The integers that all arguments must be. -/
def ints (op : Native) : List Value -> Run (List Int64)
  | [] => pure []
  | value :: rest => do
    let first ← int op value
    let others ← ints op rest
    pure (first :: others)

/-- The only argument. -/
def one : List Value -> Value
  | value :: _ => value
  | [] => .nil

/-- The two arguments. -/
def two : List Value -> Value × Value
  | left :: right :: _ => (left, right)
  | [left] => (left, .nil)
  | [] => (.nil, .nil)

/-- The first integer less all others, or the only one negated. -/
def difference : List Int64 -> Run Value
  | [] => Exec.fail (.arity sub.name 1 0)
  | [only] => pure (.int (-only))
  | first :: rest => pure (.int (rest.foldl (· - ·) first))

/-- Compare two integers. -/
def compareInts (op : Native) (test : Int64 -> Int64 -> Bool) (args : List Value) :
    Run Value := do
  let (left, right) := two args
  let left ← int op left
  let right ← int op right
  pure (.bool (test left right))

/-- Divide two integers. The divisor is looked at first. -/
def divideInts (op : Native) (divide : Int64 -> Int64 -> Int64) (args : List Value) :
    Run Value := do
  let (left, right) := two args
  let right ← int op right
  if right = 0 then Exec.fail .divisionByZero
  else do
    let left ← int op left
    pure (.int (divide left right))

/-- The item at an index, which must be in range. -/
def pick (items : List Value) (index : Int64) : Run Value :=
  let outside : Run Value := Exec.fail (.indexOutOfRange index items.length)
  if index < 0 then outside
  else
    match items[index.toInt.toNat]? with
    | some value => pure value
    | none => outside

/-- The number of items or characters. -/
def length (op : Native) : Value -> Run Nat
  | .list ref => Exec.read fun m => (m.items ref).size
  | .tuple items => pure items.length
  | .str text => pure text.length
  | value => Exec.fail (.typeMismatch op [.list, .tuple, .str] value.type)

/-- The result of a native that neither forces nor calls; the others have none here. -/
def compute? (op : Native) (args : List Value) : Option (Run Value) :=
  match op with
  | add => some do
    let values ← ints op args
    pure (.int (values.foldl (· + ·) 0))
  | sub => some do
    let values ← ints op args
    difference values
  | mul => some do
    let values ← ints op args
    pure (.int (values.foldl (· * ·) 1))
  | div => some (divideInts op (· / ·) args)
  | rem => some (divideInts op (· % ·) args)
  | eq => some (Exec.read fun m => .bool (m.equal (two args).1 (two args).2))
  | lt => some (compareInts op (fun left right => left < right) args)
  | gt => some (compareInts op (fun left right => right < left) args)
  | le => some (compareInts op (fun left right => left ≤ right) args)
  | ge => some (compareInts op (fun left right => right ≤ left) args)
  | not => some (pure (.bool !(one args).truthy))
  | list => some (Run.newList args)
  | tuple => some (pure (.tuple args))
  | values => some (pure (.pack args))
  | push => some do
    let (target, value) := two args
    match target with
    | .list ref => do
      Run.pushItem ref value
      pure (.list ref)
    | other => Exec.fail (.typeMismatch op [.list] other.type)
  | len => some do
    let count ← length op (one args)
    pure (.int (Int64.ofNat count))
  | nth => some do
    let (target, index) := two args
    let index ← int op index
    match target with
    | .list ref => do
      let items ← Exec.read fun m : Machine => m.items ref
      pick items.toList index
    | .tuple items => pick items index
    | other => Exec.fail (.typeMismatch op [.list, .tuple] other.type)
  | typeOf => some (pure (.str (one args).type.name))
  | print | str | raise | assertEq | force | forceDeep | attempt => none

end Trampoline.Native
