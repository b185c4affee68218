import Trampoline.Machine.State
import Trampoline.Text.Quoted

/-!
# Values as text, and equality

How values are shown and compared. Both look through lists into the machine. A list that contains
itself has neither; the bounds below are never reached by any other.
-/

namespace Trampoline

mutual

/-- A value as shown inside others, given how lists are shown. Strings are quoted. -/
def Value.reprWith (showList : Nat -> String) : Value -> String
  | .nil => "nil"
  | .bool true => "#t"
  | .bool false => "#f"
  | .int value => toString value.toInt
  | .str value => Quoted.write value
  | .tuple items => "(tuple" ++ reprItemsWith showList items ++ ")"
  | .list ref => showList ref
  | .func callable => callable.label
  | .jump _ => "<jump>"
  | .promise _ => "<promise>"

/-- Several values, each after a blank. -/
def reprItemsWith (showList : Nat -> String) : List Value -> String
  | [] => ""
  | value :: rest => " " ++ value.reprWith showList ++ reprItemsWith showList rest

end

/-- A list as shown, with lists down to `depth` inside it. -/
def showListTo (m : Machine) : (depth : Nat) -> (ref : Nat) -> String
  | 0, _ => "(list ...)"
  | depth + 1, ref =>
    "(list" ++ reprItemsWith (showListTo m depth) (m.items ref).toList ++ ")"

namespace Machine

/-- A value as it is written in a program or shown inside another value. A nest of lists is at
most as deep as there are lists. -/
def repr (m : Machine) (value : Value) : String :=
  value.reprWith (showListTo m m.lists.size)

/-- A value as printed: a string stands for itself. -/
def display (m : Machine) (value : Value) : String :=
  match value with
  | .str text => text
  | value => m.repr value

end Machine

mutual

/-- Whether two values are equal, given which lists are: structurally on data, by identity on
functions, jumps and promises. -/
def Value.equalWith (sameList : Nat -> Nat -> Bool) : Value -> Value -> Bool
  | .nil, .nil => true
  | .bool left, .bool right => left == right
  | .int left, .int right => left == right
  | .str left, .str right => left == right
  | .tuple lefts, .tuple rights => equalItemsWith sameList lefts rights
  | .list left, .list right => sameList left right
  | .func left, .func right => left.ident == right.ident
  | .jump left, .jump right => left == right
  | .promise left, .promise right => left == right
  | _, _ => false

/-- Whether two lists of values have equal items. -/
def equalItemsWith (sameList : Nat -> Nat -> Bool) : List Value -> List Value -> Bool
  | [], [] => true
  | left :: lefts, right :: rights =>
    left.equalWith sameList right && equalItemsWith sameList lefts rights
  | _, _ => false

end

/-- Whether two lists are the same or have equal items, looking through lists down to `depth`
inside them. -/
def equalListsTo (m : Machine) : (depth : Nat) -> (left right : Nat) -> Bool
  | 0, left, right => left == right
  | depth + 1, left, right =>
    left == right ||
      ((m.items left).size == (m.items right).size &&
        equalItemsWith (equalListsTo m depth) (m.items left).toList (m.items right).toList)

/-- Whether two values are equal. The lists on the way down are pairs of different ones, so their
number bounds the way. -/
def Machine.equal (m : Machine) (left right : Value) : Bool :=
  left.equalWith (equalListsTo m (m.lists.size * m.lists.size)) right

end Trampoline
