import Trampoline.Decorator
import Trampoline.Text.Span

/-!
# Programs

Expressions are trees. Every expression carries a mark: a number that no other expression of its
program has, and the span it was read from or stands for. A function expression holds the
function itself, so a program is no more than its toplevel forms.
-/

namespace Trampoline

/-- The number and the place of an expression. -/
structure Mark where
  id : Nat
  span : Span
  deriving DecidableEq, Repr, Inhabited

/-- Constants of the language. -/
inductive Literal where
  | nil
  | bool (value : Bool)
  | int (value : Int64)
  | str (value : String)
  deriving DecidableEq, Repr, Inhabited

/-- The two connectives that may stop early. -/
inductive Connective where
  | and
  | or
  deriving DecidableEq, Repr, Inhabited

/-- The word that a connective is written with. -/
def Connective.word : Connective -> String
  | and => "and"
  | or => "or"

/-- The blocks that a function was defined in. -/
structure Regions where
  /-- Calls in tail position become jumps. -/
  tco : Bool
  /-- Functions take a continuation and can capture theirs. -/
  cont : Bool
  /-- Bodies evaluate by need. -/
  lazy : Bool
  deriving DecidableEq, Repr, Inhabited

/-- Outside all blocks. -/
def Regions.none : Regions := ⟨false, false, false⟩

/-- Where a function comes from. -/
inductive FunctionKind where
  /-- Written in the source. -/
  | plain
  /-- The rest of a body after a capture. -/
  | continuation
  deriving DecidableEq, Repr, Inhabited

/-- The word that a function is written with. -/
def FunctionKind.word : FunctionKind -> String
  | plain => "fn"
  | continuation => "cont"

/-- All of a function but its body. -/
structure Signature where
  /-- The number of the function, in the order in which functions are finished. -/
  id : Nat
  name : Option String
  params : List String
  /-- Decorators as written, with their places. -/
  decorators : List (String × Span)
  regions : Regions
  kind : FunctionKind
  /-- The wrappers that the transformation resolved, outermost first. -/
  wrappers : List Decorator
  deriving DecidableEq, Repr, Inhabited

/-- Whether the body evaluates by need. -/
def Signature.isLazy (signature : Signature) : Bool :=
  signature.regions.lazy || signature.wrappers.contains .lazy

/-- Expressions. -/
inductive Expr where
  | lit (mark : Mark) (value : Literal)
  | var (mark : Mark) (name : String)
  | fn (mark : Mark) (signature : Signature) (body : Expr)
  | call (mark : Mark) (func : Expr) (args : List Expr) (kwargs : List (String × Expr))
  /-- The first arm whose test holds, else the alternative, else nil. -/
  | cond (mark : Mark) (arms : List (Expr × Expr)) (alt : Option Expr)
  | short (mark : Mark) (op : Connective) (operands : List Expr)
  | seq (mark : Mark) (items : List Expr)
  | bind (mark : Mark) (name : String) (bindee : Expr)
  | assign (mark : Mark) (name : String) (bindee : Expr)
  | loop (mark : Mark) (test body : Expr)
  /-- A call that is handed to the running trampoline instead of being made. -/
  | jump (mark : Mark) (func : Expr) (args : List Expr) (kwargs : List (String × Expr))
      (cc : Option Expr)
  | capture (mark : Mark) (binders : List String) (call : Expr)
  deriving Inhabited

namespace Expr

/-- The mark of an expression. -/
def mark : Expr -> Mark
  | lit mark _ | var mark _ | fn mark _ _ | call mark _ _ _ | cond mark _ _ | short mark _ _
  | seq mark _ | bind mark _ _ | assign mark _ _ | loop mark _ _ | jump mark _ _ _ _
  | capture mark _ _ => mark

/-- The number of an expression. -/
def id (e : Expr) : Nat := e.mark.id

/-- The place of an expression. -/
def span (e : Expr) : Span := e.mark.span

/-- The same expression under another mark. -/
def withMark (mark : Mark) : Expr -> Expr
  | lit _ value => lit mark value
  | var _ name => var mark name
  | fn _ signature body => fn mark signature body
  | call _ func args kwargs => call mark func args kwargs
  | cond _ arms alt => cond mark arms alt
  | short _ op operands => short mark op operands
  | seq _ items => seq mark items
  | bind _ name bindee => bind mark name bindee
  | assign _ name bindee => assign mark name bindee
  | loop _ test body => loop mark test body
  | jump _ func args kwargs cc => jump mark func args kwargs cc
  | capture _ binders e => capture mark binders e

/-- Atoms evaluate at once and without effect. -/
def isAtom : Expr -> Bool
  | lit .. | var .. | fn .. => true
  | _ => false

/-- The expressions evaluated as part of this one. The body of a function is none of them. -/
def children : Expr -> List Expr
  | lit .. | var .. | fn .. => []
  | call _ func args kwargs => func :: args ++ kwargs.map Prod.snd
  | cond _ arms alt => arms.flatMap (fun (test, body) => [test, body]) ++ alt.toList
  | short _ _ operands => operands
  | seq _ items => items
  | bind _ _ bindee => [bindee]
  | assign _ _ bindee => [bindee]
  | loop _ test body => [test, body]
  | jump _ func args kwargs cc => func :: args ++ kwargs.map Prod.snd ++ cc.toList
  | capture _ _ e => [e]

end Expr

/-- A function with its body. -/
structure Function where
  signature : Signature
  body : Expr
  deriving Inhabited

mutual

/-- The functions in an expression, each after those inside it, from left to right. -/
def Expr.functions : Expr -> List Function
  | .lit .. | .var .. => []
  | .fn _ signature body => body.functions ++ [⟨signature, body⟩]
  | .call _ func args kwargs => func.functions ++ functionsOfAll args ++ functionsOfKwargs kwargs
  | .cond _ arms alt =>
    functionsOfArms arms ++
      match alt with
      | none => []
      | some e => e.functions
  | .short _ _ operands => functionsOfAll operands
  | .seq _ items => functionsOfAll items
  | .bind _ _ bindee => bindee.functions
  | .assign _ _ bindee => bindee.functions
  | .loop _ test body => test.functions ++ body.functions
  | .jump _ func args kwargs cc =>
    func.functions ++ functionsOfAll args ++ functionsOfKwargs kwargs ++
      match cc with
      | none => []
      | some e => e.functions
  | .capture _ _ e => e.functions

/-- The functions in several expressions. -/
def functionsOfAll : List Expr -> List Function
  | [] => []
  | e :: rest => e.functions ++ functionsOfAll rest

/-- The functions in keyword arguments. -/
def functionsOfKwargs : List (String × Expr) -> List Function
  | [] => []
  | (_, e) :: rest => e.functions ++ functionsOfKwargs rest

/-- The functions in the arms of a conditional. -/
def functionsOfArms : List (Expr × Expr) -> List Function
  | [] => []
  | (test, body) :: rest => test.functions ++ body.functions ++ functionsOfArms rest

end

/-- The forms that stand at the toplevel of a program. -/
inductive Toplevel where
  | define (name : String) (bindee : Expr)
  /-- A bare expression, run for its effect and value. -/
  | exec (e : Expr)
  deriving Inhabited

/-- The expression that a toplevel form defines or runs. -/
def Toplevel.expr : Toplevel -> Expr
  | define _ bindee => bindee
  | exec e => e

/-- The next free numbers of expressions and functions. -/
structure Counters where
  exprs : Nat
  functions : Nat
  deriving DecidableEq, Repr, Inhabited

/-- A program: its toplevel forms in order, and the numbers that no part of it has. -/
structure Program where
  top : List Toplevel
  counters : Counters
  deriving Inhabited

namespace Program

/-- Put a function in its place by number. -/
def insertById (function : Function) : List Function -> List Function
  | [] => [function]
  | first :: rest =>
    if function.signature.id < first.signature.id then function :: first :: rest
    else first :: insertById function rest

/-- All functions of a program, in the order of their numbers. -/
def functions (program : Program) : List Function :=
  (program.top.flatMap fun top => top.expr.functions).foldr insertById []

end Program

end Trampoline
