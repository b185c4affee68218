import Trampoline.Transform.Program
import Trampoline.Machine.Value

/-!
# Expressions and what they are rewritten to

Relations between the expressions of a program and those that the transformation puts in their
place. A function is kept, or its tail calls are deferred, or its returns are passed to a
continuation. The relations say what stands where and leave out marks and the numbers of new
functions, so they hold for every way of numbering.
-/

namespace Trampoline

/-- What a comparison of a program with its rewritten form takes into account. -/
structure Rewriting where
  /-- Some functions take a continuation. The name of its parameter is then nowhere else. -/
  passing : Bool
  /-- Functions that take a continuation hand over every return. The identity continuation, which
  would drop the one of its caller, is then nowhere named. -/
  total : Bool
  /-- Functions have their wrappers. Else they have none so far. -/
  dressed : Bool
  /-- The errors of the source program after which nothing is claimed. -/
  lost : EvalError -> Bool
  /-- A parameter more makes other calls fail. -/
  lost_arity : passing = true -> ∀ func expected found, lost (.arity func expected found) = true

namespace Rewriting

/-- Whether a program may use a name. -/
def Sees (mode : Rewriting) (name : String) : Prop :=
  (mode.passing = true -> name ≠ continuationParam) ∧ (mode.total = true -> name ≠ "identity")

/-- Whether a program may use a keyword. -/
def Names (mode : Rewriting) (keyword : String) : Prop :=
  mode.passing = true -> keyword ≠ continuationParam

end Rewriting

/-- What becomes of a function. -/
inductive Treatment where
  /-- Its body stays. -/
  | kept
  /-- Its returned calls become jumps. -/
  | deferring
  /-- Its returns go to a continuation. -/
  | passing
  deriving DecidableEq

namespace Treatment

/-- The wrappers that go with a treatment. -/
def wrappers : Treatment -> List Decorator
  | kept => []
  | deferring => [.trampolined]
  | passing => [.trampolined, .continuations]

/-- A callable in these wrappers. -/
def dress : Treatment -> Callable -> Callable
  | kept, callable => callable
  | deferring, callable => .trampolined callable .strict
  | passing, callable => .trampolined (.contEnabled callable) .strict

/-- The parameters of a function that had these. -/
def params : Treatment -> List String -> List String
  | kept, names => names
  | deferring, names => names
  | passing, names => names ++ [continuationParam]

end Treatment

/-- The signature of a function, and that of the function in its place. -/
structure SignatureRel (mode : Rewriting) (how : Treatment) (source target : Signature) : Prop where
  id : target.id = source.id
  name : target.name = source.name
  params : target.params = how.params source.params
  seen : ∀ param ∈ source.params, mode.Sees param
  passing : how = .passing -> mode.passing = true
  bare : source.wrappers = []
  wrappers : mode.dressed = true -> target.wrappers = how.wrappers
  /-- Without wrappers so far, a function will get those that go with its treatment. -/
  pending : mode.dressed = false -> target.decorators = [] ∧ target.wrappers = [] ∧
    Transform.impliedWrappers target = how.wrappers
  plain : source.kind = .plain ∧ target.kind = .plain
  strict : source.regions.lazy = false ∧ target.regions.lazy = false

/-- The signature of a continuation of one variable. -/
structure ContinuationSignature (name : String) (target : Signature) : Prop where
  params : target.params = [name]
  decorators : target.decorators = []
  kind : target.kind = .continuation
  strict : target.regions.lazy = false

/-- Whether a function may end without handing over its value. -/
def Rewriting.MayReturn (mode : Rewriting) (how : Treatment) : Prop :=
  how = .passing -> mode.total = false

/-- Only functions that pass their returns have to hand over. -/
theorem Rewriting.mayReturn_of_ne (mode : Rewriting) {how : Treatment} (other : how ≠ .passing) :
    mode.MayReturn how :=
  fun equal => absurd equal other

mutual

/-- An expression that is evaluated for its value. -/
inductive ExprRel (mode : Rewriting) : Expr -> Expr -> Prop where
  | lit {mark mark' value} : ExprRel mode (.lit mark value) (.lit mark' value)
  | var {mark mark' name} : mode.Sees name -> ExprRel mode (.var mark name) (.var mark' name)
  | fn {mark mark' how source target body body'} :
      SignatureRel mode how source target -> BodyRel mode how body body' ->
      ExprRel mode (.fn mark source body) (.fn mark' target body')
  | call {mark mark' func func' args args' kwargs kwargs'} : ExprRel mode func func' ->
      ExprsRel mode args args' -> NamedRel mode kwargs kwargs' ->
      ExprRel mode (.call mark func args kwargs) (.call mark' func' args' kwargs')
  | condNone {mark mark' arms arms'} : ArmsRel mode arms arms' ->
      ExprRel mode (.cond mark arms none) (.cond mark' arms' none)
  | condSome {mark mark' arms arms' alt alt'} : ArmsRel mode arms arms' -> ExprRel mode alt alt' ->
      ExprRel mode (.cond mark arms (some alt)) (.cond mark' arms' (some alt'))
  | short {mark mark' op es es'} : ExprsRel mode es es' ->
      ExprRel mode (.short mark op es) (.short mark' op es')
  | seq {mark mark' es es'} : ExprsRel mode es es' ->
      ExprRel mode (.seq mark es) (.seq mark' es')
  | bind {mark mark' name e e'} : mode.Sees name -> ExprRel mode e e' ->
      ExprRel mode (.bind mark name e) (.bind mark' name e')
  | assign {mark mark' name e e'} : mode.Sees name -> ExprRel mode e e' ->
      ExprRel mode (.assign mark name e) (.assign mark' name e')
  | loop {mark mark' test test' body body'} : ExprRel mode test test' ->
      ExprRel mode body body' -> ExprRel mode (.loop mark test body) (.loop mark' test' body')

/-- Expressions that are evaluated one after another. -/
inductive ExprsRel (mode : Rewriting) : List Expr -> List Expr -> Prop where
  | nil : ExprsRel mode [] []
  | cons {e e' rest rest'} : ExprRel mode e e' -> ExprsRel mode rest rest' ->
      ExprsRel mode (e :: rest) (e' :: rest')

/-- Keyword arguments. -/
inductive NamedRel (mode : Rewriting) :
    List (String × Expr) -> List (String × Expr) -> Prop where
  | nil : NamedRel mode [] []
  | cons {name e e' rest rest'} : mode.Names name -> ExprRel mode e e' ->
      NamedRel mode rest rest' ->
      NamedRel mode ((name, e) :: rest) ((name, e') :: rest')

/-- The arms of a conditional. -/
inductive ArmsRel (mode : Rewriting) : List (Expr × Expr) -> List (Expr × Expr) -> Prop where
  | nil : ArmsRel mode [] []
  | cons {test test' body body' rest rest'} : ExprRel mode test test' -> ExprRel mode body body' ->
      ArmsRel mode rest rest' -> ArmsRel mode ((test, body) :: rest) ((test', body') :: rest')

/-- The body of a function. -/
inductive BodyRel (mode : Rewriting) : Treatment -> Expr -> Expr -> Prop where
  | kept {body body'} : ExprRel mode body body' -> BodyRel mode .kept body body'
  | deferring {body body'} : TailRel mode .deferring body body' ->
      BodyRel mode .deferring body body'
  | passing {mark mark' items items'} : CutRel mode items items' ->
      BodyRel mode .passing (.seq mark items) (.seq mark' items')

/-- An expression whose value is the value of the body. -/
inductive TailRel (mode : Rewriting) : Treatment -> Expr -> Expr -> Prop where
  | keep {how e e'} : mode.MayReturn how -> ExprRel mode e e' -> TailRel mode how e e'
  | defer {mark mark' func func' args args' kwargs kwargs'} : ExprRel mode func func' ->
      ExprsRel mode args args' -> NamedRel mode kwargs kwargs' ->
      TailRel mode .deferring (.call mark func args kwargs) (.jump mark' func' args' kwargs' none)
  | pass {mark mark' ccMark func func' args args' kwargs kwargs'} : ExprRel mode func func' ->
      ExprsRel mode args args' -> NamedRel mode kwargs kwargs' ->
      TailRel mode .passing (.call mark func args kwargs)
        (.jump mark' func' args' kwargs' (some (.var ccMark continuationParam)))
  | handOver {mark ccMark e e'} : ExprRel mode e e' ->
      TailRel mode .passing e (.jump mark (.var ccMark continuationParam) [e'] [] none)
  | handOverNil {mark mark' jumpMark ccMark litMark} :
      TailRel mode .passing (.seq mark [])
        (.seq mark' [.jump jumpMark (.var ccMark continuationParam) [.lit litMark .nil] [] none])
  | condNone {how mark mark' arms arms'} : mode.MayReturn how -> TailArmsRel mode how arms arms' ->
      TailRel mode how (.cond mark arms none) (.cond mark' arms' none)
  | condSome {how mark mark' arms arms' alt alt'} : TailArmsRel mode how arms arms' ->
      TailRel mode how alt alt' ->
      TailRel mode how (.cond mark arms (some alt)) (.cond mark' arms' (some alt'))
  | short {how mark mark' op es es'} : mode.MayReturn how ∨ es.length = 1 ->
      LastRel mode how es es' -> TailRel mode how (.short mark op es) (.short mark' op es')
  | seq {how mark mark' es es'} : LastRel mode how es es' ->
      TailRel mode how (.seq mark es) (.seq mark' es')

/-- Expressions of which the last gives the value of the body. -/
inductive LastRel (mode : Rewriting) : Treatment -> List Expr -> List Expr -> Prop where
  | one {how e e'} : TailRel mode how e e' -> LastRel mode how [e] [e']
  | cons {how e e' rest rest'} : ExprRel mode e e' -> LastRel mode how rest rest' ->
      LastRel mode how (e :: rest) (e' :: rest')

/-- Arms of which one gives the value of the body. -/
inductive TailArmsRel (mode : Rewriting) :
    Treatment -> List (Expr × Expr) -> List (Expr × Expr) -> Prop where
  | nil {how} : TailArmsRel mode how [] []
  | cons {how test test' body body' rest rest'} : ExprRel mode test test' ->
      TailRel mode how body body' -> TailArmsRel mode how rest rest' ->
      TailArmsRel mode how ((test, body) :: rest) ((test', body') :: rest')

/-- The items of a body, and those up to the first capture: the rest is in the continuation. -/
inductive CutRel (mode : Rewriting) : List Expr -> List Expr -> Prop where
  | nil {jumpMark ccMark litMark} :
      CutRel mode [] [.jump jumpMark (.var ccMark continuationParam) [.lit litMark .nil] [] none]
  | one {e e'} : TailRel mode .passing e e' -> CutRel mode [e] [e']
  | cons {e e' rest rest'} : ExprRel mode e e' -> rest ≠ [] -> CutRel mode rest rest' ->
      CutRel mode (e :: rest) (e' :: rest')
  | capture {mark callMark mark' fnMark seqMark name target func func' args args' kwargs kwargs'
        rest rest'} : mode.total = true -> mode.Sees name -> ContinuationSignature name target ->
      ExprRel mode func func' -> ExprsRel mode args args' -> NamedRel mode kwargs kwargs' ->
      CutRel mode rest rest' ->
      CutRel mode (.bind mark name (.call callMark func args kwargs) :: rest)
        [.jump mark' func' args' kwargs' (some (.fn fnMark target (.seq seqMark rest')))]

end

/-- A function, and the function in its place. -/
structure FunctionRel (mode : Rewriting) (how : Treatment) (source target : Function) : Prop where
  signature : SignatureRel mode how source.signature target.signature
  body : BodyRel mode how source.body target.body

end Trampoline
