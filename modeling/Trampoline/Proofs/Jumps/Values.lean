import Trampoline.Proofs.Jumps.Rewriting
import Trampoline.Proofs.Evaluation.Contracts
import Trampoline.Proofs.Evaluation.Storage

/-!
# Values without jumps

A jump is only ever the value that is being returned. No other value holds one, and no function that
a value holds returns one to its caller: all that is stored anywhere is without jumps.
-/

namespace Trampoline

/-- The bodies that the callable runs stand by the rules, and what it returns may be a jump only if
`jumps`. -/
def Callable.Obeys (jumps : Bool) : Callable -> Prop
  | closure _ function _ => function.body.Obeys .dressed jumps
  | continuation _ function _ _ _ => function.body.Obeys .dressed jumps
  | native _ | escape _ | identity _ => True
  | trampolined inner _ | memoized inner _ => inner.Obeys true
  | looped _ | loopHandle .. => False
  | escapePoint inner | contEnabled inner | lazyFn inner => inner.Obeys jumps

namespace Callable

variable {callable : Callable} {jumps jumps' : Bool}

/-- A callable that obeys where jumps are forbidden obeys where they are allowed. -/
theorem Obeys.loosen (implies : jumps = true -> jumps' = true) (obeys : callable.Obeys jumps) :
    callable.Obeys jumps' := by
  induction callable with
  | closure | continuation => exact Expr.Obeys.loosen implies obeys
  | escapePoint inner ih | contEnabled inner ih | lazyFn inner ih => exact ih obeys
  | looped | loopHandle => exact obeys.elim
  | _ => exact obeys

/-- Every callable that obeys may be run by a trampoline. -/
theorem Obeys.may (obeys : callable.Obeys jumps) : callable.Obeys true := obeys.loosen fun _ => rfl

theorem Obeys.underTrampoline (obeys : callable.Obeys false) :
    callable.underTrampoline.Obeys true := by
  cases callable with
  | trampolined inner variant => exact obeys
  | _ => exact obeys.may

end Callable

mutual

/-- The value neither is a jump nor holds one, nor a function that returns one. -/
def Value.Jumpless : Value -> Prop
  | .func callable => callable.Obeys false
  | .tuple items => AllJumpless items
  | .jump _ => False
  | .nil | .bool _ | .int _ | .str _ | .list _ | .promise _ => True

/-- None of the values has to do with jumps. -/
def AllJumpless : List Value -> Prop
  | [] => True
  | value :: rest => value.Jumpless ∧ AllJumpless rest

end

/-- Values are without jumps if each of them is. -/
theorem allJumpless_iff {values : List Value} :
    AllJumpless values ↔ ∀ value ∈ values, value.Jumpless := by
  induction values with
  | nil => simp [AllJumpless]
  | cons value rest ih => simp [AllJumpless, ih]

/-- Keyword arguments without jumps. -/
def NamedJumpless (kwargs : Kwargs) : Prop := ∀ kwarg ∈ kwargs, kwarg.2.Jumpless

namespace Value

/-- A literal's value is no jump and holds none. -/
theorem jumpless_ofLiteral (value : Literal) : (ofLiteral value).Jumpless := by
  cases value <;> trivial

variable {values : List Value}

theorem Jumpless.pack (jumpless : AllJumpless values) : (pack values).Jumpless := by
  rcases values with _ | ⟨value, _ | ⟨second, rest⟩⟩
  · trivial
  · exact jumpless.1
  · exact jumpless

theorem Jumpless.one (jumpless : AllJumpless values) : (Native.one values).Jumpless := by
  cases values with
  | nil => trivial
  | cons value rest => exact jumpless.1

theorem Jumpless.two (jumpless : AllJumpless values) :
    (Native.two values).1.Jumpless ∧ (Native.two values).2.Jumpless := by
  rcases values with _ | ⟨value, _ | ⟨second, rest⟩⟩
  · exact ⟨trivial, trivial⟩
  · exact ⟨jumpless.1, trivial⟩
  · exact ⟨jumpless.1, jumpless.2.1⟩

end Value

theorem NamedJumpless.replaceCc {kwargs : Kwargs} (jumpless : NamedJumpless kwargs) {cc : Value}
    (ofCc : cc.Jumpless) : NamedJumpless (replaceCc kwargs cc) := by
  intro kwarg member
  rcases List.mem_append.mp member with kept | new
  · exact jumpless kwarg (List.mem_filter.mp kept |>.1)
  · obtain rfl := List.mem_singleton.mp new
    exact ofCc

/-- The thunk computes no jump. -/
def Thunk.Jumpless : Thunk -> Prop
  | .expr e _ => e.Obeys .dressed false
  | .global _ => True

/-- The promise neither holds nor computes a jump. -/
def Promise.Jumpless : Promise -> Prop
  | .pending thunk => thunk.Jumpless
  | .forcing => True
  | .forced value => value.Jumpless

/-- The jump goes to a callable that returns none, with values that have to do with none. -/
structure Jump.Jumpless (jump : Jump) : Prop where
  target : jump.target.Obeys false
  args : AllJumpless jump.args
  kwargs : NamedJumpless jump.kwargs
  cc : ∀ cc ∈ jump.cc, cc.Jumpless

/-- The error is not that of a jump that was taken before, and takes no jump along. -/
def EvalError.Jumpless : EvalError -> Prop
  | .escape _ value => value.Jumpless
  | .jumpConsumed => False
  | _ => True

/-- Nothing that the machine stores has to do with jumps, the records of jumps apart. -/
structure Machine.Clean (m : Machine) : Prop where
  globals : ∀ named ∈ m.globals, named.2.Jumpless
  cells : ∀ value ∈ m.cells, value.Jumpless
  lists : ∀ items ∈ m.lists, AllJumpless items.toList
  promises : ∀ promise ∈ m.promises, promise.Jumpless
  jumps : ∀ jump, .pending jump ∈ m.jumps -> jump.Jumpless
  caches : ∀ entries ∈ m.caches, ∀ entry ∈ entries, entry.value.Jumpless

/-- The machine is clean, and a record waits only if it is our own. -/
structure Machine.Owes (m : Machine) (own : Option Nat) : Prop where
  clean : m.Clean
  waits : ∀ ref, (∃ jump, m.jump ref = .pending jump) ↔ own = some ref

/-- Nothing to do with jumps is stored. -/
@[reducible]
def Storage.jumpless : Storage where
  value value _ := value.Jumpless
  content value _ := value.Jumpless
  promise promise _ := promise.Jumpless
  jump jump _ := jump.Jumpless

namespace Machine.Clean

variable {m : Machine} (clean : m.Clean)
include clean

/-- A machine whose stores are without jumps keeps the storage that forbids them. -/
theorem keeps : m.Keeps .jumpless where
  globals := clean.globals
  cells := clean.cells
  lists items member item inside :=
    allJumpless_iff.mp (clean.lists items member) item (Array.mem_toList_iff.mpr inside)
  promises := clean.promises
  jumps := clean.jumps
  caches := clean.caches

/-- What a cell holds is without jumps. -/
theorem cell (ref : CellRef) : (m.cell ref).Jumpless := clean.keeps.cell trivial ref

/-- What a list holds is without jumps. -/
theorem items (ref : Nat) : AllJumpless (m.items ref).toList :=
  allJumpless_iff.mpr (clean.keeps.items ref)

/-- What a promise has settled to is without jumps. -/
theorem promise (ref : Nat) : (m.promise ref).Jumpless := clean.keeps.promise trivial ref

end Machine.Clean

end Trampoline
