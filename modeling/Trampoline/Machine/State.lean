import Trampoline.Machine.Value

/-!
# The machine

The state that evaluation changes: globals, cells, lists, promises, jump records, caches, the
extents of captured continuations, the escape points that are running, the output and the trace.
Everything in it is only ever added to or updated in place, so a reference once given out stays
good. A new machine knows the natives and the identity continuation.
-/

namespace Trampoline

/-- What a promise computes. -/
inductive Thunk where
  /-- An expression of a lazy body, in the scope where it was delayed. -/
  | expr (e : Expr) (env : Env)
  /-- A global, called without arguments if it is a function. -/
  | global (name : String)
  deriving Inhabited

/-- The states of a promise. -/
inductive Promise where
  | pending (thunk : Thunk)
  /-- The thunk is running: forcing again would never end. -/
  | forcing
  | forced (value : Value)
  deriving Inhabited

/-- A call to be made by a trampoline. -/
structure Jump where
  target : Callable
  args : List Value
  kwargs : Kwargs
  /-- Where the result goes, inside `continuations` blocks. -/
  cc : Option Value
  deriving Inhabited

/-- A jump until a trampoline takes it, which happens once at most. -/
inductive JumpRecord where
  | pending (jump : Jump)
  | consumed
  deriving Inhabited

/-- What evaluation tells about itself. -/
inductive Event where
  | defined (name : String)
  | jumped (target : Callable)
  | forcing
  | captured (function : Nat)
  | escaped (tag : Nat)
  | caught (message : String)
  deriving Inhabited

/-- The text of an event. -/
def Event.message : Event -> String
  | defined name => "defined `" ++ name ++ "`"
  | jumped target => "trampoline: jump to " ++ target.label
  | forcing => "forcing promise"
  | captured function => "captured continuation #" ++ toString function
  | escaped tag => "escaped to call-ec point #" ++ toString tag
  | caught message => "try: caught `" ++ message ++ "`"

/-- One entry of a cache. -/
structure CacheEntry where
  key : List MemoKey
  value : Value
  deriving Inhabited

/-- The state of evaluation. -/
structure Machine where
  globals : List (String × Value)
  cells : Array Value
  lists : Array (Array Value)
  promises : Array Promise
  jumps : Array JumpRecord
  /-- Caches of memoized functions, newest entries first. -/
  caches : Array (List CacheEntry)
  /-- For each extent, whether its continuations can still be resumed. -/
  extents : Array Bool
  /-- The extents of the activations that captured inside the guarded operations that are
  running, newest last. -/
  stack : Array Nat
  /-- For each escape point entered, whether it is still running. -/
  points : Array Bool
  /-- How many closures there are. -/
  closures : Nat
  /-- How many loop handles there are. -/
  handles : Nat
  /-- How many captured continuations there are. -/
  continuations : Nat
  /-- How many identity continuations there are. -/
  identities : Nat
  /-- The errors that handlers let pass. A new machine has none. A run raises an error, handled or
  not, if it ends with that error on a machine whose handlers let it pass. -/
  passed : EvalError -> Bool
  /-- Whether the output takes no more. -/
  closedOutput : Bool
  /-- What was printed. -/
  output : String
  /-- What was told, last event first. -/
  trace : List Event
  deriving Inhabited

/-- The scope of a running body. -/
structure Frame where
  env : Env
  /-- Whether arguments and bindings are delayed. -/
  isLazy : Bool
  /-- The extent of the continuations captured here, from the first of them on. -/
  extent : Option Nat
  deriving Inhabited

/-- The scope of a toplevel form. -/
def Frame.toplevel : Frame := ⟨[], false, none⟩

namespace Machine

/-- What programs find defined. -/
def builtins : List (String × Value) :=
  Native.all.map (fun op => (op.name, .func (.native op))) ++
    [("identity", .func (.identity 0))]

/-- A new machine. -/
def start (closedOutput : Bool) : Machine :=
  { globals := builtins
    cells := #[]
    lists := #[]
    promises := #[]
    jumps := #[]
    caches := #[]
    extents := #[]
    stack := #[]
    points := #[]
    closures := 0
    handles := 0
    continuations := 0
    identities := 1
    passed := fun _ => false
    closedOutput := closedOutput
    output := ""
    trace := [] }

/-- The value of a global. -/
def global? (m : Machine) (name : String) : Option Value :=
  m.globals.lookup name

/-- Give a name a value among the globals, in place of the one it has. -/
def setGlobal (name : String) (value : Value) : List (String × Value) -> List (String × Value)
  | [] => [(name, value)]
  | (other, old) :: rest =>
    if other = name then (name, value) :: rest else (other, old) :: setGlobal name value rest

/-- Bind or rebind a global. -/
def define (m : Machine) (name : String) (value : Value) : Machine :=
  { m with globals := setGlobal name value m.globals }

/-- The content of a cell. -/
def cell (m : Machine) (ref : CellRef) : Value :=
  m.cells.getD ref .nil

/-- The items of a list. -/
def items (m : Machine) (ref : Nat) : Array Value :=
  m.lists.getD ref #[]

/-- The state of a promise. -/
def promise (m : Machine) (ref : Nat) : Promise :=
  m.promises.getD ref .forcing

/-- The state of a jump record. -/
def jump (m : Machine) (ref : Nat) : JumpRecord :=
  m.jumps.getD ref .consumed

/-- Whether the promise has its value. -/
def isForced (m : Machine) (ref : Nat) : Bool :=
  match m.promise ref with
  | .forced _ => true
  | _ => false

/-- Whether the jump was taken by a trampoline. -/
def isConsumed (m : Machine) (ref : Nat) : Bool :=
  match m.jump ref with
  | .consumed => true
  | .pending _ => false

/-- The jumps that no trampoline took. -/
def abandoned (m : Machine) : List Jump :=
  m.jumps.toList.filterMap fun record =>
    match record with
    | .pending jump => some jump
    | .consumed => none

/-- Clear the extents from `mark` on in the stack. -/
def invalidateFrom (mark : Nat) (m : Machine) : Machine :=
  { m with extents := (m.stack.toList.drop mark).foldl (fun extents ref =>
      extents.setIfInBounds ref false) m.extents }

/-- Drop the extents from `mark` on from the stack; their continuations stay as they are. -/
def unwindTo (mark : Nat) (m : Machine) : Machine :=
  { m with stack := m.stack.shrink mark }

end Machine

/-- How an abandoned jump is reported. -/
def Jump.warning (jump : Jump) : String :=
  "jump to " ++ jump.target.label ++ " was never run by a trampoline"

/-- A computation over states of one kind. It answers nothing when its fuel runs out; else it
ends with a value or an error, and in either case with a state. -/
def Exec (σ α : Type) : Type := σ -> Option (Except EvalError α × σ)

namespace Exec

variable {σ α β : Type}

/-- End with a value. -/
@[always_inline, inline]
protected def pure (value : α) : Exec σ α := fun s => some (.ok value, s)

/-- Go on with the value of a computation, unless it fails. -/
@[always_inline, inline]
protected def bind (first : Exec σ α) (next : α -> Exec σ β) : Exec σ β := fun s =>
  match first s with
  | none => none
  | some (.error error, s) => some (.error error, s)
  | some (.ok value, s) => next value s

@[always_inline]
instance : Monad (Exec σ) where
  pure := Exec.pure
  bind := Exec.bind

/-- End with an error. -/
@[always_inline, inline]
def fail (error : EvalError) : Exec σ α := fun s => some (.error error, s)

/-- Give up for lack of fuel. -/
@[always_inline, inline]
def outOfFuel : Exec σ α := fun _ => none

/-- Read from the state. -/
@[always_inline, inline]
def read (view : σ -> α) : Exec σ α := fun s => some (.ok (view s), s)

/-- Change the state. -/
@[always_inline, inline]
def modify (change : σ -> σ) : Exec σ Unit := fun s => some (.ok (), change s)

end Exec

/-- A computation on the machine. -/
abbrev Run (α : Type) := Exec Machine α

/-- A running body: its frame and the machine. -/
structure Activation where
  frame : Frame
  machine : Machine
  deriving Inhabited

/-- A computation of a running body. -/
abbrev Body (α : Type) := Exec Activation α

namespace Run

variable {α : Type}

/-- A computation on the machine as a part of a running body. -/
@[always_inline, inline]
def within (run : Run α) : Body α := fun activation =>
  match activation with
  | ⟨frame, machine⟩ =>
    match run machine with
    | none => none
    | some (result, machine) => some (result, ⟨frame, machine⟩)

/-- Tell something. -/
def tell (event : Event) : Run Unit :=
  Exec.modify fun m => { m with trace := event :: m.trace }

/-- A new cell. -/
def newCell (value : Value) : Run CellRef := fun m =>
  some (.ok m.cells.size, { m with cells := m.cells.push value })

/-- Change the content of a cell. -/
def setCell (ref : CellRef) (value : Value) : Run Unit :=
  Exec.modify fun m => { m with cells := m.cells.setIfInBounds ref value }

/-- A new list. -/
def newList (items : List Value) : Run Value := fun m =>
  some (.ok (.list m.lists.size), { m with lists := m.lists.push items.toArray })

/-- Replace the items of a list. -/
def setItems (ref : Nat) (items : List Value) : Run Unit :=
  Exec.modify fun m => { m with lists := m.lists.setIfInBounds ref items.toArray }

/-- Add an item at the end of a list. -/
def pushItem (ref : Nat) (value : Value) : Run Unit :=
  Exec.modify fun m => { m with lists := m.lists.modify ref fun items => items.push value }

/-- A new promise. -/
def newPromise (thunk : Thunk) : Run Value := fun m =>
  some (.ok (.promise m.promises.size), { m with promises := m.promises.push (.pending thunk) })

/-- Change the state of a promise. -/
def setPromise (ref : Nat) (state : Promise) : Run Unit :=
  Exec.modify fun m => { m with promises := m.promises.setIfInBounds ref state }

/-- A new jump record. -/
def newJump (jump : Jump) : Run Value := fun m =>
  some (.ok (.jump m.jumps.size), { m with jumps := m.jumps.push (.pending jump) })

/-- Take the jump of a record. -/
def takeJump (ref : Nat) : Run Jump := fun m =>
  match m.jump ref with
  | .consumed => some (.error .jumpConsumed, m)
  | .pending jump => some (.ok jump, { m with jumps := m.jumps.setIfInBounds ref .consumed })

/-- A new empty cache. -/
def newCache : Run Nat := fun m =>
  some (.ok m.caches.size, { m with caches := m.caches.push [] })

/-- The cached value of a key. -/
def cached? (cache : Nat) (key : List MemoKey) : Run (Option Value) :=
  Exec.read fun m =>
    ((m.caches.getD cache []).find? fun entry => sameKeys entry.key key).map CacheEntry.value

/-- Remember the value of a key. -/
def remember (cache : Nat) (key : List MemoKey) (value : Value) : Run Unit :=
  Exec.modify fun m => { m with caches := m.caches.modify cache fun entries =>
    ⟨key, value⟩ :: entries }

/-- Whether the continuations of an extent can be resumed. -/
def extentValid (ref : Nat) : Run Bool :=
  Exec.read fun m => m.extents.getD ref false

/-- Enter a new escape point. -/
def enterPoint : Run Nat := fun m =>
  some (.ok m.points.size, { m with points := m.points.push true })

/-- Leave an escape point. -/
def leavePoint (tag : Nat) (m : Machine) : Machine :=
  { m with points := m.points.setIfInBounds tag false }

/-- Whether an escape point is running. -/
def pointRunning (tag : Nat) : Run Bool :=
  Exec.read fun m => m.points.getD tag false

/-- A number for a new closure. -/
def newClosure : Run Nat := fun m => some (.ok m.closures, { m with closures := m.closures + 1 })

/-- A number for a new loop handle. -/
def newHandle : Run Nat := fun m => some (.ok m.handles, { m with handles := m.handles + 1 })

/-- A number for a newly captured continuation. -/
def newContinuation : Run Nat := fun m =>
  some (.ok m.continuations, { m with continuations := m.continuations + 1 })

/-- A new identity continuation. -/
def newIdentity : Run Callable := fun m =>
  some (.ok (.identity m.identities), { m with identities := m.identities + 1 })

/-- Print a text. -/
def write (text : String) : Run Unit := fun m =>
  if m.closedOutput then some (.error (.output "closed"), m)
  else some (.ok (), { m with output := m.output ++ text })

/-- Run a guarded operation: if it fails, the continuations captured by the activations that it
entered become invalid. An escape is no failure. -/
@[always_inline, inline]
def guarded (run : Run α) : Run α := fun m =>
  let mark := m.stack.size
  match run m with
  | none => none
  | some (.ok value, m) => some (.ok value, m.unwindTo mark)
  | some (.error error, m) =>
    if error.isEscape then some (.error error, m.unwindTo mark)
    else some (.error error, (m.invalidateFrom mark).unwindTo mark)

end Run

namespace Body

variable {α : Type}

/-- The frame of the body. -/
def frame : Body Frame := Exec.read Activation.frame

/-- Whether the body evaluates by need. -/
def isLazy : Body Bool := Exec.read fun activation => activation.frame.isLazy

/-- Make a name stand for a cell from here on. -/
def bindName (name : String) (ref : CellRef) : Body Unit :=
  Exec.modify fun activation =>
    match activation with
    | ⟨frame, machine⟩ => ⟨{ frame with env := (name, ref) :: frame.env }, machine⟩

/-- The value of a name: that of its cell in the scope, else that of the global. -/
def lookup (name : String) : Body Value := fun activation =>
  match activation.frame.env.lookup name with
  | some ref => some (.ok (activation.machine.cell ref), activation)
  | none =>
    match activation.machine.global? name with
    | some value => some (.ok value, activation)
    | none => some (.error (.unbound name), activation)

/-- Change what a name stands for: the content of its cell in the scope, else the global. -/
def assign (name : String) (value : Value) : Body Unit := fun activation =>
  match activation with
  | ⟨frame, machine⟩ =>
    match frame.env.lookup name with
    | some ref =>
      some (.ok (), ⟨frame, { machine with cells := machine.cells.setIfInBounds ref value }⟩)
    | none =>
      match machine.global? name with
      | some _ => some (.ok (), ⟨frame, machine.define name value⟩)
      | none => some (.error (.unbound name), ⟨frame, machine⟩)

/-- Run a block: the names bound in it are forgotten at its end, however it ends. -/
@[always_inline, inline]
def inBlock (body : Body α) : Body α := fun activation =>
  let env := activation.frame.env
  match body activation with
  | none => none
  | some (result, ⟨frame, machine⟩) => some (result, ⟨{ frame with env := env }, machine⟩)

/-- The extent of the continuations that the body captures, made on the first capture. -/
def captureExtent : Body Nat := fun activation =>
  match activation with
  | ⟨frame, machine⟩ =>
    match frame.extent with
    | some ref => some (.ok ref, ⟨frame, machine⟩)
    | none =>
      let ref := machine.extents.size
      some (.ok ref, ⟨{ frame with extent := some ref },
        { machine with extents := machine.extents.push true, stack := machine.stack.push ref }⟩)

/-- Run a body in a frame of its own. -/
@[always_inline, inline]
def run (body : Body α) (frame : Frame) : Run α := fun machine =>
  match body ⟨frame, machine⟩ with
  | none => none
  | some (result, activation) => some (result, activation.machine)

end Body

end Trampoline
