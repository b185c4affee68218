import Trampoline.Proofs.Need.Parameters

/-!
# Evaluation on the machine and by name

What it means that tasks of the machine and queries of evaluation by name follow each other, in
either direction: from the undressed program, whose machine evaluates every operand at once, to
answers by name, and from there to the dressed program, whose machine delays what lazy functions
take. Each field of `Simulates` is about one kind of task.

An expression is evaluated part by part, and every part has a turn of its own on the path. What has
been evaluated keeps the turns free that are still to come. Tasks whose end is known are done in
passing, with whatever fuel there is.
-/

namespace Trampoline.ByName

/-! ## Tasks that follow each other -/

section Simulation

open Exec

/-- The machine is as it is read, and what is being forced is blocked. -/
structure Rests (dressed : Bool) (globals : List (String × Val)) (blocked : Entry -> Prop)
    (reading : Reading) (m : Machine) : Prop where
  agrees : Agrees dressed globals reading m
  ready : Ready blocked reading m

/-- Something can be evaluated at the path. -/
structure Opens (dressed : Bool) (globals : List (String × Val)) (blocked : Entry -> Prop)
    (reading : Reading) (m : Machine) (path : Path) : Prop
    extends Rests dressed globals blocked reading m where
  free : Free reading m path

/-- The frame of a body and its scope by name. -/
structure Frames (reading : Reading) (frame : Frame) (scope : Scope) : Prop where
  stands : Stands reading frame.env scope.env
  isLazy : frame.isLazy = scope.isLazy
  settled : scope.isLazy = false -> Settled scope.env

/-- How operands are evaluated: by name what is delayed, and, if there are no wrappers, what is not
delayed because of that. -/
structure Chooses (dressed isLazy : Bool) (policy : Policy) (byName : Bool) : Prop where
  inLazy : byName = true -> isLazy = true
  delayed : policy = .delay -> isLazy = true -> byName = true
  strict : policy = .strict -> dressed = true -> byName = false

section Relations

variable (dressed : Bool) (globals : List (String × Val)) (frame : Frame)

/-- A value and its meaning, in the frame that evaluation began in. -/
def Valued (reading : Reading) (answer : Value × Frame) (val : Val) : Prop :=
  Means dressed reading answer.1 val ∧ answer.2 = frame

/-- The same, where the names of the frame may be others. -/
def ValuedWithin (reading : Reading) (answer : Value × Frame) (val : Val) : Prop :=
  Means dressed reading answer.1 val ∧ ∃ env, answer.2 = { frame with env := env }

/-- A name that was bound to an entry. -/
def Binds (isLazy : Bool) (name : String) (reading : Reading) (answer : Value × Frame)
    (entry : Entry) : Prop :=
  answer.1 = .nil ∧ (isLazy = false -> entry.isThunk = false) ∧
    ∃ ref, answer.2 = { frame with env := (name, ref) :: frame.env } ∧
      reading.cells[ref]? = some entry

/-- An operand and its entry. -/
def Passed (byName : Bool) (reading : Reading) (answer : Value × Frame) (entry : Entry) : Prop :=
  Holds dressed globals reading answer.1 entry ∧ answer.2 = frame ∧
    (byName = false -> ∃ val, entry = .value val)

/-- Several operands and their entries. -/
def AllPassed (byName : Bool) (reading : Reading) (answer : List Value × Frame)
    (entries : List Entry) : Prop :=
  HoldAll dressed globals reading answer.1 entries ∧ answer.2 = frame ∧
    (byName = false -> ∀ entry ∈ entries, ∃ val, entry = .value val)

/-- Keyword arguments and their entries. -/
def NamedPassed (byName : Bool) (reading : Reading) (answer : Kwargs × Frame)
    (named : Bindings) : Prop :=
  HoldNamed dressed globals reading answer.1 named ∧ answer.2 = frame ∧
    (byName = false -> ∀ bound ∈ named, ∃ val, bound.2 = .value val)

end Relations

/-- No expression in a list binds a name. -/
def NoneBinds (es : List Expr) : Prop := ∀ e ∈ es, e.isBind = false

/-- How tasks are done and queries are answered: in one direction both with the fuel that it takes,
in the other one with some fuel on the machine. -/
structure Setting (dressed : Bool) (globals : List (String × Val))
    (perform : (task : Task) -> Run task.Answer)
    (refer : (query : Query) -> Option query.Answer) : Prop where
  lower : ∀ task, perform task ≤ task.full
  full : dressed = true -> perform = Task.full
  within : Within refer (ByName.refer globals)
  all : dressed = false -> refer = ByName.refer globals

/-- Tasks and queries follow each other. -/
structure Simulates (dressed : Bool) (globals : List (String × Val)) (blocked : Entry -> Prop)
    (perform : (task : Task) -> Run task.Answer)
    (refer : (query : Query) -> Option query.Answer) : Prop where
  eval {reading : Reading} {m : Machine} {path : Path} {e other : Expr} {frame : Frame}
    {scope : Scope} : Opens dressed globals blocked reading m path ->
    Mapping (Wears dressed) e other -> e.All (Suits scope.isLazy) -> e.isBind = false ->
    Frames reading frame scope ->
    Follows dressed m (perform (.eval other frame)) (refer (.eval e scope path))
      (Gives dressed globals (Apart path) reading m (Valued dressed frame))
  evalForced {reading : Reading} {m : Machine} {path : Path} {e other : Expr} {frame : Frame}
    {scope : Scope} : Opens dressed globals blocked reading m path ->
    Mapping (Wears dressed) e other -> e.All (Suits scope.isLazy) -> e.isBind = false ->
    Frames reading frame scope ->
    Follows dressed m (perform (.evalForced other frame)) (refer (.eval e scope path))
      (Gives dressed globals (Apart path) reading m (Valued dressed frame))
  runThunk {reading : Reading} {m : Machine} {path : Path} {e other : Expr} {env : Env}
    {names : Bindings} : Opens dressed globals blocked reading m path ->
    Mapping (Wears dressed) e other -> e.All (Suits true) -> e.isBind = false ->
    Stands reading env names ->
    Follows dressed m (perform (.runThunk (.expr other env))) (refer (.eval e ⟨names, true⟩ path))
      (Gives dressed globals (Apart path) reading m (Means dressed))
  binding {reading : Reading} {m : Machine} {path : Path} {mark : Mark} {name : String}
    {e other : Expr} {frame : Frame} {scope : Scope} :
    Opens dressed globals blocked reading m path -> Mapping (Wears dressed) e other ->
    e.All (Suits scope.isLazy) -> e.isBind = false -> Frames reading frame scope ->
    Follows dressed m (perform (.eval (.bind mark name other) frame))
      (refer (.binding name e scope path))
      (Gives dressed globals (Apart path) reading m (Binds frame scope.isLazy name))
  operand {reading : Reading} {m : Machine} {path : Path} {e other : Expr} {frame : Frame}
    {scope : Scope} {policy : Policy} {byName : Bool} :
    Opens dressed globals blocked reading m path -> Mapping (Wears dressed) e other ->
    e.All (Suits scope.isLazy) -> e.isBind = false -> Frames reading frame scope ->
    Chooses dressed scope.isLazy policy byName ->
    Follows dressed m (perform (.operand policy other frame)) (refer (.operand byName e scope path))
      (Gives dressed globals (Apart path) reading m (Passed dressed globals frame byName))
  operands {reading : Reading} {m : Machine} {path : Path} {es others : List Expr} {frame : Frame}
    {scope : Scope} {policy : Policy} {byName : Bool} :
    Opens dressed globals blocked reading m path -> MappingAll (Wears dressed) es others ->
    AllOf (Suits scope.isLazy) es -> NoneBinds es -> Frames reading frame scope ->
    Chooses dressed scope.isLazy policy byName ->
    Follows dressed m (perform (.operands policy others frame))
      (refer (.operands byName es scope path))
      (Gives dressed globals (Apart path) reading m (AllPassed dressed globals frame byName))
  keywords {reading : Reading} {m : Machine} {path : Path} {es others : List (String × Expr)}
    {frame : Frame} {scope : Scope} {policy : Policy} {byName : Bool} :
    Opens dressed globals blocked reading m path -> MappingNamed (Wears dressed) es others ->
    AllOfKwargs (Suits scope.isLazy) es -> NoneBinds (es.map Prod.snd) ->
    Frames reading frame scope -> Chooses dressed scope.isLazy policy byName ->
    Follows dressed m (perform (.keywords policy others frame))
      (refer (.keywords byName es scope path))
      (Gives dressed globals (Apart path) reading m (NamedPassed dressed globals frame byName))
  arms {reading : Reading} {m : Machine} {path : Path} {arms others : List (Expr × Expr)}
    {alt other : Option Expr} {frame : Frame} {scope : Scope} :
    Opens dressed globals blocked reading m path -> MappingArms (Wears dressed) arms others ->
    Option.Rel (Mapping (Wears dressed)) alt other -> AllOfArms (Suits scope.isLazy) arms ->
    (∀ e ∈ alt, e.All (Suits scope.isLazy) ∧ e.isBind = false) ->
    NoneBinds (arms.flatMap fun arm => [arm.1, arm.2]) -> Frames reading frame scope ->
    Follows dressed m (perform (.evalArms others other frame)) (refer (.arms arms alt scope path))
      (Gives dressed globals (Apart path) reading m (Valued dressed frame))
  short {reading : Reading} {m : Machine} {path : Path} {op : Connective} {es others : List Expr}
    {last : Value} {val : Val} {frame : Frame} {scope : Scope} :
    Opens dressed globals blocked reading m path -> MappingAll (Wears dressed) es others ->
    AllOf (Suits scope.isLazy) es -> NoneBinds es -> Frames reading frame scope ->
    Means dressed reading last val ->
    Follows dressed m (perform (.evalShort op others last frame))
      (refer (.short op es val scope path))
      (Gives dressed globals (Apart path) reading m (Valued dressed frame))
  items {reading : Reading} {m : Machine} {path : Path} {es others : List Expr} {last : Value}
    {val : Val} {frame : Frame} {scope : Scope} :
    Opens dressed globals blocked reading m path -> MappingAll (Wears dressed) es others ->
    AllOf (Suits scope.isLazy) es -> Frames reading frame scope -> Means dressed reading last val ->
    Follows dressed m (perform (.evalItems others last frame)) (refer (.items es val scope path))
      (Gives dressed globals (Apart path) reading m (ValuedWithin dressed frame))
  loop {reading : Reading} {m : Machine} {path : Path} {test test' body body' : Expr}
    {frame : Frame} {scope : Scope} : Opens dressed globals blocked reading m path ->
    Mapping (Wears dressed) test test' -> Mapping (Wears dressed) body body' ->
    test.All (Suits scope.isLazy) -> body.All (Suits scope.isLazy) -> NoneBinds [test, body] ->
    Frames reading frame scope ->
    Follows dressed m (perform (.evalLoop test' body' frame)) (refer (.loop test body scope path))
      (Gives dressed globals (Apart path) reading m (Valued dressed frame))
  apply {reading : Reading} {m : Machine} {path : Path} {callee : Callable} {val : Val}
    {args : List Value} {entries : List Entry} {kwargs : Kwargs} {named : Bindings} :
    Opens dressed globals blocked reading m path -> Means dressed reading (.func callee) val ->
    HoldAll dressed globals reading args entries ->
      HoldNamed dressed globals reading kwargs named ->
    (val.takesThunks = false -> (∀ entry ∈ entries, ∃ val, entry = .value val) ∧
      ∀ bound ∈ named, ∃ val, bound.2 = .value val) ->
    Follows dressed m (perform (.apply callee args kwargs)) (refer (.apply val entries named path))
      (Gives dressed globals (Apart path) reading m (Means dressed))
  force {reading : Reading} {m : Machine} {value : Value} {entry : Entry} :
    Rests dressed globals blocked reading m -> Holds dressed globals reading value entry ->
    Follows dressed m (perform (.force value)) (refer (.need entry))
      (Gives dressed globals (fun _ => True) reading m (Means dressed))

end Simulation

/-! ## Evaluation in stages -/

section Stages

open Exec

variable {dressed : Bool} {globals : List (String × Val)} {blocked : Entry -> Prop}
  {reading more : Reading} {m m' : Machine} {path : Path} {frame : Frame} {scope : Scope}
  {perform : (task : Task) -> Run task.Answer} {refer : (query : Query) -> Option query.Answer}

theorem Frames.grow (frames : Frames reading frame scope) (grows : reading.Grows more) :
    Frames more frame scope :=
  { frames with stands := frames.stands.grow grows }

/-- After a move no promise is being forced that was not before. -/
theorem Ready.move {spared : Path -> Prop} (ready : Ready blocked reading m)
    (moves : Moves spared reading m more m') : Ready blocked more m' := by
  intro ref entry found forcing
  obtain ⟨found, forcing⟩ := moves.forcing ref entry found forcing
  exact ready ref entry found forcing

variable {blocked' : Entry -> Prop}

theorem Rests.imp (rests : Rests dressed globals blocked reading m)
    (implies : ∀ entry, blocked entry -> blocked' entry) :
    Rests dressed globals blocked' reading m :=
  ⟨rests.agrees, fun ref entry found forcing =>
    implies entry (rests.ready ref entry found forcing)⟩

theorem Opens.imp (opens : Opens dressed globals blocked reading m path)
    (implies : ∀ entry, blocked entry -> blocked' entry) :
    Opens dressed globals blocked' reading m path :=
  ⟨opens.toRests.imp implies, opens.free⟩

/-! ## Stages -/

/-- The turns from one on are still to be taken. -/
structure Stage (dressed : Bool) (globals : List (String × Val)) (blocked : Entry -> Prop)
    (turn : Nat) (reading : Reading) (m : Machine) (path : Path) : Prop
    extends Rests dressed globals blocked reading m where
  free : ∀ later, turn ≤ later -> Free reading m (later :: path)

theorem Opens.stage (opens : Opens dressed globals blocked reading m path) :
    Stage dressed globals blocked 0 reading m path :=
  ⟨opens.toRests, fun later _ => opens.free.cons later⟩

section Turns

variable {turn : Nat} {α β γ δ : Type} {run : Run α} {answer : Option β} {next : α -> Run γ}
  {goesOn : β -> Option δ} {rel : Reading -> α -> β -> Prop} {last : Reading -> γ -> δ -> Prop}

/-- What is evaluated at a turn is evaluated at the path. -/
theorem Follows.atPath
    (follows : Follows dressed m run answer
      (Gives dressed globals (Apart (turn :: path)) reading m rel)) :
    Follows dressed m run answer (Gives dressed globals (Apart path) reading m rel) := by
  refine follows.imp ?_
  rintro value val m' ⟨more, moves, agrees, holds⟩
  exact ⟨more, moves.weaken fun other apart => apart.cons turn, agrees, holds⟩

namespace Stage

theorem opens (stage : Stage dressed globals blocked turn reading m path) :
    Opens dressed globals blocked reading m (turn :: path) :=
  ⟨stage.toRests, stage.free turn (Nat.le_refl turn)⟩

/-- When a turn was taken, the next ones can be. -/
theorem advance (stage : Stage dressed globals blocked turn reading m path)
    (moves : Moves (Apart (turn :: path)) reading m more m')
    (agrees : Agrees dressed globals more m') :
    Stage dressed globals blocked (turn + 1) more m' path where
  agrees := agrees
  ready := stage.ready.move moves
  free later less :=
    moves.free (later :: path) (Apart.turns (Nat.ne_of_lt less) path)
      (stage.free later (Nat.le_of_lt less))

/-- Take one turn, and go on with the next ones. -/
theorem bind (stage : Stage dressed globals blocked turn reading m path)
    (follows : Follows dressed m run answer
      (Gives dressed globals (Apart (turn :: path)) reading m rel))
    (after : ∀ value val more m', reading.Grows more ->
      Stage dressed globals blocked (turn + 1) more m' path -> rel more value val ->
      Follows dressed m' (next value) (goesOn val)
        (Gives dressed globals (Apart path) more m' last)) :
    Follows dressed m (run >>= next) (answer >>= goesOn)
      (Gives dressed globals (Apart path) reading m last) := by
  refine follows.bind ?_
  rintro value val m' ⟨more, moves, agrees, holds⟩
  refine (after value val more m' moves.grows (stage.advance moves agrees) holds).imp ?_
  rintro value' val' m'' ⟨further, moves', agrees', holds'⟩
  exact ⟨further, (moves.trans moves').weaken fun other apart => ⟨apart.cons turn, apart⟩,
    agrees', holds'⟩

end Stage

end Turns

/-! ## Tasks and queries -/

namespace Setting

variable (setting : Setting dressed globals perform refer)
include setting

variable {task : Task} {α : Type} {query : Query} {run : Run α}

/-- What holds of a task that is done in full holds of it in the setting. -/
theorem below {answer : Option α} {post : task.Answer -> α -> Machine -> Prop}
    (follows : Follows dressed m task.full answer post) :
    Follows dressed m (perform task) answer post :=
  follows.below (setting.lower task) fun total => congrFun (setting.full total) task

/-- Go on after a task whose end is known. -/
theorem known {β : Type} {result : task.Answer} {next : task.Answer -> Run α}
    {answer : Option β} {post : α -> β -> Machine -> Prop}
    (ends : task.full m = some (.ok result, m'))
    (after : Follows dressed m' (next result) answer post) :
    Follows dressed m (perform task >>= next) answer post := by
  refine (Follows.step ends after).below (bind_le (setting.lower task) fun _ => le_refl _) ?_
  intro total
  rw [setting.full total]

/-- What is answered has an answer by its course. -/
theorem answered {answer : query.Answer} (ends : refer query = some answer) :
    (query.course globals).run (ByName.refer globals) = some answer :=
  refer_eq query ▸ setting.within query answer ends

/-- What follows an answer follows the answers in the setting. -/
theorem asks {post : α -> query.Answer -> Machine -> Prop}
    (follows : Follows dressed m run (ByName.refer globals query) post) :
    Follows dressed m run (refer query) post := by
  cases dressed with
  | true => exact fun val found => follows val (setting.within query val found)
  | false => exact setting.all rfl ▸ follows

/-- Where the value of an entry is known, it is found. -/
theorem evaluated {entry : Entry} {val : Val} (evaluates : entry.Evaluates globals val)
    {value : α} {post : α -> Val -> Machine -> Prop}
    (ends : run m = some (.ok value, m')) (holds : post value val m') :
    Follows dressed m run (refer (.need entry)) post := by
  refine setting.asks ?_
  rw [evaluates]
  exact .ends ends holds

end Setting

end Stages

end Trampoline.ByName
