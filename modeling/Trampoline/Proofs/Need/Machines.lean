import Trampoline.Proofs.Need.Relation
import Trampoline.Proofs.Need.Following
import Trampoline.Proofs.Simulation.World

/-!
# Steps of a machine and what they are read as

What evaluation does to the machine: it makes cells, lists, closures and promises, and forces
promises. Each step keeps the machine as its references are read, uses the path that it is given
and spares all others.
-/

namespace Trampoline.ByName

variable {dressed : Bool} {globals : List (String × Val)} {reading more further : Reading}
  {m m' m'' : Machine} {spared : Path -> Prop}

/-! ## Growing readings -/

variable {value : Value} {entry : Entry} {α β : Type} {name : String}

theorem Holds.grow (holds : Holds dressed globals reading value entry)
    (grows : reading.Grows more) :
    Holds dressed globals more value entry := by
  cases holds with
  | value means evaluates => exact .value (means.grow grows) evaluates
  | promise found => exact .promise (getElem?_grow grows.promises found)

theorem Keeps.grow {state : Promise}
    (keeps : Keeps dressed globals reading state entry) (grows : reading.Grows more) :
    Keeps dressed globals more state entry := by
  cases keeps with
  | pending mapping suits body stands => exact .pending mapping suits body (stands.grow grows)
  | forcing => exact .forcing
  | forced means evaluates => exact .forced (means.grow grows) evaluates

namespace Reading

/-- One more cell. -/
def withCell (reading : Reading) (entry : Entry) : Reading :=
  { reading with cells := reading.cells ++ [entry] }

/-- One more list. -/
def withList (reading : Reading) (items : List Val) : Reading :=
  { reading with lists := reading.lists ++ [items] }

/-- One more promise. -/
def withPromise (reading : Reading) (entry : Entry) : Reading :=
  { reading with promises := reading.promises ++ [entry] }

/-- One more closure. -/
def withClosure (reading : Reading) (path : Path) : Reading :=
  { reading with closures := reading.closures ++ [path] }

/-- A reading grows by a new cell. -/
theorem grows_withCell (reading : Reading) (entry : Entry) :
    reading.Grows (reading.withCell entry) :=
  { Grows.refl reading with cells := List.prefix_append _ _ }

/-- A reading grows by a new list. -/
theorem grows_withList (reading : Reading) (items : List Val) :
    reading.Grows (reading.withList items) :=
  { Grows.refl reading with lists := List.prefix_append _ _ }

theorem grows_withPromise (reading : Reading) (entry : Entry) :
    reading.Grows (reading.withPromise entry) :=
  { Grows.refl reading with promises := List.prefix_append _ _ }

/-- A reading grows by a new closure. -/
theorem grows_withClosure (reading : Reading) (path : Path) :
    reading.Grows (reading.withClosure path) :=
  { Grows.refl reading with closures := List.prefix_append _ _ }

end Reading

/-- What is at a place of a list with one more item. -/
theorem getElem?_append_one {items : List α} {last item : α} {n : Nat}
    (found : (items ++ [last])[n]? = some item) :
    items[n]? = some item ∨ (n = items.length ∧ item = last) := by
  rcases Nat.lt_trichotomy n items.length with less | rfl | more
  · rw [List.getElem?_append_left less] at found
    exact .inl found
  · simp at found
    exact .inr ⟨rfl, found.symm⟩
  · rw [List.getElem?_append_right (Nat.le_of_lt more), List.getElem?_eq_none] at found
    · cases found
    · simpa using Nat.succ_le_of_lt (Nat.sub_pos_of_lt more)

/-! ## What stays free -/

theorem Free.cons {path : Path} (free : Free reading m path) (turn : Nat) :
    Free reading m (turn :: path) where
  unused other member leads := free.unused other member ((List.suffix_cons turn path).trans leads)
  unclaimed ref other awaits := (free.unclaimed ref other awaits).cons turn

namespace Moves

theorem refl (reading : Reading) (m : Machine) : Moves spared reading m reading m :=
  ⟨.refl reading, fun _ _ => id, fun _ _ found forcing => ⟨found, forcing⟩⟩

variable {spared' : Path -> Prop}

theorem trans (moves : Moves spared reading m more m')
    (moves' : Moves spared' more m' further m'') :
    Moves (fun path => spared path ∧ spared' path) reading m further m'' where
  grows := moves.grows.trans moves'.grows
  free path both free := moves'.free path both.2 (moves.free path both.1 free)
  forcing ref entry found forcing :=
    let ⟨found, forcing⟩ := moves'.forcing ref entry found forcing
    moves.forcing ref entry found forcing

theorem weaken (moves : Moves spared reading m more m')
    (implies : ∀ path, spared' path -> spared path) : Moves spared' reading m more m' :=
  { moves with free := fun path kept => moves.free path (implies path kept) }

end Moves

/-- An evaluation moves the machine as it is read, to a value and a meaning that belong together. -/
def Gives {α β : Type} (dressed : Bool) (globals : List (String × Val)) (spared : Path -> Prop)
    (reading : Reading) (m : Machine) (rel : Reading -> α -> β -> Prop) (value : α) (val : β)
    (m' : Machine) : Prop :=
  ∃ more, Moves spared reading m more m' ∧ Agrees dressed globals more m' ∧ rel more value val

theorem Gives.same {rel : Reading -> α -> β -> Prop} {value : α} {val : β}
    (agrees : Agrees dressed globals reading m) (holds : rel reading value val) :
    Gives dressed globals spared reading m rel value val m :=
  ⟨reading, .refl reading m, agrees, holds⟩

/-! ## Steps -/

namespace Agrees

/-- Nothing but what references stand for matters. -/
theorem of_heap (agrees : Agrees dressed globals reading m) (cells : m'.cells = m.cells)
    (lists : m'.lists = m.lists) (promises : m'.promises = m.promises)
    (closures : m'.closures = m.closures) (same : m'.globals = m.globals) :
    Agrees dressed globals reading m' ∧ Moves spared reading m reading m' := by
  have promise : ∀ ref, m'.promise ref = m.promise ref := by
    intro ref
    rw [Machine.promise, Machine.promise, promises]
  have awaits : ∀ ref path, Awaits reading m' ref path ↔ Awaits reading m ref path := by
    intro ref path
    rw [Awaits, Awaits, promise]
  refine ⟨⟨?_, ?_, ?_, ?_, ?_, ?_, ?_, agrees.distinct, ?_, ?_⟩, .refl reading, ?_, ?_⟩
  · rw [cells, agrees.cells]
  · rw [lists, agrees.lists]
  · rw [promises, agrees.promises]
  · rw [closures, agrees.closures]
  · intro ref entry found
    rw [Machine.cell, cells]
    exact agrees.cell ref entry found
  · intro ref vals found
    rw [Machine.items, lists]
    exact agrees.items ref vals found
  · intro ref entry found
    rw [promise]
    exact agrees.promise ref entry found
  · simpa only [awaits] using agrees.claims
  · intro name plain
    rw [Machine.global?, same]
    exact agrees.known name plain
  · exact fun path _ free => ⟨free.unused, fun ref other waits =>
      free.unclaimed ref other ((awaits ref other).mp waits)⟩
  · intro ref entry found forcing
    exact ⟨found, promise ref ▸ forcing⟩

/-- Globals keep their meaning when the reading grows. -/
theorem known_grow (agrees : Agrees dressed globals reading m) (grows : reading.Grows more)
    {name : String} (plain : ∀ op : Native, op.isPure = false -> name ≠ op.name) :
    Option.Rel (Means dressed more) (m.global? name) (globals.lookup name) := by
  have known := agrees.known name plain
  generalize m.global? name = value, globals.lookup name = val at known ⊢
  cases known with
  | some means => exact .some (means.grow grows)
  | none => exact .none

/-- What is put into a new cell may refer to the cell. -/
theorem newCell (agrees : Agrees dressed globals reading m) {value : Value} {entry : Entry}
    (holds : Holds dressed globals (reading.withCell entry) value entry) :
    Agrees dressed globals (reading.withCell entry) { m with cells := m.cells.push value } ∧
      Moves spared reading m (reading.withCell entry) { m with cells := m.cells.push value } := by
  have grows := reading.grows_withCell entry
  refine ⟨{ agrees with
    cells := by simp [Reading.withCell, agrees.cells]
    cell := ?_
    items := fun ref vals found =>
      ⟨(agrees.items ref vals found).1.grow grows, (agrees.items ref vals found).2⟩
    promise := fun ref entry found => (agrees.promise ref entry found).grow grows
    known := fun name plain => agrees.known_grow grows plain }, grows, ?_, ?_⟩
  · intro ref other found
    rcases getElem?_append_one found with old | ⟨rfl, rfl⟩
    · have inside : ref < m.cells.size := agrees.cells ▸ (List.getElem?_eq_some_iff.mp old).1
      rw [Machine.cell, getD_push_lt inside]
      exact (agrees.cell ref other old).grow grows
    · rw [Machine.cell, agrees.cells, getD_push_size]
      exact holds
  · exact fun path _ free => ⟨free.unused, free.unclaimed⟩
  · exact fun ref entry found forcing => ⟨found, forcing⟩

theorem newList (agrees : Agrees dressed globals reading m) {values : List Value}
    {vals : List Val} (all : MeanAll dressed reading values vals)
    (shallow : depthAll vals ≤ reading.lists.length) :
    Agrees dressed globals (reading.withList vals)
        { m with lists := m.lists.push values.toArray } ∧
      Moves spared reading m (reading.withList vals)
        { m with lists := m.lists.push values.toArray } := by
  have grows := reading.grows_withList vals
  refine ⟨{ agrees with
    lists := by simp [Reading.withList, agrees.lists]
    cell := fun ref entry found => (agrees.cell ref entry found).grow grows
    items := ?_
    promise := fun ref entry found => (agrees.promise ref entry found).grow grows
    known := fun name plain => agrees.known_grow grows plain }, grows, ?_, ?_⟩
  · intro ref other found
    rcases getElem?_append_one found with old | ⟨rfl, rfl⟩
    · have inside : ref < m.lists.size := agrees.lists ▸ (List.getElem?_eq_some_iff.mp old).1
      rw [Machine.items, getD_push_lt inside]
      exact ⟨(agrees.items ref other old).1.grow grows, (agrees.items ref other old).2⟩
    · rw [Machine.items, agrees.lists, getD_push_size]
      exact ⟨all.grow grows, agrees.lists ▸ shallow⟩
  · exact fun path _ free => ⟨free.unused, free.unclaimed⟩
  · exact fun ref entry found forcing => ⟨found, forcing⟩

variable {path : Path}

theorem newClosure (agrees : Agrees dressed globals reading m) (free : Free reading m path) :
    Agrees dressed globals (reading.withClosure path) { m with closures := m.closures + 1 } ∧
      Moves (Apart path) reading m (reading.withClosure path)
        { m with closures := m.closures + 1 } := by
  have grows := reading.grows_withClosure path
  have member : ∀ other ∈ (reading.withClosure path).closures,
      other ∈ reading.closures ∨ other = path := by
    simp [Reading.withClosure]
  refine ⟨{ agrees with
    closures := by simp [Reading.withClosure, agrees.closures]
    cell := fun ref entry found => (agrees.cell ref entry found).grow grows
    items := fun ref vals found =>
      ⟨(agrees.items ref vals found).1.grow grows, (agrees.items ref vals found).2⟩
    promise := fun ref entry found => (agrees.promise ref entry found).grow grows
    distinct := ?_
    claims := ?_
    known := fun name plain => agrees.known_grow grows plain }, grows, ?_, ?_⟩
  · refine List.nodup_append.mpr ⟨agrees.distinct, by simp, fun other old made new => ?_⟩
    obtain rfl := List.mem_singleton.mp new
    rintro rfl
    exact free.unused other old List.suffix_rfl
  · intro ref other awaits
    refine ⟨fun made among => ?_, (agrees.claims ref other awaits).2⟩
    rcases member made among with old | rfl
    · exact (agrees.claims ref other awaits).1 made old
    · exact (free.unclaimed ref other awaits).2
  · intro other apart free'
    refine ⟨fun made among => ?_, free'.unclaimed⟩
    rcases member made among with old | rfl
    · exact free'.unused made old
    · exact apart.2
  · exact fun ref entry found forcing => ⟨found, forcing⟩

theorem newPromise (agrees : Agrees dressed globals reading m) {e other : Expr} {env : Env}
    {names : Bindings} (free : Free reading m path)
    (mapping : Mapping (Wears dressed) e other) (suits : e.All (Suits true))
    (body : e.isBind = false) (stands : Stands reading env names) :
    Agrees dressed globals (reading.withPromise (.thunk e names path))
        { m with promises := m.promises.push (.pending (.expr other env)) } ∧
      Moves (Apart path) reading m (reading.withPromise (.thunk e names path))
        { m with promises := m.promises.push (.pending (.expr other env)) } := by
  have grows := reading.grows_withPromise (.thunk e names path)
  set more := reading.withPromise (.thunk e names path)
  set later : Machine := { m with promises := m.promises.push (.pending (.expr other env)) }
  have states : ∀ ref entry, more.promises[ref]? = some entry ->
      (reading.promises[ref]? = some entry ∧ later.promise ref = m.promise ref) ∨
        (ref = reading.promises.length ∧ entry = .thunk e names path ∧
          later.promise ref = .pending (.expr other env)) := by
    intro ref entry found
    rcases getElem?_append_one found with old | ⟨rfl, rfl⟩
    · have inside := agrees.promises ▸ (List.getElem?_eq_some_iff.mp old).1
      exact .inl ⟨old, getD_push_lt inside _ _⟩
    · refine .inr ⟨rfl, rfl, ?_⟩
      rw [Machine.promise, agrees.promises, getD_push_size]
  have waits : ∀ ref claimed, Awaits more later ref claimed ->
      Awaits reading m ref claimed ∨ (ref = reading.promises.length ∧ claimed = path) := by
    rintro ref claimed ⟨⟨e', names', found⟩, thunk, pending⟩
    rcases states ref _ found with ⟨old, same⟩ | ⟨rfl, equal, -⟩
    · exact .inl ⟨⟨e', names', old⟩, thunk, same ▸ pending⟩
    · cases equal
      exact .inr ⟨rfl, rfl⟩
  refine ⟨{ agrees with
    promises := by simp [more, later, Reading.withPromise, agrees.promises]
    cell := fun ref entry found => (agrees.cell ref entry found).grow grows
    items := fun ref vals found =>
      ⟨(agrees.items ref vals found).1.grow grows, (agrees.items ref vals found).2⟩
    promise := ?_
    claims := ?_
    known := fun name plain => agrees.known_grow grows plain }, grows, ?_, ?_⟩
  · intro ref entry found
    rcases states ref entry found with ⟨old, same⟩ | ⟨-, rfl, same⟩
    · exact same ▸ (agrees.promise ref entry old).grow grows
    · exact same ▸ .pending mapping suits body (stands.grow grows)
  · intro ref claimed awaits
    rcases waits ref claimed awaits with old | ⟨rfl, rfl⟩
    · refine ⟨(agrees.claims ref claimed old).1, fun ref' claimed' awaits' different => ?_⟩
      rcases waits ref' claimed' awaits' with old' | ⟨-, rfl⟩
      · exact (agrees.claims ref claimed old).2 ref' claimed' old' different
      · exact (free.unclaimed ref claimed old).symm
    · refine ⟨free.unused, fun ref' claimed' awaits' different => ?_⟩
      rcases waits ref' claimed' awaits' with old' | ⟨rfl, -⟩
      · exact free.unclaimed ref' claimed' old'
      · exact absurd rfl different
  · intro spare apart free'
    refine ⟨free'.unused, fun ref claimed awaits => ?_⟩
    rcases waits ref claimed awaits with old | ⟨-, rfl⟩
    · exact free'.unclaimed ref claimed old
    · exact apart.symm
  · intro ref entry found forcing
    rcases states ref entry found with ⟨old, same⟩ | ⟨-, -, same⟩
    · exact ⟨old, same ▸ forcing⟩
    · cases same.symm.trans forcing

end Agrees

/-! ## Forcing -/

section Forcing

variable {ref : Nat} {e : Expr} {names : Bindings} {path : Path}

/-- The machine with a promise in another state. -/
def withPromise (m : Machine) (ref : Nat) (state : Promise) : Machine :=
  { m with promises := m.promises.setIfInBounds ref state }

theorem promise_withPromise_of_ne {other : Nat} (different : ref ≠ other) (state : Promise) :
    (withPromise m ref state).promise other = m.promise other :=
  getD_set_ne different _ _

namespace Agrees

/-- A promise that exists has the state that it is given. -/
theorem promise_withPromise (agrees : Agrees dressed globals reading m)
    {entry : Entry} (found : reading.promises[ref]? = some entry) (state : Promise) :
    (withPromise m ref state).promise ref = state :=
  getD_set_self (agrees.promises ▸ (List.getElem?_eq_some_iff.mp found).1) _ _

/-- A promise that has begun to be forced waits no more, and nothing else changes. -/
theorem withPromise (agrees : Agrees dressed globals reading m)
    (found : reading.promises[ref]? = some (.thunk e names path)) (state : Promise)
    (begun : ∀ thunk, state ≠ .pending thunk)
    (keeps : Keeps dressed globals reading state (.thunk e names path)) :
    Agrees dressed globals reading (withPromise m ref state) ∧
      ∀ other claimed, Awaits reading (ByName.withPromise m ref state) other claimed ->
        other ≠ ref ∧ Awaits reading m other claimed := by
  have waits : ∀ other claimed, Awaits reading (ByName.withPromise m ref state) other claimed ->
      other ≠ ref ∧ Awaits reading m other claimed := by
    rintro other claimed ⟨known, thunk, pending⟩
    by_cases same : ref = other
    · subst same
      rw [agrees.promise_withPromise found] at pending
      exact absurd pending (begun thunk)
    · rw [promise_withPromise_of_ne same] at pending
      exact ⟨Ne.symm same, known, thunk, pending⟩
  refine ⟨{ agrees with
    promises := by simp [ByName.withPromise, agrees.promises]
    promise := ?_
    claims := ?_ }, waits⟩
  · intro other entry known
    by_cases same : ref = other
    · subst same
      cases found.symm.trans known
      rw [agrees.promise_withPromise found]
      exact keeps
    · rw [promise_withPromise_of_ne same]
      exact agrees.promise other entry known
  · intro other claimed awaits
    refine ⟨(agrees.claims other claimed (waits other claimed awaits).2).1, ?_⟩
    intro other' claimed' awaits' different
    exact (agrees.claims other claimed (waits other claimed awaits).2).2 other' claimed'
      (waits other' claimed' awaits').2 different

variable {thunk : Thunk}

/-- When a promise begins to be forced, its path is free. -/
theorem begin_force (agrees : Agrees dressed globals reading m)
    (found : reading.promises[ref]? = some (.thunk e names path))
    (pending : m.promise ref = .pending thunk) :
    Agrees dressed globals reading (ByName.withPromise m ref .forcing) ∧
      Free reading (ByName.withPromise m ref .forcing) path ∧
      ∀ other, Free reading m other ->
        Free reading (ByName.withPromise m ref .forcing) other ∧ Apart path other := by
  obtain ⟨agrees', waits⟩ := agrees.withPromise found .forcing nofun .forcing
  have awaits : Awaits reading m ref path := ⟨⟨e, names, found⟩, thunk, pending⟩
  obtain ⟨unused, apart⟩ := agrees.claims ref path awaits
  refine ⟨agrees', ⟨unused, fun other claimed awaits' => ?_⟩, fun other free =>
    ⟨⟨free.unused, ?_⟩, (free.unclaimed ref path awaits).symm⟩⟩
  · obtain ⟨different, awaits'⟩ := waits other claimed awaits'
    exact apart other claimed awaits' different.symm
  · exact fun ref' claimed awaits' => free.unclaimed ref' claimed (waits ref' claimed awaits').2

/-- A promise that was forced at its path, from where it began to be. -/
theorem end_force (agrees : Agrees dressed globals reading m)
    (found : reading.promises[ref]? = some (.thunk e names path))
    (pending : m.promise ref = .pending thunk)
    (moves : Moves (Apart path) reading (ByName.withPromise m ref .forcing) more m')
    (agrees' : Agrees dressed globals more m') {value : Value} {val : Val}
    (means : Means dressed more value val)
    (evaluates : Entry.Evaluates globals (.thunk e names path) val) :
    Agrees dressed globals more (ByName.withPromise m' ref (.forced value)) ∧
      Moves (fun _ => True) reading m more (ByName.withPromise m' ref (.forced value)) := by
  have found' := getElem?_grow moves.grows.promises found
  obtain ⟨agrees'', waits⟩ :=
    agrees'.withPromise found' (.forced value) nofun (.forced means evaluates)
  obtain ⟨-, -, spares⟩ := agrees.begin_force found pending
  refine ⟨agrees'', moves.grows, fun other _ free => ?_, fun other entry known forcing => ?_⟩
  · obtain ⟨free, apart⟩ := spares other free
    have free' := moves.free other apart free
    exact ⟨free'.unused, fun ref' claimed awaits =>
      free'.unclaimed ref' claimed (waits ref' claimed awaits).2⟩
  · by_cases same : ref = other
    · subst same
      rw [agrees'.promise_withPromise found'] at forcing
      cases forcing
    · rw [promise_withPromise_of_ne same] at forcing
      obtain ⟨known, forcing⟩ := moves.forcing other entry known forcing
      rw [promise_withPromise_of_ne same] at forcing
      exact ⟨known, forcing⟩

end Agrees

end Forcing

/-! ## Globals -/

/-- Looking up a name in a list with one more entry asks for that entry first. -/
theorem lookup_cons (name key : String) (value : β) (rest : List (String × β)) :
    List.lookup name ((key, value) :: rest) =
      if name = key then some value else rest.lookup name := by
  by_cases same : name = key
  · subst same
    simp
  · simp [List.lookup_cons, beq_eq_false_iff_ne.mpr same, same]

/-- A global that is set has its value, and the others keep theirs. -/
theorem lookup_setGlobal (name other : String) (value : Value) (list : List (String × Value)) :
    (Machine.setGlobal name value list).lookup other =
      if other = name then some value else list.lookup other := by
  induction list with
  | nil => rw [Machine.setGlobal, lookup_cons]
  | cons first rest ih =>
    obtain ⟨key, old⟩ := first
    rw [Machine.setGlobal]
    by_cases here : key = name
    · subst here
      rw [if_pos rfl, lookup_cons, lookup_cons]
      by_cases same : other = key <;> simp [same]
    · rw [if_neg here, lookup_cons, lookup_cons, ih]
      by_cases same : other = key
      · subst same
        simp [here]
      · simp [same]

/-- A new global extends those there are. -/
theorem extend_cons (fresh : globals.lookup name = none) (val : Val) :
    Extend globals ((name, val) :: globals) := by
  intro other value found
  have different : other ≠ name := by
    rintro rfl
    cases found.symm.trans fresh
  rw [lookup_cons, if_neg different, found]

section Extending

variable {extended : List (String × Val)} (extension : Extend globals extended)
include extension

variable {entry : Entry}

theorem Entry.Evaluates.extend {val : Val}
    (evaluates : entry.Evaluates globals val) : entry.Evaluates extended val :=
  refer_within extension _ _ evaluates

/-- What holds an entry holds it under globals that extend the first. -/
theorem Holds.extend {value : Value} (holds : Holds dressed globals reading value entry) :
    Holds dressed extended reading value entry := by
  cases holds with
  | value means evaluates => exact .value means (evaluates.extend extension)
  | promise found => exact .promise found

/-- What keeps an entry keeps it under globals that extend the first. -/
theorem Keeps.extend {state : Promise} (keeps : Keeps dressed globals reading state entry) :
    Keeps dressed extended reading state entry := by
  cases keeps with
  | pending mapping suits body stands => exact .pending mapping suits body stands
  | forcing => exact .forcing
  | forced means evaluates => exact .forced means (evaluates.extend extension)

end Extending

/-- A global that was not bound before. -/
theorem Agrees.define (agrees : Agrees dressed globals reading m)
    {val : Val} (fresh : globals.lookup name = none) (means : Means dressed reading value val) :
    Agrees dressed ((name, val) :: globals) reading (m.define name value) :=
  { agrees with
    cell := fun ref entry found => (agrees.cell ref entry found).extend (extend_cons fresh val)
    promise := fun ref entry found =>
      (agrees.promise ref entry found).extend (extend_cons fresh val)
    known := by
      intro other plain
      rw [Machine.global?, Machine.define, lookup_setGlobal, lookup_cons]
      by_cases same : other = name
      · rw [if_pos same, if_pos same]
        exact .some means
      · rw [if_neg same, if_neg same]
        exact agrees.known other plain }

end Trampoline.ByName
