import Trampoline.Proofs.Transport.Plans

/-!
# Steps of machines that mirror each other

What evaluation does to the machine, done to two machines that mirror each other, leaves them so.
New numbers are given out on both sides at once and stand for each other from then on.
-/

namespace Trampoline

open Exec

/-! ## What steps change -/

namespace Machine

variable (m : Machine)

/-- A new cell gains the store of cells a number, and nothing else. -/
theorem gains_cell (value : Value) : m.Gains .cell { m with cells := m.cells.push value } where
  globals := rfl
  passed := rfl
  closedOutput := rfl
  output := rfl
  count other := by cases other <;> simp [count]
  content {other _} inside := by
    cases other with
    | cell => simp only [content, cell, getD_push_lt inside]
    | _ => rfl

/-- A new list gains the store of lists a number, and nothing else. -/
theorem gains_list (items : Array Value) :
    m.Gains .list { m with lists := m.lists.push items } where
  globals := rfl
  passed := rfl
  closedOutput := rfl
  output := rfl
  count other := by cases other <;> simp [count]
  content {other _} inside := by
    cases other with
    | list => simp only [content, Machine.items, getD_push_lt inside]
    | _ => rfl

/-- A new promise gains the store of promises a number, and nothing else. -/
theorem gains_promise (state : Promise) :
    m.Gains .promise { m with promises := m.promises.push state } where
  globals := rfl
  passed := rfl
  closedOutput := rfl
  output := rfl
  count other := by cases other <;> simp [count]
  content {other _} inside := by
    cases other with
    | promise => simp only [content, promise, getD_push_lt inside]
    | _ => rfl

/-- A new jump gains the store of jumps a number, and nothing else. -/
theorem gains_jump (record : JumpRecord) :
    m.Gains .jump { m with jumps := m.jumps.push record } where
  globals := rfl
  passed := rfl
  closedOutput := rfl
  output := rfl
  count other := by cases other <;> simp [count]
  content {other _} inside := by
    cases other with
    | jump => simp only [content, jump, getD_push_lt inside]
    | _ => rfl

/-- A new cache gains the store of caches a number, and nothing else. -/
theorem gains_cache : m.Gains .cache { m with caches := m.caches.push [] } where
  globals := rfl
  passed := rfl
  closedOutput := rfl
  output := rfl
  count other := by cases other <;> simp [count]
  content {other _} inside := by
    cases other with
    | cache => simp only [content, getD_push_lt inside]
    | _ => rfl

/-- A new extent gains the store of extents a number, and nothing else. -/
theorem gains_extent : m.Gains .extent
    { m with extents := m.extents.push true, stack := m.stack.push m.extents.size } where
  globals := rfl
  passed := rfl
  closedOutput := rfl
  output := rfl
  count other := by cases other <;> simp [count]
  content {other _} inside := by
    cases other with
    | extent => simp only [content, getD_push_lt inside]
    | _ => rfl

/-- A new point gains the store of points a number, and nothing else. -/
theorem gains_point : m.Gains .point { m with points := m.points.push true } where
  globals := rfl
  passed := rfl
  closedOutput := rfl
  output := rfl
  count other := by cases other <;> simp [count]
  content {other _} inside := by
    cases other with
    | point => simp only [content, getD_push_lt inside]
    | _ => rfl

theorem gains_closure : m.Gains .closure { m with closures := m.closures + 1 } where
  globals := rfl
  passed := rfl
  closedOutput := rfl
  output := rfl
  count other := by cases other <;> simp [count]
  content {other _} _ := by cases other <;> rfl

theorem gains_handle : m.Gains .handle { m with handles := m.handles + 1 } where
  globals := rfl
  passed := rfl
  closedOutput := rfl
  output := rfl
  count other := by cases other <;> simp [count]
  content {other _} _ := by cases other <;> rfl

theorem gains_continuation :
    m.Gains .continuation { m with continuations := m.continuations + 1 } where
  globals := rfl
  passed := rfl
  closedOutput := rfl
  output := rfl
  count other := by cases other <;> simp [count]
  content {other _} _ := by cases other <;> rfl

theorem gains_identity : m.Gains .identity { m with identities := m.identities + 1 } where
  globals := rfl
  passed := rfl
  closedOutput := rfl
  output := rfl
  count other := by cases other <;> simp [count]
  content {other _} _ := by cases other <;> rfl

/-- Setting a cell alters that cell alone. -/
theorem alters_cell (ref : Nat) (value : Value) :
    m.Alters .cell ref { m with cells := m.cells.setIfInBounds ref value } where
  globals := rfl
  passed := rfl
  closedOutput := rfl
  output := rfl
  stack := rfl
  count other := by cases other <;> simp [count]
  content {other _} differs := by
    cases other with
    | cell => simp only [content, cell, getD_set_ne fun same => differs ⟨rfl, same.symm⟩]
    | _ => rfl

/-- Setting the items of a list alters that list alone. -/
theorem alters_items (ref : Nat) (items : Array Value) :
    m.Alters .list ref { m with lists := m.lists.setIfInBounds ref items } where
  globals := rfl
  passed := rfl
  closedOutput := rfl
  output := rfl
  stack := rfl
  count other := by cases other <;> simp [count]
  content {other _} differs := by
    cases other with
    | list => simp only [content, Machine.items, getD_set_ne fun same => differs ⟨rfl, same.symm⟩]
    | _ => rfl

/-- Pushing an item alters that list alone. -/
theorem alters_push (ref : Nat) (value : Value) : m.Alters .list ref
    { m with lists := m.lists.modify ref fun items => items.push value } where
  globals := rfl
  passed := rfl
  closedOutput := rfl
  output := rfl
  stack := rfl
  count other := by cases other <;> simp [count]
  content {other ref'} differs := by
    cases other with
    | list =>
      have other : ref ≠ ref' := fun same => differs ⟨rfl, same.symm⟩
      simp [content, Machine.items, Array.getElem?_modify, other]
    | _ => rfl

/-- Setting the state of a promise alters that promise alone. -/
theorem alters_promise (ref : Nat) (state : Promise) :
    m.Alters .promise ref { m with promises := m.promises.setIfInBounds ref state } where
  globals := rfl
  passed := rfl
  closedOutput := rfl
  output := rfl
  stack := rfl
  count other := by cases other <;> simp [count]
  content {other _} differs := by
    cases other with
    | promise => simp only [content, promise, getD_set_ne fun same => differs ⟨rfl, same.symm⟩]
    | _ => rfl

/-- Setting the record of a jump alters that jump alone. -/
theorem alters_jump (ref : Nat) (record : JumpRecord) :
    m.Alters .jump ref { m with jumps := m.jumps.setIfInBounds ref record } where
  globals := rfl
  passed := rfl
  closedOutput := rfl
  output := rfl
  stack := rfl
  count other := by cases other <;> simp [count]
  content {other _} differs := by
    cases other with
    | jump => simp only [content, jump, getD_set_ne fun same => differs ⟨rfl, same.symm⟩]
    | _ => rfl

/-- Remembering an entry alters that cache alone. -/
theorem alters_cache (ref : Nat) (entry : CacheEntry) : m.Alters .cache ref
    { m with caches := m.caches.modify ref fun entries => entry :: entries } where
  globals := rfl
  passed := rfl
  closedOutput := rfl
  output := rfl
  stack := rfl
  count other := by cases other <;> simp [count]
  content {other ref'} differs := by
    cases other with
    | cache =>
      have other : ref ≠ ref' := fun same => differs ⟨rfl, same.symm⟩
      simp [content, Array.getElem?_modify, other]
    | _ => rfl

/-- Leaving a point alters that point alone. -/
theorem alters_point (tag : Nat) : m.Alters .point tag (Run.leavePoint tag m) where
  globals := rfl
  passed := rfl
  closedOutput := rfl
  output := rfl
  stack := rfl
  count other := by cases other <;> simp [count, Run.leavePoint]
  content {other _} differs := by
    cases other with
    | point =>
      simp only [content, Run.leavePoint, getD_set_ne fun same => differs ⟨rfl, same.symm⟩]
    | _ => rfl

/-- What a machine has told does not matter to what it resembles. -/
theorem resembles_trace (trace : List Event) : m.Resembles { m with trace := trace } where
  globals := rfl
  passed := rfl
  closedOutput := rfl
  output := rfl
  stack := rfl
  count other := by cases other <;> rfl
  content {other _} := by cases other <;> rfl

end Machine

/-! ## Steps on both sides -/

variable {α β γ δ : Type} {mirror : Mirror} {reflection later : Reflection} {m m' : Machine}

/-- A cell gets other contents on both sides. -/
theorem Machine.Mirrors.setCell (machines : m.Mirrors mirror reflection m') {ref ref' : Nat}
    (known : reflection.pairs .cell ref ref') {value value' : Value}
    (same : value.Mirrors mirror reflection value') :
    Machine.Mirrors mirror reflection { m with cells := m.cells.setIfInBounds ref value }
      { m' with cells := m'.cells.setIfInBounds ref' value' } := by
  have inside := machines.bounded known
  refine machines.alter known (m.alters_cell ref value) (m'.alters_cell ref' value') ?_
  simp only [Machine.content, Machine.cell, getD_set_self inside.1, getD_set_self inside.2]
  exact .cell same

/-- From machines that mirror each other, the two steps do the same. -/
def Mirror.Moves (mirror : Mirror) (reflection : Reflection) (run : Run α) (run' : Run β)
    (post : Reflection -> α -> β -> Prop) : Prop :=
  ∀ m m', m.Mirrors mirror reflection m' ->
    mirror.Agrees reflection (.lift run) (.lift run') m m' post

namespace Mirror.Moves

variable {post mid : Reflection -> α -> β -> Prop} {run : Run α} {run' : Run β}

theorem pure {value : α} {value' : β} (known : post reflection value value') :
    mirror.Moves reflection (pure value) (pure value') post :=
      fun _ _ machines => .pure known machines

variable {error : EvalError} {items items' : List Value}

theorem fail {error' : EvalError} (same : error.Mirrors mirror reflection error') :
    mirror.Moves reflection (fail error) (fail error') post :=
  fun _ _ machines => .error rfl rfl same machines

/-- Errors that no program can tell from each other. -/
theorem failing (noEscape : error.isEscape = false) (noCapture : error ≠ .captureOutsideBlock) :
    mirror.Moves reflection (Exec.fail error) (Exec.fail error) post :=
  .fail (.plain noEscape fun same => absurd same noCapture)

theorem bind {next : α -> Run γ} {next' : β -> Run δ} {post : Reflection -> γ -> δ -> Prop}
    (moves : mirror.Moves reflection run run' mid)
    (after : ∀ later value value', reflection ≤ later -> mid later value value' ->
      mirror.Moves later (next value) (next' value') post) :
    mirror.Moves reflection (run >>= next) (run' >>= next') post := by
  intro m m' machines
  rw [Bounded.lift_bind, Bounded.lift_bind]
  exact (moves m m' machines).bind (Exec.le_refl _) (Exec.le_refl _)
    fun later _ _ _ _ order known machines _ _ => after later _ _ order known _ _ machines

/-- Reading what is the same on both sides. -/
theorem read {view : Machine -> α} {view' : Machine -> β} (same : ∀ {m m'},
    m.Mirrors mirror reflection m' -> post reflection (view m) (view' m')) :
    mirror.Moves reflection (Exec.read view) (Exec.read view') post :=
  fun _ _ machines => .value rfl rfl (Reflection.le_refl _) (same machines) machines

/-! ### What is only told or printed -/

theorem tell (event event' : Event) :
    mirror.Moves reflection (Run.tell event) (Run.tell event') fun _ _ _ => True :=
  fun _ _ machines => .value rfl rfl (Reflection.le_refl _) trivial
    (machines.resembling (Machine.resembles_trace _ _) (Machine.resembles_trace _ _))

/-- The same text is written on both sides. -/
theorem write (text : String) :
    mirror.Moves reflection (Run.write text) (Run.write text) fun _ _ _ => True := by
  intro m m' machines
  have same := machines.closedOutput
  cases closed : m.closedOutput with
  | true =>
    have ran : Run.write text m = some (.error (.output "closed"), m) := by
      simp only [Run.write, closed, if_true]
    have ran' : Run.write text m' = some (.error (.output "closed"), m') := by
      simp only [Run.write, same, closed, if_true]
    exact .error ran ran' (.plain rfl (by simp)) machines
  | false =>
    have ran : Run.write text m = some (.ok (), { m with output := m.output ++ text }) := by
      simp only [Run.write, closed, Bool.false_eq_true, if_false]
    have ran' : Run.write text m' = some (.ok (), { m' with output := m'.output ++ text }) := by
      simp only [Run.write, same, closed, Bool.false_eq_true, if_false]
    exact .value ran ran' (Reflection.le_refl _) trivial (machines.print text)

/-! ### New numbers -/

variable {value value' : Value}

theorem newCell (same : value.Mirrors mirror reflection value') :
    mirror.Moves reflection (Run.newCell value) (Run.newCell value') fun later ref ref' =>
      later.pairs .cell ref ref' := by
  intro m m' machines
  refine .value rfl rfl (reflection.le_pair .cell _ _) Reflection.pair_self
    (machines.gain (m.gains_cell value) (m'.gains_cell value') rfl rfl ?_)
  simp only [Machine.content, Machine.cell, Machine.count, getD_push_size]
  exact .cell (same.mono (reflection.le_pair _ _ _))

theorem newList (same : ValuesMirror mirror reflection items items') :
    mirror.Moves reflection (Run.newList items) (Run.newList items') (Value.Mirrors mirror) := by
  intro m m' machines
  refine .value rfl rfl (reflection.le_pair .list _ _) (.list Reflection.pair_self)
    (machines.gain (m.gains_list items.toArray) (m'.gains_list items'.toArray) rfl rfl ?_)
  simp only [Machine.content, Machine.items, Machine.count, getD_push_size]
  exact .list (same.mono (reflection.le_pair _ _ _))

theorem newPromise {thunk thunk' : Thunk} (same : thunk.Mirrors mirror reflection thunk') :
    mirror.Moves reflection (Run.newPromise thunk) (Run.newPromise thunk')
      (Value.Mirrors mirror) := by
  intro m m' machines
  refine .value rfl rfl (reflection.le_pair .promise _ _) (.promise Reflection.pair_self)
    (machines.gain (m.gains_promise _) (m'.gains_promise _) rfl rfl ?_)
  simp only [Machine.content, Machine.promise, Machine.count, getD_push_size]
  exact .promise (.pending (same.mono (reflection.le_pair _ _ _)))

theorem newJump {jump jump' : Jump} (same : jump.Mirrors mirror reflection jump') :
    mirror.Moves reflection (Run.newJump jump) (Run.newJump jump') (Value.Mirrors mirror) := by
  intro m m' machines
  refine .value rfl rfl (reflection.le_pair .jump _ _) (.jump Reflection.pair_self)
    (machines.gain (m.gains_jump _) (m'.gains_jump _) rfl rfl ?_)
  simp only [Machine.content, Machine.jump, Machine.count, getD_push_size]
  exact .jump (.pending (same.mono (reflection.le_pair _ _ _)))

theorem newCache : mirror.Moves reflection Run.newCache Run.newCache fun later cache cache' =>
    later.pairs .cache cache cache' := by
  intro m m' machines
  refine .value rfl rfl (reflection.le_pair .cache _ _) Reflection.pair_self
    (machines.gain m.gains_cache m'.gains_cache rfl rfl ?_)
  simp only [Machine.content, Machine.count, getD_push_size]
  exact .cache .nil

theorem enterPoint : mirror.Moves reflection Run.enterPoint Run.enterPoint fun later tag tag' =>
    later.pairs .point tag tag' := by
  intro m m' machines
  refine .value rfl rfl (reflection.le_pair .point _ _) Reflection.pair_self
    (machines.gain m.gains_point m'.gains_point rfl rfl ?_)
  simp only [Machine.content, Machine.count, getD_push_size]
  exact .point

theorem newClosure : mirror.Moves reflection Run.newClosure Run.newClosure fun later ref ref' =>
    later.pairs .closure ref ref' := fun m m' machines =>
  .value rfl rfl (reflection.le_pair .closure _ _) Reflection.pair_self
    (machines.gain m.gains_closure m'.gains_closure rfl rfl .number)

theorem newHandle : mirror.Moves reflection Run.newHandle Run.newHandle fun later ref ref' =>
    later.pairs .handle ref ref' := fun m m' machines =>
  .value rfl rfl (reflection.le_pair .handle _ _) Reflection.pair_self
    (machines.gain m.gains_handle m'.gains_handle rfl rfl .number)

theorem newContinuation : mirror.Moves reflection Run.newContinuation Run.newContinuation
    fun later ref ref' => later.pairs .continuation ref ref' := fun m m' machines =>
  .value rfl rfl (reflection.le_pair .continuation _ _) Reflection.pair_self
    (machines.gain m.gains_continuation m'.gains_continuation rfl rfl .number)

theorem newIdentity : mirror.Moves reflection Run.newIdentity Run.newIdentity
    (Callable.Mirrors mirror) := fun m m' machines =>
  .value rfl rfl (reflection.le_pair .identity _ _) (.identity Reflection.pair_self)
    (machines.gain m.gains_identity m'.gains_identity rfl rfl .number)

/-! ### What is written -/

variable {ref ref' : Nat}

theorem setCell (known : reflection.pairs .cell ref ref')
    (same : value.Mirrors mirror reflection value') :
    mirror.Moves reflection (Run.setCell ref value) (Run.setCell ref' value') fun _ _ _ => True :=
  fun _ _ machines => .value rfl rfl (Reflection.le_refl _) trivial (machines.setCell known same)

theorem setItems (known : reflection.pairs .list ref ref')
    (same : ValuesMirror mirror reflection items items') :
    mirror.Moves reflection (Run.setItems ref items) (Run.setItems ref' items')
      fun _ _ _ => True := by
  intro m m' machines
  have inside := machines.bounded known
  refine .value rfl rfl (Reflection.le_refl _) trivial
    (machines.alter known (m.alters_items ref _) (m'.alters_items ref' _) ?_)
  simp only [Machine.content, Machine.items, getD_set_self inside.1, getD_set_self inside.2]
  exact .list same

/-- Lists that stand for each other get the same item. -/
theorem pushItem (known : reflection.pairs .list ref ref')
    (same : value.Mirrors mirror reflection value') :
    mirror.Moves reflection (Run.pushItem ref value) (Run.pushItem ref' value')
      fun _ _ _ => True := by
  intro m m' machines
  obtain ⟨inside, inside'⟩ := machines.bounded known
  have pushed (machine : Machine) (ref : Nat) (value : Value) (inside : ref < machine.lists.size) :
      ((machine.lists.modify ref fun items => items.push value).getD ref #[]).toList =
        (machine.items ref).toList ++ [value] := by
    simp [Machine.items, Array.getElem_modify, inside]
  refine .value rfl rfl (Reflection.le_refl _) trivial
    (machines.alter known (m.alters_push ref value) (m'.alters_push ref' value') ?_)
  simp only [Machine.content]
  refine .list ?_
  simp only [Machine.items]
  rw [pushed m ref value inside, pushed m' ref' value' inside']
  exact (machines.items known).append (.cons same .nil)

theorem setPromise (known : reflection.pairs .promise ref ref') {state state' : Promise}
    (same : state.Mirrors mirror reflection state') :
    mirror.Moves reflection (Run.setPromise ref state) (Run.setPromise ref' state')
      fun _ _ _ => True := by
  intro m m' machines
  have inside := machines.bounded known
  refine .value rfl rfl (Reflection.le_refl _) trivial
    (machines.alter known (m.alters_promise ref _) (m'.alters_promise ref' _) ?_)
  simp only [Machine.content, Machine.promise, getD_set_self inside.1, getD_set_self inside.2]
  exact .promise same

theorem takeJump (known : reflection.pairs .jump ref ref') :
    mirror.Moves reflection (Run.takeJump ref) (Run.takeJump ref') (Jump.Mirrors mirror) := by
  intro m m' machines
  have inside := machines.bounded known
  have same := machines.jump known
  generalize found : m.jump ref = record at same
  generalize found' : m'.jump ref' = record' at same
  cases same with
  | consumed =>
    have ran : Run.takeJump ref m = some (.error .jumpConsumed, m) := by
      simp only [Run.takeJump, found]
    have ran' : Run.takeJump ref' m' = some (.error .jumpConsumed, m') := by
      simp only [Run.takeJump, found']
    exact .error ran ran' (.plain rfl (by simp)) machines
  | @pending jump jump' same =>
    have ran : Run.takeJump ref m =
        some (.ok jump, { m with jumps := m.jumps.setIfInBounds ref .consumed }) := by
      simp only [Run.takeJump, found]
    have ran' : Run.takeJump ref' m' =
        some (.ok jump', { m' with jumps := m'.jumps.setIfInBounds ref' .consumed }) := by
      simp only [Run.takeJump, found']
    refine .value ran ran' (Reflection.le_refl _) same
      (machines.alter known (m.alters_jump ref _) (m'.alters_jump ref' _) ?_)
    simp only [Machine.content, Machine.jump, getD_set_self inside.1, getD_set_self inside.2]
    exact .jump .consumed

/-- Caches that stand for each other remember the same entry. -/
theorem remember (known : reflection.pairs .cache ref ref') (key : List MemoKey)
    (same : value.Mirrors mirror reflection value') :
    mirror.Moves reflection (Run.remember ref key value) (Run.remember ref' key value')
      fun _ _ _ => True := by
  intro m m' machines
  obtain ⟨inside, inside'⟩ := machines.bounded known
  have entered (machine : Machine) (ref : Nat) (entry : CacheEntry)
      (inside : ref < machine.caches.size) :
      (machine.caches.modify ref fun entries => entry :: entries).getD ref [] =
        entry :: machine.caches.getD ref [] := by
    simp [Array.getElem_modify, inside]
  refine .value rfl rfl (Reflection.le_refl _) trivial
    (machines.alter known (m.alters_cache ref ⟨key, value⟩) (m'.alters_cache ref' ⟨key, value'⟩) ?_)
  simp only [Machine.content]
  rw [entered m ref _ inside, entered m' ref' _ inside']
  exact .cache (.cons ⟨rfl, same⟩ (machines.entries known))

/-- Points that stand for each other are left. -/
theorem leavePoint (known : reflection.pairs .point ref ref') :
    mirror.Moves reflection (Exec.modify (Run.leavePoint ref)) (Exec.modify (Run.leavePoint ref'))
      fun later _ _ => later.OneToOne := by
  intro m m' machines
  have inside := machines.bounded known
  refine .value rfl rfl (Reflection.le_refl _) machines.oneToOne
    (machines.alter known (m.alters_point ref) (m'.alters_point ref') ?_)
  simp only [Machine.content, Run.leavePoint, getD_set_self inside.1, getD_set_self inside.2]
  exact .point

/-- A name that is not constant is defined as the same value. -/
theorem define {name : String} (free : ¬ mirror.constant name)
    (same : value.Mirrors mirror reflection value') :
    mirror.Moves reflection (defineToplevel name value) (defineToplevel name value')
      fun _ _ _ => True := by
  refine (tell _ _).bind fun later _ _ order _ => ?_
  exact fun _ _ machines => .value rfl rfl (Reflection.le_refl _) trivial
    (machines.define free (same.mono order))

/-! ### What is read -/

theorem callable (same : value.Mirrors mirror reflection value') :
    mirror.Moves reflection (value.callable : Run Callable) value'.callable
      (Callable.Mirrors mirror) := by
  cases same with
  | func same => exact .pure same
  | nil | bool | int | str | tuple | list | jump | promise => exact .failing rfl (by simp)

theorem noKwargs (func : String) {kwargs kwargs' : Kwargs}
    (same : KwargsMirror mirror reflection kwargs kwargs') :
    mirror.Moves reflection (noKwargs func kwargs) (noKwargs func kwargs') fun _ _ _ => True := by
  cases same with
  | nil => exact .pure trivial
  | cons first _ =>
    simp only [Trampoline.noKwargs, first.1]
    exact .failing rfl (by simp)

theorem cached (known : reflection.pairs .cache ref ref') (key : List MemoKey) :
    mirror.Moves reflection (Run.cached? ref key) (Run.cached? ref' key)
      fun later => Option.Rel (Value.Mirrors mirror later) := by
  refine .read fun {m m'} machines => ?_
  have entries := machines.entries known
  show Option.Rel _ (((m.caches.getD ref []).find? fun entry => sameKeys entry.key key).map
    CacheEntry.value) (((m'.caches.getD ref' []).find? fun entry => sameKeys entry.key key).map
    CacheEntry.value)
  generalize m.caches.getD ref [] = entries at entries
  generalize m'.caches.getD ref' [] = entries' at entries
  induction entries with
  | nil => exact .none
  | @cons entry entry' rest rest' first _ ih =>
    simp only [List.find?_cons, first.1]
    cases sameKeys entry.key key with
    | true => exact .some first.2
    | false => exact ih

theorem pointRunning (known : reflection.pairs .point ref ref') :
    mirror.Moves reflection (Run.pointRunning ref) (Run.pointRunning ref')
      fun _ running running' => running' = running := .read fun machines => machines.running known

end Mirror.Moves

/-! ## Natives that only compute -/

namespace Native

variable {args args' : List Value} {value value' : Value}

/-- Values that are the same up to numbers are the same integer. -/
theorem int_mirrors (op : Native) (same : value.Mirrors mirror reflection value') :
    mirror.Moves reflection (int op value) (int op value') fun _ answer answer' =>
      answer' = answer := by
  have type := same.type_eq
  cases same with
  | int => exact .pure rfl
  | nil | bool | str | tuple | list | func | jump | promise =>
    simp only [int, type]
    exact .failing rfl (by simp)

/-- Values that are the same up to numbers are the same integers. -/
theorem ints_mirror (op : Native) (same : ValuesMirror mirror reflection args args') :
    mirror.Moves reflection (ints op args) (ints op args') fun _ answer answer' =>
      answer' = answer := by
  induction args generalizing args' reflection with
  | nil =>
    cases same
    exact .pure rfl
  | cons value rest ih =>
    cases same with
    | cons first others =>
      refine (int_mirrors op first).bind fun later _ _ order equal => ?_
      refine (ih (others.mono order)).bind fun later _ _ order equal' => ?_
      rw [equal, equal']
      exact .pure rfl

/-- Integers are compared alike. -/
theorem compareInts_mirrors (op : Native) (test : Int64 -> Int64 -> Bool)
    (same : ValuesMirror mirror reflection args args') :
    mirror.Moves reflection (compareInts op test args) (compareInts op test args')
      (Value.Mirrors mirror) := by
  refine (int_mirrors op same.two.1).bind fun later _ _ order equal => ?_
  refine (int_mirrors op (same.two.2.mono order)).bind fun later _ _ order equal' => ?_
  rw [equal, equal']
  exact .pure .bool

/-- Integers are divided alike, or division fails on both sides. -/
theorem divideInts_mirrors (op : Native) (divide : Int64 -> Int64 -> Int64)
    (same : ValuesMirror mirror reflection args args') :
    mirror.Moves reflection (divideInts op divide args) (divideInts op divide args')
      (Value.Mirrors mirror) := by
  refine (int_mirrors op same.two.2).bind fun later divisor _ order equal => ?_
  rw [equal]
  by_cases zero : divisor = 0
  · simp only [if_pos zero]
    exact .failing rfl (by simp)
  · simp only [if_neg zero]
    refine (int_mirrors op (same.two.1.mono order)).bind fun later _ _ order equal' => ?_
    rw [equal']
    exact .pure .int

/-- Differences are computed alike. -/
theorem difference_mirrors (values : List Int64) :
    mirror.Moves reflection (difference values) (difference values) (Value.Mirrors mirror) := by
  rcases values with _ | ⟨first, _ | ⟨second, rest⟩⟩
  · exact .failing rfl (by simp)
  · exact .pure .int
  · exact .pure .int

/-- The same item is picked, or the index is outside on both sides. -/
theorem pick_mirrors (same : ValuesMirror mirror reflection args args') (index : Int64) :
    mirror.Moves reflection (pick args index) (pick args' index) (Value.Mirrors mirror) := by
  have item := same.getElem? index.toInt.toNat
  simp only [pick, same.length_eq]
  split
  · exact .failing rfl (by simp)
  · generalize args[index.toInt.toNat]? = found at item
    generalize args'[index.toInt.toNat]? = found' at item
    cases item with
    | none => exact .failing rfl (by simp)
    | some same => exact .pure same

/-- Lists and tuples have the same length. -/
theorem length_mirrors (op : Native) (same : value.Mirrors mirror reflection value') :
    mirror.Moves reflection (length op value) (length op value') fun _ answer answer' =>
      answer' = answer := by
  have type := same.type_eq
  cases same with
  | list known =>
    refine .read fun machines => ?_
    have length := (machines.items known).length_eq
    simpa only [Array.length_toList] using length
  | tuple items =>
    refine .pure ?_
    exact items.length_eq
  | str => exact .pure rfl
  | nil | bool | int | func | jump | promise =>
    simp only [length, type]
    exact .failing rfl (by simp)

variable {target target' : Value}

/-- Values that are pushed are pushed on both sides, or the target is no list on either. -/
theorem push_mirrors (op : Native) (ofTarget : target.Mirrors mirror reflection target')
    (same : value.Mirrors mirror reflection value') :
    mirror.Moves reflection
      (match target with
        | .list ref => do
          Run.pushItem ref value
          pure (.list ref)
        | other => fail (.typeMismatch op [.list] other.type))
      (match target' with
        | .list ref => do
          Run.pushItem ref value'
          pure (.list ref)
        | other => fail (.typeMismatch op [.list] other.type)) (Value.Mirrors mirror) := by
  have type := ofTarget.type_eq
  cases ofTarget with
  | list known =>
    exact (Mirror.Moves.pushItem known same).bind fun _ _ _ order _ =>
      .pure (.list (order.pairs known))
  | nil | bool | int | str | tuple | func | jump | promise =>
    simp only [type]
    exact .failing rfl (by simp)

/-- The same item is read, of a list or of a tuple. -/
theorem nth_mirrors (op : Native)
    (ofTarget : target.Mirrors mirror reflection target') (index : Int64) :
    mirror.Moves reflection
      (match target with
        | .list ref => do
          let items ← Exec.read fun m : Machine => m.items ref
          pick items.toList index
        | .tuple items => pick items index
        | other => fail (.typeMismatch op [.list, .tuple] other.type))
      (match target' with
        | .list ref => do
          let items ← Exec.read fun m : Machine => m.items ref
          pick items.toList index
        | .tuple items => pick items index
        | other => fail (.typeMismatch op [.list, .tuple] other.type)) (Value.Mirrors mirror) := by
  have type := ofTarget.type_eq
  cases ofTarget with
  | list known =>
    exact (Mirror.Moves.read fun machines => machines.items known).bind fun _ _ _ _ same =>
      pick_mirrors same index
  | tuple same => exact pick_mirrors same index
  | nil | bool | int | str | func | jump | promise =>
    simp only [type]
    exact .failing rfl (by simp)

/-- What natives compute is the same. -/
theorem compute_mirrors (op : Native) (same : ValuesMirror mirror reflection args args') :
    Option.Rel (fun run run' => mirror.Moves reflection run run' (Value.Mirrors mirror))
      (op.compute? args) (op.compute? args') := by
  cases op with
  | print | str | raise | assertEq | force | forceDeep | attempt => exact .none
  | add | mul =>
    refine .some (((ints_mirror _ same).bind fun _ _ _ _ equal => ?_))
    rw [equal]
    exact .pure .int
  | sub =>
    refine .some (((ints_mirror _ same).bind fun _ _ _ _ equal => ?_))
    rw [equal]
    exact difference_mirrors _
  | div | rem => exact .some ((divideInts_mirrors _ _ same))
  | lt | gt | le | ge => exact .some ((compareInts_mirrors _ _ same))
  | eq =>
    refine .some (.read fun machines => ?_)
    simp only [machines.equal_eq same.two.1 same.two.2]
    exact .bool
  | not =>
    refine .some ((.pure ?_))
    rw [same.one.truthy_eq]
    exact .bool
  | list => exact .some ((.newList same))
  | tuple => exact .some ((.pure (.tuple same)))
  | values => exact .some ((.pure same.pack))
  | push => exact .some ((push_mirrors _ same.two.1 same.two.2))
  | len =>
    refine .some (((length_mirrors _ same.one).bind fun _ _ _ _ equal => ?_))
    rw [equal]
    exact .pure .int
  | nth =>
    refine .some (((int_mirrors _ same.two.2).bind fun _ _ _ order equal => ?_))
    rw [equal]
    exact nth_mirrors _ (same.two.1.mono order) _
  | typeOf =>
    refine .some ((.pure ?_))
    rw [same.one.type_eq]
    exact .str

end Native

end Trampoline
