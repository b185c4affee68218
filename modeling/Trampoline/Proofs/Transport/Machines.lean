import Trampoline.Proofs.Extents.Guards
import Trampoline.Proofs.Transport.Values
import Trampoline.Proofs.Need.Machines

/-!
# Machines that mirror each other

Two machines mirror each other if what they keep under numbers that stand for each other is the same
up to numbers, and so are their globals. What both machines do to such numbers at once, and numbers
that both give out at once, leave them so.
-/

namespace Trampoline

variable {mirror : Mirror} {reflection later : Reflection} {m m' next next' : Machine}

/-! ## What machines keep -/

/-- Delayed computations that are the same up to numbers. -/
inductive Thunk.Mirrors (mirror : Mirror) (reflection : Reflection) : Thunk -> Thunk -> Prop where
  | expr {e env env'} (veiled : Bool) : e.All (mirror.Allows veiled) ->
      Env.Mirrors mirror reflection veiled env env' ->
      Mirrors mirror reflection (.expr e env) (.expr e env')
  | global {name} : Mirrors mirror reflection (.global name) (.global name)

/-- Promises in the same state. -/
inductive Promise.Mirrors (mirror : Mirror) (reflection : Reflection) :
    Promise -> Promise -> Prop where
  | pending {thunk thunk'} : thunk.Mirrors mirror reflection thunk' ->
      Mirrors mirror reflection (.pending thunk) (.pending thunk')
  | forcing : Mirrors mirror reflection .forcing .forcing
  | forced {value value'} : value.Mirrors mirror reflection value' ->
      Mirrors mirror reflection (.forced value) (.forced value')

/-- Jumps to callables that are the same, with the same arguments. -/
structure Jump.Mirrors (mirror : Mirror) (reflection : Reflection) (jump jump' : Jump) : Prop where
  target : jump.target.Mirrors mirror reflection jump'.target
  args : ValuesMirror mirror reflection jump.args jump'.args
  kwargs : KwargsMirror mirror reflection jump.kwargs jump'.kwargs
  cc : Option.Rel (Value.Mirrors mirror reflection) jump.cc jump'.cc

/-- Records in the same state. -/
inductive JumpRecord.Mirrors (mirror : Mirror) (reflection : Reflection) :
    JumpRecord -> JumpRecord -> Prop where
  | pending {jump jump'} : jump.Mirrors mirror reflection jump' ->
      Mirrors mirror reflection (.pending jump) (.pending jump')
  | consumed : Mirrors mirror reflection .consumed .consumed

/-- Caches with the same keys. -/
def EntriesMirror (mirror : Mirror) (reflection : Reflection) :
    List CacheEntry -> List CacheEntry -> Prop :=
  List.Forall₂ fun entry entry' =>
    entry'.key = entry.key ∧ entry.value.Mirrors mirror reflection entry'.value

/-- What a machine keeps under one number. -/
inductive Content where
  | cell (value : Value)
  | list (items : List Value)
  | promise (state : Promise)
  | jump (record : JumpRecord)
  | cache (entries : List CacheEntry)
  | extent (valid : Bool)
  | point (running : Bool)
  /-- The number is all there is. -/
  | number

/-- What the machine keeps under a number. -/
def Machine.content (m : Machine) : Store -> Nat -> Content
  | .cell, ref => .cell (m.cell ref)
  | .list, ref => .list (m.items ref).toList
  | .promise, ref => .promise (m.promise ref)
  | .jump, ref => .jump (m.jump ref)
  | .cache, ref => .cache (m.caches.getD ref [])
  | .extent, ref => .extent (m.extents.getD ref false)
  | .point, ref => .point (m.points.getD ref false)
  | .closure, _ | .handle, _ | .continuation, _ | .identity, _ => .number

/-- Contents that are the same up to numbers. -/
inductive Content.Mirrors (mirror : Mirror) (reflection : Reflection) :
    Content -> Content -> Prop where
  | cell {value value'} : value.Mirrors mirror reflection value' ->
      Mirrors mirror reflection (.cell value) (.cell value')
  | list {items items'} : ValuesMirror mirror reflection items items' ->
      Mirrors mirror reflection (.list items) (.list items')
  | promise {state state'} : state.Mirrors mirror reflection state' ->
      Mirrors mirror reflection (.promise state) (.promise state')
  | jump {record record'} : record.Mirrors mirror reflection record' ->
      Mirrors mirror reflection (.jump record) (.jump record')
  | cache {entries entries'} : EntriesMirror mirror reflection entries entries' ->
      Mirrors mirror reflection (.cache entries) (.cache entries')
  | extent {valid valid'} : (mirror.tracked = true -> valid' = valid) ->
      Mirrors mirror reflection (.extent valid) (.extent valid')
  | point {running} : Mirrors mirror reflection (.point running) (.point running)
  | number : Mirrors mirror reflection .number .number

theorem Thunk.Mirrors.mono (order : reflection ≤ later) {thunk thunk' : Thunk}
    (mirrors : thunk.Mirrors mirror reflection thunk') : thunk.Mirrors mirror later thunk' := by
  cases mirrors with
  | expr veiled fits scope => exact .expr veiled fits (scope.mono order)
  | global => exact .global

theorem Promise.Mirrors.mono (order : reflection ≤ later) {state state' : Promise}
    (mirrors : state.Mirrors mirror reflection state') : state.Mirrors mirror later state' := by
  cases mirrors with
  | pending same => exact .pending (same.mono order)
  | forcing => exact .forcing
  | forced same => exact .forced (same.mono order)

/-- Optional values that are related are related in a weaker way. -/
theorem optionRel_imp {α β : Type} {rel weaker : α -> β -> Prop} {value : Option α}
    {value' : Option β} (mirrors : Option.Rel rel value value')
    (implies : ∀ a b, rel a b -> weaker a b) : Option.Rel weaker value value' := by
  cases mirrors with
  | none => exact .none
  | some same => exact .some (implies _ _ same)

theorem Jump.Mirrors.mono (order : reflection ≤ later) {jump jump' : Jump}
    (mirrors : jump.Mirrors mirror reflection jump') : jump.Mirrors mirror later jump' :=
  ⟨mirrors.target.mono order, mirrors.args.mono order, mirrors.kwargs.mono order,
    optionRel_imp mirrors.cc fun _ _ same => same.mono order⟩

theorem JumpRecord.Mirrors.mono (order : reflection ≤ later) {record record' : JumpRecord}
    (mirrors : record.Mirrors mirror reflection record') : record.Mirrors mirror later record' := by
  cases mirrors with
  | pending same => exact .pending (same.mono order)
  | consumed => exact .consumed

theorem EntriesMirror.mono (order : reflection ≤ later) {entries entries' : List CacheEntry}
    (mirrors : EntriesMirror mirror reflection entries entries') :
    EntriesMirror mirror later entries entries' :=
  List.Forall₂.imp (fun _ _ known => ⟨known.1, known.2.mono order⟩) mirrors

theorem Content.Mirrors.mono (order : reflection ≤ later) {content content' : Content}
    (mirrors : content.Mirrors mirror reflection content') :
    content.Mirrors mirror later content' := by
  cases mirrors with
  | cell same => exact .cell (same.mono order)
  | list same => exact .list (same.mono order)
  | promise same => exact .promise (same.mono order)
  | jump same => exact .jump (same.mono order)
  | cache same => exact .cache (same.mono order)
  | extent same => exact .extent same
  | point => exact .point
  | number => exact .number

/-! ## Frames and errors -/

/-- Frames in which code does the same. -/
structure Frame.Mirrors (mirror : Mirror) (reflection : Reflection) (veiled : Bool)
    (frame frame' : Frame) : Prop where
  env : Env.Mirrors mirror reflection veiled frame.env frame'.env
  isLazy : frame'.isLazy = frame.isLazy
  extent : Option.Rel (reflection.pairs .extent) frame.extent frame'.extent

theorem Frame.Mirrors.mono (order : reflection ≤ later) {veiled : Bool} {frame frame' : Frame}
    (mirrors : frame.Mirrors mirror reflection veiled frame') :
    frame.Mirrors mirror later veiled frame' :=
  ⟨mirrors.env.mono order, mirrors.isLazy,
    optionRel_imp mirrors.extent fun _ _ known => order.pairs known⟩

/-- Errors that are the same up to numbers. A capture fails where there are captures only. -/
inductive EvalError.Mirrors (mirror : Mirror) (reflection : Reflection) :
    EvalError -> EvalError -> Prop where
  | plain {error} : error.isEscape = false ->
      (error = .captureOutsideBlock -> ∃ e : Expr, e.isCapture = true ∧ mirror.node e) ->
      Mirrors mirror reflection error error
  | escape {tag tag' value value'} : reflection.pairs .point tag tag' ->
      value.Mirrors mirror reflection value' ->
      Mirrors mirror reflection (.escape tag value) (.escape tag' value')

theorem EvalError.Mirrors.mono (order : reflection ≤ later) {error error' : EvalError}
    (mirrors : error.Mirrors mirror reflection error') : error.Mirrors mirror later error' := by
  cases mirrors with
  | plain noEscape captures => exact .plain noEscape captures
  | escape known same => exact .escape (order.pairs known) (same.mono order)

theorem EvalError.Mirrors.isEscape_eq {error error' : EvalError}
    (mirrors : error.Mirrors mirror reflection error') : error'.isEscape = error.isEscape := by
  cases mirrors <;> rfl

/-! ## Machines -/

/-- Stacks with the same extents above those that were there before. -/
structure Mirror.Stacks (mirror : Mirror) (reflection : Reflection) (stack stack' : List Nat) :
    Prop where
  depth : mirror.depth ≤ stack.length
  depth' : mirror.depth' ≤ stack'.length
  same : List.Forall₂ (reflection.pairs .extent) (stack.drop mirror.depth)
    (stack'.drop mirror.depth')

/-- Machines that are the same up to numbers. -/
structure Machine.Mirrors (mirror : Mirror) (reflection : Reflection) (m m' : Machine) : Prop where
  bounded : ∀ {store a b}, reflection.pairs store a b -> a < m.count store ∧ b < m'.count store
  oneToOne : reflection.OneToOne
  contents : ∀ {store a b}, reflection.pairs store a b ->
    (m.content store a).Mirrors mirror reflection (m'.content store b)
  globals : ∀ name, Option.Rel (Value.Mirrors mirror reflection) (m.global? name) (m'.global? name)
  fixed : ∀ {name value value'}, reflection.fixed name value value' -> mirror.constant name ∧
    m.global? name = some value ∧ m'.global? name = some value'
  held : ∀ {ref value}, reflection.held ref value -> ref < m.cells.size ∧ m.cell ref = value ∧
    ∀ ref', ¬ reflection.pairs .cell ref ref'
  sized : mirror.sized = true -> m'.lists.size = m.lists.size
  aligned : mirror.aligned = true -> ∀ store, m'.count store = m.count store ∧
    (∀ ref, mirror.spare store ref -> ref < m.count store) ∧
    ∀ a b, reflection.pairs store a b ↔ a = b ∧ a < m.count store ∧ ¬ mirror.spare store a
  stack : mirror.tracked = true -> mirror.Stacks reflection m.stack.toList m'.stack.toList
  passed : m.passed = fun error => mirror.lost error || mirror.passed error
  passed' : m'.passed = fun error => mirror.lost' error || mirror.passed error
  closedOutput : m'.closedOutput = m.closedOutput
  output : ∃ text, m.output = mirror.printed ++ text ∧ m'.output = mirror.printed' ++ text

theorem Mirror.Stacks.mono (order : reflection ≤ later) {stack stack' : List Nat}
    (both : mirror.Stacks reflection stack stack') : mirror.Stacks later stack stack' :=
  ⟨both.depth, both.depth', List.Forall₂.imp (fun _ _ known => order.pairs known) both.same⟩

/-- What a machine keeps under no number but on the stack is as it was. -/
structure Machine.Carries (m next : Machine) : Prop where
  globals : next.globals = m.globals
  passed : next.passed = m.passed
  closedOutput : next.closedOutput = m.closedOutput
  output : next.output = m.output

/-- One number more is given out. -/
structure Machine.Gains (store : Store) (m next : Machine) : Prop extends m.Carries next where
  count : ∀ other, next.count other = m.count other + if other = store then 1 else 0
  content : ∀ {other ref}, ref < m.count other -> next.content other ref = m.content other ref

/-- Only what is kept under one number is another. -/
structure Machine.Alters (store : Store) (ref : Nat) (m next : Machine) : Prop
    extends m.Carries next where
  stack : next.stack = m.stack
  count : ∀ other, next.count other = m.count other
  content : ∀ {other ref'}, ¬ (other = store ∧ ref' = ref) ->
    next.content other ref' = m.content other ref'

/-- All that machines are compared by is as it was. -/
structure Machine.Resembles (m next : Machine) : Prop extends m.Carries next where
  stack : next.stack = m.stack
  count : ∀ other, next.count other = m.count other
  content : ∀ {other ref'}, next.content other ref' = m.content other ref'

namespace Machine.Mirrors

/-! ### What is found -/

theorem cell (mirrors : m.Mirrors mirror reflection m') {a b : Nat}
    (known : reflection.pairs .cell a b) : (m.cell a).Mirrors mirror reflection (m'.cell b) := by
  cases mirrors.contents known with
  | cell same => exact same

theorem items (mirrors : m.Mirrors mirror reflection m') {a b : Nat}
    (known : reflection.pairs .list a b) :
    ValuesMirror mirror reflection (m.items a).toList (m'.items b).toList := by
  cases mirrors.contents known with
  | list same => exact same

theorem promise (mirrors : m.Mirrors mirror reflection m') {a b : Nat}
    (known : reflection.pairs .promise a b) :
    (m.promise a).Mirrors mirror reflection (m'.promise b) := by
  cases mirrors.contents known with
  | promise same => exact same

/-- Jumps that stand for each other are in the same state. -/
theorem jump (mirrors : m.Mirrors mirror reflection m') {a b : Nat}
    (known : reflection.pairs .jump a b) : (m.jump a).Mirrors mirror reflection (m'.jump b) := by
  cases mirrors.contents known with
  | jump same => exact same

/-- Caches that stand for each other have the same entries. -/
theorem entries (mirrors : m.Mirrors mirror reflection m') {a b : Nat}
    (known : reflection.pairs .cache a b) :
    EntriesMirror mirror reflection (m.caches.getD a []) (m'.caches.getD b []) := by
  cases mirrors.contents known with
  | cache same => exact same

/-- Extents that stand for each other are valid on both sides or on neither, if that is compared. -/
theorem valid (mirrors : m.Mirrors mirror reflection m') {a b : Nat}
    (known : reflection.pairs .extent a b) (tracked : mirror.tracked = true) :
    m'.extents.getD b false = m.extents.getD a false := by
  have same := mirrors.contents known
  simp only [content] at same
  cases same with
  | extent same => exact same tracked

/-- Points that stand for each other are running on both sides or on neither. -/
theorem running (mirrors : m.Mirrors mirror reflection m') {a b : Nat}
    (known : reflection.pairs .point a b) :
    m'.points.getD b false = m.points.getD a false := by
  have same := mirrors.contents known
  simp only [content] at same
  generalize m.points.getD a false = running at same
  generalize m'.points.getD b false = running' at same
  cases same
  rfl

/-- What no handler lets pass on one side passes on neither. -/
theorem passed_eq (mirrors : m.Mirrors mirror reflection m') {error error' : EvalError}
    (same : error.Mirrors mirror reflection error') (noEscape : error.isEscape = false)
    (kept : mirror.lost error = false) (kept' : mirror.lost' error' = false) :
    m'.passed error' = m.passed error := by
  cases same with
  | plain => simp only [mirrors.passed, mirrors.passed', kept, kept']
  | escape => cases noEscape

/-! ### What both machines do at once -/

/-- A number that both machines give out at once. -/
theorem gain_stack {store : Store} (mirrors : m.Mirrors mirror reflection m')
    (gains : m.Gains store next) (gains' : m'.Gains store next')
    (content : (next.content store (m.count store)).Mirrors mirror
      (reflection.pair store (m.count store) (m'.count store))
      (next'.content store (m'.count store)))
    (stack : mirror.tracked = true -> mirror.Stacks
      (reflection.pair store (m.count store) (m'.count store)) next.stack.toList
        next'.stack.toList) :
    next.Mirrors mirror (reflection.pair store (m.count store) (m'.count store)) next' where
  bounded := by
    rintro other a b (old | ⟨rfl, rfl, rfl⟩)
    · have inside := mirrors.bounded old
      rw [gains.count, gains'.count]
      exact ⟨Nat.lt_add_right _ inside.1, Nat.lt_add_right _ inside.2⟩
    · rw [gains.count, gains'.count]
      simp
  oneToOne := by
    refine ⟨?_⟩
    rintro other a b a' b' (old | ⟨rfl, rfl, rfl⟩) (old' | ⟨same, rfl, rfl⟩)
    · exact mirrors.oneToOne.eq_iff old old'
    · subst same
      have inside := mirrors.bounded old
      exact iff_of_false (Nat.ne_of_lt inside.1) (Nat.ne_of_lt inside.2)
    · have inside := mirrors.bounded old'
      exact iff_of_false (Nat.ne_of_gt inside.1) (Nat.ne_of_gt inside.2)
    · exact iff_of_true rfl rfl
  contents := by
    rintro other a b (old | ⟨rfl, rfl, rfl⟩)
    · have inside := mirrors.bounded old
      rw [gains.content inside.1, gains'.content inside.2]
      exact (mirrors.contents old).mono (reflection.le_pair _ _ _)
    · exact content
  globals name := by
    simp only [global?, gains.globals, gains'.globals]
    exact optionRel_imp (mirrors.globals name) fun _ _ same => same.mono (reflection.le_pair _ _ _)
  fixed known := by
    simp only [global?, gains.globals, gains'.globals]
    exact mirrors.fixed known
  held {ref value} known := by
    obtain ⟨inside, holds, alone⟩ := mirrors.held known
    have larger : m.cells.size ≤ next.cells.size := by
      have count := gains.count .cell
      simp only [Machine.count] at count
      omega
    have kept : next.cell ref = m.cell ref := by
      have same : next.content .cell ref = m.content .cell ref := gains.content inside
      simpa only [Machine.content, Content.cell.injEq] using same
    refine ⟨Nat.lt_of_lt_of_le inside larger, kept.trans holds, ?_⟩
    rintro ref' (old | ⟨rfl, rfl, -⟩)
    · exact alone ref' old
    · exact Nat.lt_irrefl _ inside
  sized alike := by
    have count := gains.count .list
    have count' := gains'.count .list
    have same := mirrors.sized alike
    simp only [Machine.count] at count count'
    omega
  aligned alike other := by
    obtain ⟨same, spare, pairs⟩ := mirrors.aligned alike other
    rw [gains.count, gains'.count, same]
    refine ⟨rfl, fun ref known => Nat.lt_add_right _ (spare ref known), fun a b => ?_⟩
    simp only [Reflection.pair, pairs]
    by_cases here : other = store
    · subst here
      rw [same, if_pos rfl]
      constructor
      · rintro (⟨rfl, inside, kept⟩ | ⟨-, rfl, rfl⟩)
        · exact ⟨rfl, Nat.lt_succ_of_lt inside, kept⟩
        · exact ⟨rfl, Nat.lt_succ_self _, fun known => Nat.lt_irrefl _ (spare _ known)⟩
      · rintro ⟨rfl, inside, kept⟩
        rcases Nat.lt_succ_iff_lt_or_eq.mp inside with less | rfl
        · exact .inl ⟨rfl, less, kept⟩
        · exact .inr ⟨rfl, rfl, rfl⟩
    · simp [here]
  stack := stack
  passed := gains.passed.trans mirrors.passed
  passed' := gains'.passed.trans mirrors.passed'
  closedOutput := by rw [gains.closedOutput, gains'.closedOutput, mirrors.closedOutput]
  output := by
    rw [gains.output, gains'.output]
    exact mirrors.output

/-- Machines that gain the same content under new numbers stay the same up to numbers. -/
theorem gain {store : Store} (mirrors : m.Mirrors mirror reflection m')
    (gains : m.Gains store next) (gains' : m'.Gains store next') (stack : next.stack = m.stack)
    (stack' : next'.stack = m'.stack)
    (content : (next.content store (m.count store)).Mirrors mirror
      (reflection.pair store (m.count store) (m'.count store))
      (next'.content store (m'.count store))) :
    next.Mirrors mirror (reflection.pair store (m.count store) (m'.count store)) next' := by
  refine mirrors.gain_stack gains gains' content fun tracked => ?_
  rw [stack, stack']
  exact (mirrors.stack tracked).mono (reflection.le_pair _ _ _)

/-- What both machines write at once under numbers that stand for each other. -/
theorem alter {store : Store} {ref ref' : Nat} (mirrors : m.Mirrors mirror reflection m')
    (known : reflection.pairs store ref ref') (alters : m.Alters store ref next)
    (alters' : m'.Alters store ref' next')
    (content : (next.content store ref).Mirrors mirror reflection (next'.content store ref')) :
    next.Mirrors mirror reflection next' where
  bounded known := by
    rw [alters.count, alters'.count]
    exact mirrors.bounded known
  oneToOne := mirrors.oneToOne
  contents {other a b} pair := by
    by_cases here : other = store ∧ a = ref
    · obtain ⟨rfl, rfl⟩ := here
      obtain rfl := (mirrors.oneToOne.eq_iff pair known).mp rfl
      exact content
    · have there : ¬ (other = store ∧ b = ref') := by
        rintro ⟨rfl, rfl⟩
        exact here ⟨rfl, (mirrors.oneToOne.eq_iff pair known).mpr rfl⟩
      rw [alters.content here, alters'.content there]
      exact mirrors.contents pair
  globals name := by
    simp only [global?, alters.globals, alters'.globals]
    exact mirrors.globals name
  fixed known := by
    simp only [global?, alters.globals, alters'.globals]
    exact mirrors.fixed known
  held {cell value} isHeld := by
    obtain ⟨inside, holds, alone⟩ := mirrors.held isHeld
    have there : ¬ (Store.cell = store ∧ cell = ref) := by
      rintro ⟨rfl, rfl⟩
      exact alone ref' known
    have count := alters.count .cell
    have kept := alters.content there
    simp only [Machine.content, Content.cell.injEq, Machine.count] at kept count
    exact ⟨count ▸ inside, kept.trans holds, alone⟩
  sized alike := by
    have count := alters.count .list
    have count' := alters'.count .list
    simp only [Machine.count] at count count'
    rw [count, count', mirrors.sized alike]
  aligned alike other := by
    rw [alters.count, alters'.count]
    exact mirrors.aligned alike other
  stack tracked := by
    rw [alters.stack, alters'.stack]
    exact mirrors.stack tracked
  passed := alters.passed.trans mirrors.passed
  passed' := alters'.passed.trans mirrors.passed'
  closedOutput := by rw [alters.closedOutput, alters'.closedOutput, mirrors.closedOutput]
  output := by
    rw [alters.output, alters'.output]
    exact mirrors.output

/-- Nothing is compared by the trace. -/
theorem resembling (mirrors : m.Mirrors mirror reflection m') (same : m.Resembles next)
    (same' : m'.Resembles next') : next.Mirrors mirror reflection next' where
  bounded known := by
    rw [same.count, same'.count]
    exact mirrors.bounded known
  oneToOne := mirrors.oneToOne
  contents known := by
    rw [same.content, same'.content]
    exact mirrors.contents known
  globals name := by
    simp only [global?, same.globals, same'.globals]
    exact mirrors.globals name
  fixed known := by
    simp only [global?, same.globals, same'.globals]
    exact mirrors.fixed known
  held {cell value} isHeld := by
    have count := same.count .cell
    have kept : next.content .cell cell = m.content .cell cell := same.content
    simp only [Machine.content, Content.cell.injEq, Machine.count] at kept count
    rw [count, kept]
    exact mirrors.held isHeld
  sized alike := by
    have count := same.count .list
    have count' := same'.count .list
    simp only [Machine.count] at count count'
    rw [count, count', mirrors.sized alike]
  aligned alike other := by
    rw [same.count, same'.count]
    exact mirrors.aligned alike other
  stack tracked := by
    rw [same.stack, same'.stack]
    exact mirrors.stack tracked
  passed := same.passed.trans mirrors.passed
  passed' := same'.passed.trans mirrors.passed'
  closedOutput := by rw [same.closedOutput, same'.closedOutput, mirrors.closedOutput]
  output := by
    rw [same.output, same'.output]
    exact mirrors.output

/-- A global that is not fixed gets another value. -/
theorem define (mirrors : m.Mirrors mirror reflection m') {name : String}
    (free : ¬ mirror.constant name) {value value' : Value}
    (same : value.Mirrors mirror reflection value') :
    (m.define name value).Mirrors mirror reflection (m'.define name value') where
  bounded := mirrors.bounded
  oneToOne := mirrors.oneToOne
  contents {store a b} known := by
    have same := mirrors.contents known
    cases store <;> exact same
  globals other := by
    simp only [global?, Machine.define, ByName.lookup_setGlobal]
    by_cases here : other = name
    · simpa only [if_pos here] using .some same
    · simp only [if_neg here]
      exact mirrors.globals other
  fixed {other value value'} known := by
    obtain ⟨constant, found, found'⟩ := mirrors.fixed known
    have differs : other ≠ name := by
      rintro rfl
      exact free constant
    simp only [global?, Machine.define, ByName.lookup_setGlobal, if_neg differs]
    exact ⟨constant, found, found'⟩
  held := mirrors.held
  sized := mirrors.sized
  aligned := mirrors.aligned
  stack := mirrors.stack
  passed := mirrors.passed
  passed' := mirrors.passed'
  closedOutput := mirrors.closedOutput
  output := mirrors.output

/-- The same text is printed. -/
theorem print (mirrors : m.Mirrors mirror reflection m') (text : String) :
    Machine.Mirrors mirror reflection { m with output := m.output ++ text }
      { m' with output := m'.output ++ text } :=
  { mirrors with
    contents := fun {store _ _} known => by
      have same := mirrors.contents known
      cases store <;> exact same
    output := by
      obtain ⟨before, printed, printed'⟩ := mirrors.output
      exact ⟨before ++ text, by rw [printed, String.append_assoc],
        by rw [printed', String.append_assoc]⟩ }

end Machine.Mirrors

/-! ## The ends of guarded operations -/

/-- A guarded operation invalidates what was captured inside it if it fails. -/
theorem Exec.guardedState_eq {α : Type} (mark : Nat) (result : Except EvalError α) (m : Machine) :
    guardedState mark (result, m) =
      if isFailure result then (m.invalidateFrom mark).unwindTo mark else m.unwindTo mark := by
  rcases result with error | value
  · cases escapes : error.isEscape <;> simp [guardedState, isFailure, escapes]
  · rfl

namespace Machine.Mirrors

variable {first first' : Machine}

/-- Both machines take the extents off their stacks that have come since. -/
theorem unwind (before : first.Mirrors mirror reflection first') (order : reflection ≤ later)
    (mirrors : m.Mirrors mirror later m') :
    (m.unwindTo first.stack.size).Mirrors mirror later (m'.unwindTo first'.stack.size) :=
  { mirrors with
    contents := fun {store _ _} known => by
      have same := mirrors.contents known
      cases store <;> exact same
    stack := by
      intro tracked
      have earlier := (before.stack tracked).mono order
      have now := mirrors.stack tracked
      have same := earlier.same.length_eq
      simp only [List.length_drop, Array.length_toList] at same
      have depth := earlier.depth
      have depth' := earlier.depth'
      have aligned : first'.stack.size - mirror.depth' = first.stack.size - mirror.depth :=
        same.symm
      simp only [Array.length_toList] at depth depth'
      simp only [unwindTo, Array.toList_shrink]
      refine ⟨?_, ?_, ?_⟩
      · rw [List.length_take]
        exact Nat.le_min.mpr ⟨depth, now.depth⟩
      · rw [List.length_take]
        exact Nat.le_min.mpr ⟨depth', now.depth'⟩
      · rw [List.drop_take, List.drop_take, aligned]
        exact List.forall₂_take _ now.same }

/-- A number stands in a list exactly if its counterpart does in the other list. -/
theorem contains_eq (mirrors : m.Mirrors mirror reflection m') {store : Store}
    {refs refs' : List Nat}
    (same : List.Forall₂ (reflection.pairs store) refs refs') {a b : Nat}
    (known : reflection.pairs store a b) : refs'.contains b = refs.contains a := by
  induction same with
  | nil => rfl
  | cons first _ ih =>
    rw [List.contains_cons, List.contains_cons, ih, mirrors.oneToOne.beq_eq known first]

/-- The extents that have come since become invalid in both machines. -/
theorem invalidate (before : first.Mirrors mirror reflection first') (order : reflection ≤ later)
    (mirrors : m.Mirrors mirror later m') :
    (m.invalidateFrom first.stack.size).Mirrors mirror later
      (m'.invalidateFrom first'.stack.size) := by
  have count (machine : Machine) (mark : Nat) (store : Store) :
      (machine.invalidateFrom mark).count store = machine.count store := by
    cases store <;>
      simp only [Machine.count, invalidateFrom, Machine.Disposes.size_invalidate]
  refine { mirrors with
    bounded := fun known => ?_
    contents := fun {store a b} known => ?_
    aligned := fun alike store => ?_ }
  · rw [count, count]
    exact mirrors.bounded known
  · cases store with
    | extent =>
      refine .extent fun tracked => ?_
      have earlier := (before.stack tracked).mono order
      have now := mirrors.stack tracked
      have same := earlier.same.length_eq
      simp only [List.length_drop, Array.length_toList] at same
      have depth := earlier.depth
      have depth' := earlier.depth'
      simp only [Array.length_toList] at depth depth'
      -- what is dropped are the extents above both marks, which correspond
      have dropped : List.Forall₂ (later.pairs .extent) (m.stack.toList.drop first.stack.size)
          (m'.stack.toList.drop first'.stack.size) := by
        have rest := List.forall₂_drop (first.stack.size - mirror.depth) now.same
        rw [List.drop_drop, List.drop_drop] at rest
        have mark : mirror.depth + (first.stack.size - mirror.depth) = first.stack.size := by omega
        have mark' : mirror.depth' + (first.stack.size - mirror.depth) = first'.stack.size := by
          omega
        rwa [mark, mark'] at rest
      simp only [invalidateFrom, Disposes.getD_invalidate, mirrors.contains_eq dropped known,
        mirrors.valid known tracked]
    | _ =>
      have same := mirrors.contents known
      exact same
  · rw [count, count]
    exact mirrors.aligned alike store

/-- Guarded operations that end in the same way leave mirroring machines. -/
theorem leave {α β : Type} (before : first.Mirrors mirror reflection first')
    (order : reflection ≤ later) (mirrors : m.Mirrors mirror later m')
    {result : Except EvalError α} {result' : Except EvalError β}
    (same : Exec.isFailure result' = Exec.isFailure result) :
    (Exec.guardedState first.stack.size (result, m)).Mirrors mirror later
      (Exec.guardedState first'.stack.size (result', m')) := by
  rw [Exec.guardedState_eq, Exec.guardedState_eq, same]
  split
  · exact before.unwind order (before.invalidate order mirrors)
  · exact before.unwind order mirrors

end Machine.Mirrors

end Trampoline
