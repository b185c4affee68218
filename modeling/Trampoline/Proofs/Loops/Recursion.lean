import Trampoline.Proofs.Loops.Basic
import Trampoline.Proofs.Positions.Scopes
import Trampoline.Proofs.Transport.Alone

/-!
# Loops run as recursive functions do

A loop that returns a call of its handle leaves a jump behind, which its trampoline takes as the
next round; the recursive function makes the call at once. Round by round both do the same to
machines that mirror each other, of which the first has the handle in a cell of its own and the jump
under a number of its own.
-/

namespace Trampoline

open Exec

/-- The errors that loops and recursive functions may differ by. -/
def EvalError.tellsLoops : EvalError -> Bool
  | .arity .. | .missingArgument .. | .unexpectedKeyword .. | .continuationInvalidated => true
  | _ => false

/-- The loop and the recursive function are made, and are what the name stands for. -/
structure Reflection.Knows (reflection : Reflection) (name : String) (function : Function)
    (ref ref' : Nat) : Prop where
  pair : reflection.pairs .closure ref ref'
  fixed : reflection.fixed name (.func (.looped (.closure ref function [])))
    (.func (.closure ref' (function.unloop name) []))

variable {name handle : String} {function : Function} {reflection later : Reflection}
  {m m' middle middle' : Machine} {ref ref' : Nat}

theorem Reflection.Knows.mono (knows : reflection.Knows name function ref ref')
    (order : reflection ≤ later) : later.Knows name function ref ref' :=
  ⟨order.pairs knows.pair, order.fixed knows.fixed⟩

/-- The recursive function has the number of the loop. -/
theorem Function.unloop_id (name : String) (function : Function) :
    (function.unloop name).signature.id = function.signature.id := by
  unfold Function.unloop
  split <;> rfl

/-- A program with a loop mirrors the program with the recursive function in its place. -/
def Mirror.looping (name handle : String) (function : Function) : Mirror where
  lost := EvalError.tellsLoops
  lost' := EvalError.tellsLoops
  passed _ := false
  tracked := false
  sized := true
  aligned := false
  spare _ _ := False
  node e := e.assigns name = false
  hides := (· = handle)
  constant := (· = name)
  special reflection callable callable' := ∃ ref ref', reflection.Knows name function ref ref' ∧
    callable = .looped (.closure ref function []) ∧
    callable' = .closure ref' (function.unloop name) []
  printed := ""
  printed' := ""
  depth := 0
  depth' := 0
  special_le := by
    rintro _ _ _ _ order ⟨ref, ref', knows, same⟩
    exact ⟨ref, ref', knows.mono order, same⟩
  special_resembles := by
    rintro _ _ _ ⟨ref, ref', knows, rfl, rfl⟩
    exact ⟨rfl, rfl, rfl, by simp only [Callable.label, Function.unloop_id], .closure knows.pair⟩
  special_bare := by
    rintro _ _ _ ⟨ref, ref', knows, rfl, rfl⟩
    exact ⟨rfl, rfl⟩
  assigns_none := by
    rintro _ other _ kept rfl
    simp [Expr.assigns] at kept
  lost_stays {error} lost := by cases error <;> first | rfl | cases lost
  lost_stays' {error} lost := by cases error <;> first | rfl | cases lost
  invalidated_lost _ := rfl
  invalidated_lost' _ := rfl

/-! ## Frames -/

/-- Frames of the loop and of the recursive function, in the same place of the same round. -/
structure Frame.Stands (name handle : String) (function : Function) (ref ref' : Nat)
    (reflection : Reflection) (frame frame' : Frame) : Prop where
  knows : reflection.Knows name function ref ref'
  mirrors : frame.Mirrors (.looping name handle function) reflection true frame'
  holds : ∃ cell token, frame.env.lookup handle = some cell ∧
    reflection.held cell (.func (.loopHandle token (.closure ref function [])))
  free : frame'.env.lookup name = none

/-- The expression has nothing to do with the handle and does not shadow the name. -/
structure Expr.Tame (name handle : String) (e : Expr) : Prop where
  names : handle ∉ e.names
  binders : name ∉ e.binders
  assigns : e.assigns name = false

variable {e : Expr} {task : Task} {answer : task.Answer} {other : String} {frame : Frame}

/-- What has nothing to do with the handle may stand on both sides. -/
theorem Expr.Tame.allows (tame : e.Tame name handle) :
    (Mirror.looping name handle function).Allows true e := by
  refine ⟨tame.assigns, ?_⟩
  rintro - other member rfl
  exact tame.names member

/-- An expression all of whose parts are tame may stand on both sides. -/
theorem Expr.All.allows (tame : e.All (Expr.Tame name handle)) :
    e.All ((Mirror.looping name handle function).Allows true) :=
  tame.imp fun _ _ tame => tame.allows

theorem AllOf.allows {es : List Expr} (tame : AllOf (Expr.Tame name handle) es) :
    AllOf ((Mirror.looping name handle function).Allows true) es :=
  fun node member => (tame node member).allows

/-- So may tame keyword arguments. -/
theorem AllOfKwargs.allows {kwargs : List (String × Expr)}
    (tame : AllOfKwargs (Expr.Tame name handle) kwargs) :
    AllOfKwargs ((Mirror.looping name handle function).Allows true) kwargs :=
  fun node member => (tame node member).allows

/-- A task of a body that binds neither name keeps what they stand for. -/
theorem Task.lookup_eq (ofBody : task.isOfBody = true)
    (ran : task.full m = some (.ok answer, middle)) (free : ¬ Binds task.exprs other) :
    (task.endScope answer).lookup other = task.scope.lookup other := by
  obtain ⟨n, ran⟩ := Task.full_eq_some.mp ran
  exact ((Task.staysIn n task m ofBody).ends answer middle ran).lookup_eq free

/-- Tasks of the bodies that have nothing to do with the handle lead from frames that stand for each
other to others that do. -/
theorem Frame.Stands.after {frame' next next' : Frame}
    (stands : Frame.Stands name handle function ref ref' reflection frame frame')
    (order : reflection ≤ later)
    (mirrors : next.Mirrors (.looping name handle function) later true next') {task' : Task}
    {answer' : task'.Answer} (ran : task.full m = some (.ok answer, middle))
    (ran' : task'.full m' = some (.ok answer', middle'))
    (ofBody : task.isOfBody = true) (ofBody' : task'.isOfBody = true)
    (tame : AllOf (Expr.Tame name handle) task.exprs) (exprs : task'.exprs = task.exprs)
    (scope : task.scope = frame.env) (scope' : task'.scope = frame'.env)
    (ends : task.endScope answer = next.env) (ends' : task'.endScope answer' = next'.env) :
    Frame.Stands name handle function ref ref' later next next' where
  knows := stands.knows.mono order
  mirrors := mirrors
  holds := by
    obtain ⟨cell, token, found, held⟩ := stands.holds
    have kept := Task.lookup_eq ofBody ran fun ⟨mark, bindee, member⟩ =>
      (tame _ member).names List.mem_cons_self
    rw [ends, scope] at kept
    exact ⟨cell, token, kept.trans found, order.held held⟩
  free := by
    have kept : (task'.endScope answer').lookup name = task'.scope.lookup name :=
      Task.lookup_eq ofBody' ran' fun ⟨mark, bindee, member⟩ =>
        (tame _ (exprs ▸ member)).binders List.mem_cons_self
    rw [ends', scope'] at kept
    exact kept.trans stands.free

/-! ## What comes after the end of a body -/

/-- How the ends of a body are gone on with. On the one side the jumps of the loop are run; on the
other what calls of the recursive function come to is the result already. -/
structure Mirror.Drives (mirror : Mirror) (watch : Watch) (settled : Value -> Prop) (n : Nat)
    (own : Prop) (next next' : Value × Frame -> Plan Value) : Prop where
  jump : own -> ∀ record frame, (next (.jump record, frame)).chain.cut n ≤
    (Task.runJumps .strict (.jump record)).chain.cut n
  pass : own -> ∀ value frame, settled value -> (next' (value, frame)).chain.cut n ≤ pure value
  value : ∀ {reflection value value' frame frame' m m'}, value.Mirrors mirror reflection value' ->
    m.Mirrors mirror reflection m' -> (next' (value', frame')).Suits watch settled m' ->
    mirror.Joins n reflection (next (value, frame)) (next' (value', frame')) m m'

namespace Mirror.Drives

variable {mirror : Mirror} {watch : Watch} {settled : Value -> Prop} {n : Nat} {own inner : Prop}
  {next next' : Value × Frame -> Plan Value}

/-- At the end of the body, jumps are run. -/
theorem rounds (noJump : ∀ value, settled value -> ∀ ref, value ≠ .jump ref) :
    mirror.Drives watch settled n True (fun answer => .sub (.runJumps .strict answer.1))
      fun answer => .done answer.1 where
  jump _ record _ := by
    simp only [Joins.cut_ask, Joins.cut_done, bind_pure]
    exact Bounded.le_refl _
  pass _ value _ _ := Bounded.le_of_eq (Joins.cut_done value n)
  value {reflection value value' frame frame' m m'} same machines suits := by
    have settles : settled value' := suits.ends rfl
    have plain : ∀ ref, value ≠ .jump ref := by
      rintro ref rfl
      cases same with
      | jump => exact noJump _ settles _ rfl
    refine .open_left ?_
    have ended : (Task.runJumps .strict value).plan = pure value := by
      cases value with
      | jump ref => exact absurd rfl (plain ref)
      | _ => rfl
    rw [ended]
    exact .done same machines

/-- At the end of a block, its names are dropped. -/
theorem seq (drives : mirror.Drives watch settled n own next next') (env env' : Env) :
    mirror.Drives watch settled n own (fun answer => next (answer.1, { answer.2 with env := env }))
      fun answer => next' (answer.1, { answer.2 with env := env' }) where
  jump isOwn record _ := drives.jump isOwn record _
  pass isOwn value _ settles := drives.pass isOwn value _ settles
  value same machines suits := drives.value same machines suits

/-- After the last item of a block there is nothing left to evaluate. -/
theorem items (drives : mirror.Drives watch settled n own next next') :
    mirror.Drives watch settled n own (fun answer => .ask (.evalItems [] answer.1 answer.2) next)
      fun answer => .ask (.evalItems [] answer.1 answer.2) next' where
  jump isOwn record frame := Bounded.le_trans (Joins.cut_open _ n) (drives.jump isOwn record frame)
  pass isOwn value frame settles :=
    Bounded.le_trans (Joins.cut_open _ n) (drives.pass isOwn value frame settles)
  value same machines suits := .open_left (.open_right (drives.value same machines suits.opened))

/-- The last operand of a connective is forced. -/
theorem short (drives : mirror.Drives watch settled n own next next')
    (performs : mirror.Performs .all watch n) (op : Connective) (within : inner -> own)
    (noPromise : inner -> ∀ value, settled value -> ∀ ref, value ≠ .promise ref) :
    mirror.Drives watch settled n inner (fun answer => .ask (.force answer.1) fun value =>
        (if value.truthy = (op = .or) then pure (value, answer.2)
        else Plan.sub (.evalShort op [] value answer.2)) >>= next)
      fun answer => .ask (.force answer.1) fun value =>
        (if value.truthy = (op = .or) then pure (value, answer.2)
        else Plan.sub (.evalShort op [] value answer.2)) >>= next' where
  jump inside record frame := by
    refine Bounded.le_trans (Joins.cut_open _ n) ?_
    refine Bounded.le_trans ?_ (drives.jump (within inside) record frame)
    show Chain.cut (Plan.chain ((if _ then _ else _) >>= next)) n ≤ _
    split
    · exact Bounded.le_refl _
    · exact Joins.cut_open _ n
  pass inside value frame settles := by
    refine Bounded.le_trans (Joins.cut_open _ n) ?_
    refine Bounded.le_trans ?_ (drives.pass (within inside) value frame settles)
    have plain : (Task.force value).plan = pure value := by
      cases value with
      | promise ref => exact absurd rfl (noPromise inside _ settles ref)
      | _ => rfl
    rw [plain]
    show Chain.cut (Plan.chain ((if _ then _ else _) >>= next')) n ≤ _
    split
    · exact Bounded.le_refl _
    · exact Joins.cut_open _ n
  value same machines suits := by
    refine .ask performs (.force same) machines trivial suits.visits ?_
    intro later value value' middle middle' _ same machines _ ran'
    have suits := suits.after ran'
    rw [same.truthy_eq] at suits ⊢
    by_cases decides : (value.truthy = true) = (op = .or)
    · simp only [if_pos decides] at suits ⊢
      exact drives.value same machines suits
    · simp only [if_neg decides] at suits ⊢
      exact .open_left (.open_right (drives.value same machines suits.opened))

end Mirror.Drives

/-! ## Rounds -/

/-- Names that stand for functions come to them. -/
theorem full_evalForced_var {callable : Callable} (mark : Mark)
    (found : Body.run (Body.lookup other) frame m = some (.ok (.func callable), m)) :
    (Task.evalForced (.var mark other) frame).full m =
      some (.ok (.func callable, frame), m) := by
  have forced : (Task.force (.func callable)).full m = some (.ok (.func callable), m) :=
    full_force fun _ same => by cases same
  have named : (Task.eval (.var mark other) frame).full m =
      some (.ok (.func callable, frame), m) := by
    rw [Task.full_eq]
    refine (Plan.run_lift_bind found).trans ?_
    split
    · exact Plan.run_sub_bind forced
    · rfl
  rw [Task.full_eq, Task.plan, Plan.run_sub_bind named]
  exact Plan.run_sub_bind forced

/-- How a call is evaluated and gone on with. -/
theorem Task.plan_call_bind (mark : Mark) (func : Expr) (args : List Expr)
    (kwargs : List (String × Expr)) (frame : Frame) (next : Value × Frame -> Plan Value) :
    (Task.eval (.call mark func args kwargs) frame).plan >>= next =
      .ask (.evalForced func frame) fun answer => .step answer.1.callable fun callee =>
        let policy := if answer.2.isLazy && callee.isLazy then Policy.delay else .strict
        .ask (.operands policy args answer.2) fun values => .ask (.keywords policy kwargs values.2)
          fun named => .ask (.apply callee values.1 named.1) fun value => next (value, named.2) :=
            rfl

/-- The next round of the loop comes to what the call of the recursive function comes to. -/
def Function.GoesRound (function : Function) (name handle : String) (watch : Watch)
    (n ref ref' : Nat) :
    Prop :=
  ∀ ⦃reflection m m' token record args args' kwargs kwargs'⦄,
    reflection.Knows name function ref ref' ->
    m.Mirrors (.looping name handle function) reflection m' ->
    ValuesMirror (.looping name handle function) reflection args args' ->
    KwargsMirror (.looping name handle function) reflection kwargs kwargs' ->
    m.jump record = .pending ⟨.closure ref function [],
      .func (.loopHandle token (.closure ref function [])) :: args, kwargs, none⟩ ->
    (∀ record', ¬ reflection.pairs .jump record record') ->
    watch.visits (.apply (.closure ref' (function.unloop name) []) args' kwargs') m' ->
    (Mirror.looping name handle function).Agrees reflection
      ((Task.runJumps .strict (.jump record)).chain.cut n)
      ((Task.apply (.closure ref' (function.unloop name) []) args' kwargs').chain.cut n) m m'
      (Value.Mirrors (.looping name handle function))

/-- What returned calls on a path ask of the ends that they lead to: that jumps are run there, and
that nothing is forced behind them. -/
def FitsEnds (handle : String) (own noPromise : Prop) (path : List Expr) : Prop :=
  ∀ node ∈ path, (node.isCallTo [handle] = true -> own) ∧
    (node.isShort = true -> ∀ inner ∈ node.tailPath, inner.isCallTo [handle] = true -> noPromise)

/-- The loop keeps pace with the recursive function below the fuel: tasks do the same on both sides,
each round comes to what a call comes to, and what calls come to is settled. -/
structure Function.KeepsPace (function : Function) (name handle : String) (watch : Watch)
    (settled : Value -> Prop) (n ref ref' : Nat) : Prop where
  performs : (Mirror.looping name handle function).Performs .all watch n
  round : function.GoesRound name handle watch n ref ref'
  settles : ∀ {args kwargs m value last},
    watch.visits (.apply (.closure ref' (function.unloop name) []) args kwargs) m ->
    (Task.apply (.closure ref' (function.unloop name) []) args kwargs).full m =
      some (.ok value, last) -> settled value

section Ends

variable {watch : Watch} {settled : Value -> Prop} {n : Nat} {own : Prop}
  {next next' : Value × Frame -> Plan Value} {frame frame' : Frame}
  (pace : function.KeepsPace name handle watch settled n ref ref')
include pace

/-- The jump that the handle leaves, and the call that the function makes at once. -/
theorem jump_joins {token : Nat} {args args' : List Value} {kwargs kwargs' : Kwargs}
    (drives : (Mirror.looping name handle function).Drives watch settled n own next next')
    (isOwn : own) (machines : m.Mirrors (.looping name handle function) reflection m')
    (knows : reflection.Knows name function ref ref')
    (values : ValuesMirror (.looping name handle function) reflection args args')
    (named : KwargsMirror (.looping name handle function) reflection kwargs kwargs')
    (suits : (Plan.ask (.apply (.closure ref' (function.unloop name) []) args' kwargs')
      fun value => next' (value, frame')).Suits watch settled m') :
    (Mirror.looping name handle function).Joins n reflection
      (.ask (.apply (.loopHandle token (.closure ref function [])) args kwargs)
        fun value => next (value, frame))
      (.ask (.apply (.closure ref' (function.unloop name) []) args' kwargs')
        fun value => next' (value, frame')) m m' := by
  let jump : Jump := ⟨.closure ref function [],
    .func (.loopHandle token (.closure ref function [])) :: args, kwargs, none⟩
  have jumps : (Task.apply (.loopHandle token (.closure ref function [])) args kwargs).full m =
      some (.ok (.jump m.jumps.size), { m with jumps := m.jumps.push (.pending jump) }) := by
    rw [Task.full_eq]
    rfl
  have waits : Machine.jump { m with jumps := m.jumps.push (.pending jump) } m.jumps.size =
      .pending jump := by simp [Machine.jump]
  refine .ask_left jumps ?_
  have agrees := pace.round knows
    (machines.gain_alone rfl rfl (m.gains_jump (.pending jump)) (by simp)) values named waits
    (fun _ known => Nat.lt_irrefl _ (machines.bounded known).1) suits.visits
  -- what the call comes to is settled, so that going on with it changes nothing
  rw [Mirror.Joins, Mirror.Joins.cut_ask, ← bind_pure ((next _).chain.cut n)]
  refine ((agrees.mono (drives.jump isOwn _ _) (Bounded.le_refl _)).bind (Chain.cut_below _ n)
    (Chain.cut_below _ n) ?_)
  intro later value value' middle middle' _ same machines _ ran'
  have settles := pace.settles suits.visits ran'
  exact (Mirror.Agrees.pure same machines).mono (Bounded.le_refl _) (drives.pass isOwn _ _ settles)

/-- An expression that has nothing to do with the handle. -/
theorem tame_joins {e : Expr} (tame : e.All (Expr.Tame name handle))
    (drives : (Mirror.looping name handle function).Drives watch settled n own next next')
    (machines : m.Mirrors (.looping name handle function) reflection m')
    (stands : Frame.Stands name handle function ref ref' reflection frame frame')
    (suits : (Plan.ask (.eval e frame') next').Suits watch settled m') :
    (Mirror.looping name handle function).Joins n reflection
      (.ask (.eval e frame) next) (.ask (.eval e frame') next') m m' :=
  .ask pace.performs (.eval true tame.allows stands.mirrors) machines trivial suits.visits
    fun _ _ _ _ _ _ known machines _ ran' => drives.value known.1 machines (suits.after ran')

/-- A call of the handle on the one side, and of the function on the other. -/
theorem ownCall_joins {mark inner : Mark} {args : List Expr} {kwargs : List (String × Expr)}
    (tameArgs : AllOf (Expr.Tame name handle) args)
    (tameKwargs : AllOfKwargs (Expr.Tame name handle) kwargs)
    (drives : (Mirror.looping name handle function).Drives watch settled n own next next')
    (isOwn : own) (machines : m.Mirrors (.looping name handle function) reflection m')
    (stands : Frame.Stands name handle function ref ref' reflection frame frame')
    (suits : (Plan.ask (.eval (.call mark (.var inner name) args kwargs) frame') next').Suits
      watch settled m') :
    (Mirror.looping name handle function).Joins n reflection
      (.ask (.eval (.call mark (.var inner handle) args kwargs) frame) next)
      (.ask (.eval (.call mark (.var inner name) args kwargs) frame') next') m m' := by
  obtain ⟨cell, token, found, held⟩ := stands.holds
  have callee : (Task.evalForced (.var inner handle) frame).full m =
      some (.ok (.func (.loopHandle token (.closure ref function [])), frame), m) :=
    full_evalForced_var inner (by simp [Body.run, Body.lookup, found, (machines.held held).2.1])
  have callee' : (Task.evalForced (.var inner name) frame').full m' =
      some (.ok (.func (.closure ref' (function.unloop name) []), frame'), m') :=
    full_evalForced_var inner
      (by simp [Body.run, Body.lookup, stands.free, (machines.fixed stands.knows.fixed).2.2])
  have suits := suits.opened
  rw [Task.plan_call_bind] at suits
  refine .open_left (.open_right ?_)
  rw [Task.plan_call_bind, Task.plan_call_bind]
  refine .ask_left callee (.ask_right callee' ?_)
  refine .step_left rfl (.step_right rfl ?_)
  have suits := (suits.after callee').step (rfl : Value.callable (.func _) m' = _)
  simp only [Callable.isLazy] at suits ⊢
  rw [stands.mirrors.isLazy] at suits ⊢
  refine .ask pace.performs (.operands true tameArgs.allows stands.mirrors) machines trivial
    suits.visits ?_
  rintro later ⟨values, frame₁⟩ ⟨values', frame₁'⟩ m₁ m₁' order ⟨same, frames⟩ machines ran ran'
  have stands := stands.after order frames ran ran' rfl rfl tameArgs rfl rfl rfl rfl rfl
  have suits := suits.after ran'
  refine .ask pace.performs (.keywords true tameKwargs.allows stands.mirrors) machines trivial
    suits.visits ?_
  rintro latest ⟨named, frame₂⟩ ⟨named', frame₂'⟩ m₂ m₂' order' ⟨alike, -⟩ machines ran ran'
  exact jump_joins pace drives isOwn machines (stands.knows.mono order') (same.mono order') alike
    (suits.after ran')

mutual

/-- To its ends, a body of the loop does what the body of the recursive function does. -/
theorem Expr.ends_join : ∀ (e : Expr) {own : Prop} {next next' : Value × Frame -> Plan Value}
    {reflection : Reflection} {m m' : Machine} {frame frame' : Frame},
    (e.unloop handle name).All (Expr.Tame name handle) ->
    FitsEnds handle own (∀ value, settled value -> ∀ ref, value ≠ .promise ref) e.tailPath ->
    (Mirror.looping name handle function).Drives watch settled n own next next' ->
    m.Mirrors (.looping name handle function) reflection m' ->
    Frame.Stands name handle function ref ref' reflection frame frame' ->
    (Plan.ask (.eval (e.unloop handle name) frame') next').Suits watch settled m' ->
    (Mirror.looping name handle function).Joins n reflection
      (.ask (.eval e frame) next) (.ask (.eval (e.unloop handle name) frame') next') m m'
  | .seq mark items, _, _, _, _, _, _, frame, frame', tame, fits, drives, machines,
      stands, suits => by
    refine .open_left (.open_right ?_)
    refine items_join items (Expr.all_seq.mp tame).2 ?_
      (drives.seq frame.env frame'.env) .nil machines
      stands suits.opened
    exact fun node inside => fits node (List.mem_cons_of_mem _ inside)
  | .cond mark arms none, _, _, _, _, _, _, _, _, tame, fits, drives, machines, stands, suits => by
    refine .open_left (.open_right ?_)
    refine arms_join arms (Expr.all_cond_none.mp tame).2 ?_ drives ?_ machines stands suits.opened
    · exact fun node inside => fits node (List.mem_cons_of_mem _ (List.mem_append_left _ inside))
    · intro _ _ _ _ _ machines stands suits
      exact .open_left (.open_right (drives.value .nil machines suits.opened))
  | .cond mark arms (some e), _, _, _, _, _, _, _, _, tame, fits, drives, machines,
      stands, suits => by
    obtain ⟨-, ofArms, ofAlt⟩ := Expr.all_cond_some.mp tame
    refine .open_left (.open_right ?_)
    refine arms_join arms ofArms ?_ drives ?_ machines stands suits.opened
    · exact fun node inside => fits node (List.mem_cons_of_mem _ (List.mem_append_left _ inside))
    · intro _ _ _ _ _ machines stands suits
      refine .open_left
        (.open_right (Expr.ends_join e ofAlt ?_ drives machines stands suits.opened))
      exact fun node inside => fits node (List.mem_cons_of_mem _ (List.mem_append_right _ inside))
  | .short mark op operands, _, _, _, _, _, _, _, _, tame, fits, drives, machines,
      stands, suits => by
    refine .open_left (.open_right ?_)
    refine operands_join operands op (Expr.all_short.mp tame).2 ?_ ?_ drives ?_ machines stands
      suits.opened
    · exact fun node inside => fits node (List.mem_cons_of_mem _ inside)
    · rintro ⟨inner, inside, isCall⟩
      exact (fits _ List.mem_cons_self).2 rfl inner (List.mem_cons_of_mem _ inside) isCall
    · cases decide (op = .and) <;> exact .bool
  | .call mark func args kwargs, _, _, _, _, _, _, _, _, tame, fits, drives, machines,
      stands, suits => by
    obtain ⟨-, -, tameArgs, tameKwargs⟩ := Expr.all_call.mp tame
    have other (same : func.unloopCallee handle name = func) :=
      tame_joins pace (e := .call mark func args kwargs)
      (by rw [Expr.unloop, same] at tame; exact tame) drives machines stands
        (by rw [Expr.unloop, same] at suits; exact suits)
    cases func with
    | var inner called =>
      by_cases isHandle : called = handle
      · subst isHandle
        have isOwn := (fits _ List.mem_cons_self).1 (by simp [Expr.isCallTo, Expr.isNameIn])
        have same : (Expr.var inner called).unloopCallee called name = .var inner name := by
          simp [Expr.unloopCallee]
        rw [Expr.unloop, same] at suits ⊢
        exact ownCall_joins pace tameArgs tameKwargs drives isOwn machines stands suits
      · have same : (Expr.var inner called).unloopCallee handle name = .var inner called := by
          simp only [Expr.unloopCallee, if_neg isHandle]
        rw [Expr.unloop, same]
        exact other same
    | _ => exact other rfl
  | .lit .., _, _, _, _, _, _, _, _, tame, _, drives, machines, stands, suits
  | .var .., _, _, _, _, _, _, _, _, tame, _, drives, machines, stands, suits
  | .fn .., _, _, _, _, _, _, _, _, tame, _, drives, machines, stands, suits
  | .bind .., _, _, _, _, _, _, _, _, tame, _, drives, machines, stands, suits
  | .assign .., _, _, _, _, _, _, _, _, tame, _, drives, machines, stands, suits
  | .loop .., _, _, _, _, _, _, _, _, tame, _, drives, machines, stands, suits
  | .jump .., _, _, _, _, _, _, _, _, tame, _, drives, machines, stands, suits
  | .capture .., _, _, _, _, _, _, _, _, tame, _, drives, machines, stands, suits =>
    tame_joins pace tame drives machines stands suits

/-- To its end, a block of the loop does what one of the recursive function does. -/
theorem items_join : ∀ (items : List Expr) {own : Prop} {next next' : Value × Frame -> Plan Value}
    {reflection : Reflection} {m m' : Machine} {frame frame' : Frame} {last last' : Value},
    AllOf (Expr.Tame name handle) (unloopLast handle name items) ->
    FitsEnds handle own (∀ value, settled value -> ∀ ref, value ≠ .promise ref)
      (tailPathOfLast items) ->
    (Mirror.looping name handle function).Drives watch settled n own next next' ->
    last.Mirrors (.looping name handle function) reflection last' ->
    m.Mirrors (.looping name handle function) reflection m' ->
    Frame.Stands name handle function ref ref' reflection frame frame' ->
    (Plan.ask (.evalItems (unloopLast handle name items) last' frame') next').Suits watch
      settled m' ->
    (Mirror.looping name handle function).Joins n reflection
      (.ask (.evalItems items last frame) next)
      (.ask (.evalItems (unloopLast handle name items) last' frame') next') m m'
  | [], _, _, _, _, _, _, _, _, _, _, tame, fits, drives, same, machines, stands, suits =>
    drives.items.value same machines suits
  | [e], _, _, _, _, _, _, _, _, _, _, tame, fits, drives, same, machines, stands, suits => by
    refine .open_left (.open_right ?_)
    exact Expr.ends_join e (allOf_cons.mp tame).1 fits drives.items machines stands suits.opened
  | e :: second :: rest, _, _, _, _, _, _, _, _, _, _, tame, fits, drives, same, machines,
      stands, suits => by
    obtain ⟨first, others⟩ := allOf_cons.mp tame
    refine .open_left (.open_right ?_)
    have suits := suits.opened
    refine .ask pace.performs
      (.eval true first.allows stands.mirrors) machines trivial suits.visits ?_
    rintro later ⟨value, frame₁⟩ ⟨value', frame₁'⟩ m₁ m₁' order ⟨same, frames⟩ machines ran ran'
    have stands := stands.after order frames ran ran' rfl rfl
      (allOf_cons.mpr ⟨first, by simp [AllOf, nodesOfAll]⟩)
      rfl rfl rfl rfl rfl
    exact items_join (second :: rest) others fits drives same machines stands (suits.after ran')

/-- To their end, operands in the loop do what those in the recursive function do. -/
theorem operands_join : ∀ (operands : List Expr) (op : Connective) {own : Prop}
    {next next' : Value × Frame -> Plan Value} {reflection : Reflection} {m m' : Machine}
    {frame frame' : Frame} {last last' : Value},
    AllOf (Expr.Tame name handle) (unloopLast handle name operands) ->
    FitsEnds handle own (∀ value, settled value -> ∀ ref, value ≠ .promise ref)
      (tailPathOfLast operands) ->
    ((∃ inner ∈ tailPathOfLast operands, inner.isCallTo [handle] = true) ->
      ∀ value, settled value -> ∀ ref, value ≠ .promise ref) ->
    (Mirror.looping name handle function).Drives watch settled n own next next' ->
    last.Mirrors (.looping name handle function) reflection last' ->
    m.Mirrors (.looping name handle function) reflection m' ->
    Frame.Stands name handle function ref ref' reflection frame frame' ->
    (Plan.ask (.evalShort op (unloopLast handle name operands) last' frame') next').Suits
      watch settled m' ->
    (Mirror.looping name handle function).Joins n reflection
      (.ask (.evalShort op operands last frame) next)
      (.ask (.evalShort op (unloopLast handle name operands) last' frame') next') m m'
  | [], _, _, _, _, _, _, _, _, _, _, _, tame, fits, joined, drives, same, machines,
      stands, suits =>
    .open_left (.open_right (drives.value same machines suits.opened))
  | [e], op, _, _, _, _, _, _, _, _, _, _, tame, fits, joined, drives, same, machines,
      stands, suits => by
    refine .open_left (.open_right (.open_left (.open_right ?_)))
    refine Expr.ends_join e (allOf_cons.mp tame).1 ?_
      (drives.short pace.performs op ?_ joined) machines stands
      suits.opened.opened
    · exact fun node inside => ⟨fun isCall => ⟨node, inside, isCall⟩, (fits node inside).2⟩
    · exact fun ⟨node, inside, isCall⟩ => (fits node inside).1 isCall
  | e :: second :: rest, op, _, _, _, _, _, _, _, _, _, _, tame, fits, joined, drives,
      same, machines,
      stands, suits => by
    obtain ⟨first, others⟩ := allOf_cons.mp tame
    refine .open_left (.open_right ?_)
    have suits := suits.opened
    refine .ask pace.performs (.evalForced true first.allows stands.mirrors) machines trivial
      suits.visits ?_
    rintro later ⟨value, frame₁⟩ ⟨value', frame₁'⟩ m₁ m₁' order ⟨same, frames⟩ machines ran ran'
    have stands := stands.after order frames ran ran' rfl rfl
      (allOf_cons.mpr ⟨first, by simp [AllOf, nodesOfAll]⟩)
      rfl rfl rfl rfl rfl
    have suits := suits.after ran'
    have truthy : value'.truthy = value.truthy := same.truthy_eq
    simp only [Plan.bind, truthy] at suits ⊢
    by_cases decides : (value.truthy = true) = (op = .or)
    · simp only [if_pos decides] at suits ⊢
      exact drives.value same machines suits
    · simp only [if_neg decides] at suits ⊢
      exact operands_join (second :: rest) op others fits joined drives same machines stands suits

/-- To the ends of their bodies, arms in the loop do what those in the recursive function do. -/
theorem arms_join : ∀ (arms : List (Expr × Expr)) {alt alt' : Option Expr} {own : Prop}
    {next next' : Value × Frame -> Plan Value} {reflection : Reflection} {m m' : Machine}
    {frame frame' : Frame},
    AllOfArms (Expr.Tame name handle) (unloopArms handle name arms) ->
    FitsEnds handle own (∀ value, settled value -> ∀ ref, value ≠ .promise ref)
      (tailPathOfArms arms) ->
    (Mirror.looping name handle function).Drives watch settled n own next next' ->
    (∀ {reflection m m' frame frame'}, m.Mirrors (.looping name handle function) reflection m' ->
      Frame.Stands name handle function ref ref' reflection frame frame' ->
      (Plan.ask (.evalArms [] alt' frame') next').Suits watch settled m' ->
      (Mirror.looping name handle function).Joins n reflection (.ask (.evalArms [] alt frame) next)
        (.ask (.evalArms [] alt' frame') next') m m') ->
    m.Mirrors (.looping name handle function) reflection m' ->
    Frame.Stands name handle function ref ref' reflection frame frame' ->
    (Plan.ask (.evalArms (unloopArms handle name arms) alt' frame') next').Suits watch settled m' ->
    (Mirror.looping name handle function).Joins n reflection (.ask (.evalArms arms alt frame) next)
      (.ask (.evalArms (unloopArms handle name arms) alt' frame') next') m m'
  | [], _, _, _, _, _, _, _, _, _, _, tame, fits, drives, ofAlt, machines, stands, suits =>
    ofAlt machines stands suits
  | (test, body) :: rest, _, _, _, _, _, _, _, _, _, _, tame, fits, drives, ofAlt, machines, stands,
      suits => by
    obtain ⟨tests, bodies, others⟩ := allOfArms_cons.mp tame
    refine .open_left (.open_right ?_)
    have suits := suits.opened
    refine .ask pace.performs (.evalForced true tests.allows stands.mirrors) machines trivial
      suits.visits ?_
    rintro later ⟨value, frame₁⟩ ⟨value', frame₁'⟩ m₁ m₁' order ⟨same, frames⟩ machines ran ran'
    have stands := stands.after order frames ran ran' rfl rfl
      (allOf_cons.mpr ⟨tests, by simp [AllOf, nodesOfAll]⟩) rfl rfl rfl rfl rfl
    have suits := suits.after ran'
    have truthy : value'.truthy = value.truthy := same.truthy_eq
    simp only [Plan.bind, truthy] at suits ⊢
    by_cases holds : value.truthy = true
    · simp only [if_pos holds] at suits ⊢
      exact Expr.ends_join body bodies
        (fun node inside => fits node (List.mem_append_left _ inside))
        drives machines stands suits
    · simp only [if_neg holds] at suits ⊢
      exact arms_join rest others (fun node inside => fits node (List.mem_append_right _ inside))
        drives ofAlt machines stands suits

end

end Ends

end Trampoline
