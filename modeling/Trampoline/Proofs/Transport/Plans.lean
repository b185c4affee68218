import Trampoline.Proofs.Evaluation.Runs
import Trampoline.Proofs.Transport.Shown

/-!
# Plans that mirror each other

Two tasks mirror each other if they ask the same of machines that mirror each other. If their plans
take the same steps and ask for tasks that mirror each other in turn, then each task ends when the
other does, and in the same way. Each direction starts from what a limited amount of fuel gives and
finds an end of the full computation; errors that are lost to the comparison end all claims.
-/

namespace Trampoline

open Exec

/-! ## Tasks -/

/-- Answers that mirror each other, in frames that do. -/
def InFrame {α β : Type} (mirror : Mirror) (veiled : Bool) (rel : Reflection -> α -> β -> Prop) :
    Reflection -> α × Frame -> β × Frame -> Prop :=
  fun reflection answer answer' => rel reflection answer.1 answer'.1 ∧
    answer.2.Mirrors mirror reflection veiled answer'.2

/-- Tasks that ask the same, and how their answers are the same. -/
inductive Task.Mirrors (mirror : Mirror) (reflection : Reflection) : (task task' : Task) ->
    (Reflection -> task.Answer -> task'.Answer -> Prop) -> Prop where
  | eval {e frame frame'} (veiled : Bool) : e.All (mirror.Allows veiled) ->
      frame.Mirrors mirror reflection veiled frame' ->
      Mirrors mirror reflection (.eval e frame) (.eval e frame')
        (InFrame mirror veiled (Value.Mirrors mirror))
  | evalForced {e frame frame'} (veiled : Bool) : e.All (mirror.Allows veiled) ->
      frame.Mirrors mirror reflection veiled frame' ->
      Mirrors mirror reflection (.evalForced e frame) (.evalForced e frame')
        (InFrame mirror veiled (Value.Mirrors mirror))
  | evalContinuation {cc frame frame'} (veiled : Bool) :
      AllOf (mirror.Allows veiled) (Option.toList cc) ->
      frame.Mirrors mirror reflection veiled frame' ->
      Mirrors mirror reflection (.evalContinuation cc frame) (.evalContinuation cc frame')
        (InFrame mirror veiled fun later => Option.Rel (Value.Mirrors mirror later))
  | operand {policy e frame frame'} (veiled : Bool) : e.All (mirror.Allows veiled) ->
      frame.Mirrors mirror reflection veiled frame' ->
      Mirrors mirror reflection (.operand policy e frame) (.operand policy e frame')
        (InFrame mirror veiled (Value.Mirrors mirror))
  | delayed {e frame frame'} (veiled : Bool) : e.All (mirror.Allows veiled) ->
      frame.Mirrors mirror reflection veiled frame' ->
      Mirrors mirror reflection (.delayed e frame) (.delayed e frame')
        (InFrame mirror veiled (Value.Mirrors mirror))
  | operands {policy es frame frame'} (veiled : Bool) : AllOf (mirror.Allows veiled) es ->
      frame.Mirrors mirror reflection veiled frame' ->
      Mirrors mirror reflection (.operands policy es frame) (.operands policy es frame')
        (InFrame mirror veiled (ValuesMirror mirror))
  | keywords {policy es frame frame'} (veiled : Bool) : AllOfKwargs (mirror.Allows veiled) es ->
      frame.Mirrors mirror reflection veiled frame' ->
      Mirrors mirror reflection (.keywords policy es frame) (.keywords policy es frame')
        (InFrame mirror veiled (KwargsMirror mirror))
  | evalArms {arms alt frame frame'} (veiled : Bool) : AllOfArms (mirror.Allows veiled) arms ->
      AllOf (mirror.Allows veiled) (Option.toList alt) ->
      frame.Mirrors mirror reflection veiled frame' ->
      Mirrors mirror reflection (.evalArms arms alt frame) (.evalArms arms alt frame')
        (InFrame mirror veiled (Value.Mirrors mirror))
  | evalShort {op es last last' frame frame'} (veiled : Bool) : AllOf (mirror.Allows veiled) es ->
      last.Mirrors mirror reflection last' -> frame.Mirrors mirror reflection veiled frame' ->
      Mirrors mirror reflection (.evalShort op es last frame) (.evalShort op es last' frame')
        (InFrame mirror veiled (Value.Mirrors mirror))
  | evalItems {es last last' frame frame'} (veiled : Bool) : AllOf (mirror.Allows veiled) es ->
      last.Mirrors mirror reflection last' -> frame.Mirrors mirror reflection veiled frame' ->
      Mirrors mirror reflection (.evalItems es last frame) (.evalItems es last' frame')
        (InFrame mirror veiled (Value.Mirrors mirror))
  | evalLoop {test body frame frame'} (veiled : Bool) : test.All (mirror.Allows veiled) ->
      body.All (mirror.Allows veiled) -> frame.Mirrors mirror reflection veiled frame' ->
      Mirrors mirror reflection (.evalLoop test body frame) (.evalLoop test body frame')
        (InFrame mirror veiled (Value.Mirrors mirror))
  | force {value value'} : value.Mirrors mirror reflection value' ->
      Mirrors mirror reflection (.force value) (.force value') (Value.Mirrors mirror)
  | runThunk {thunk thunk'} : thunk.Mirrors mirror reflection thunk' ->
      Mirrors mirror reflection (.runThunk thunk) (.runThunk thunk') (Value.Mirrors mirror)
  | forceDeep {value value'} : value.Mirrors mirror reflection value' ->
      Mirrors mirror reflection (.forceDeep value) (.forceDeep value') (Value.Mirrors mirror)
  | forceAll {values values'} : ValuesMirror mirror reflection values values' ->
      Mirrors mirror reflection (.forceAll values) (.forceAll values') (ValuesMirror mirror)
  | apply {callable callable' args args' kwargs kwargs'} :
      callable.Mirrors mirror reflection callable' -> ValuesMirror mirror reflection args args' ->
      KwargsMirror mirror reflection kwargs kwargs' ->
      Mirrors mirror reflection (.apply callable args kwargs) (.apply callable' args' kwargs')
        (Value.Mirrors mirror)
  | call {callable callable' args args' kwargs kwargs'} :
      callable.Mirrors mirror reflection callable' -> ValuesMirror mirror reflection args args' ->
      KwargsMirror mirror reflection kwargs kwargs' ->
      Mirrors mirror reflection (.call callable args kwargs) (.call callable' args' kwargs')
        (Value.Mirrors mirror)
  | trampoline {variant first first'} : first.Mirrors mirror reflection first' ->
      Mirrors mirror reflection (.trampoline variant first) (.trampoline variant first')
        (Value.Mirrors mirror)
  | runJumps {variant current current'} : current.Mirrors mirror reflection current' ->
      Mirrors mirror reflection (.runJumps variant current) (.runJumps variant current')
        (Value.Mirrors mirror)
  | takeStep {variant ref ref'} : reflection.pairs .jump ref ref' ->
      Mirrors mirror reflection (.takeStep variant ref) (.takeStep variant ref')
        (Value.Mirrors mirror)
  | forceForStrict {variant callee callee' args args' kwargs kwargs'} :
      callee.Mirrors mirror reflection callee' -> ValuesMirror mirror reflection args args' ->
      KwargsMirror mirror reflection kwargs kwargs' ->
      Mirrors mirror reflection (.forceForStrict variant callee args kwargs)
        (.forceForStrict variant callee' args' kwargs') fun later answer answer' =>
          ValuesMirror mirror later answer.1 answer'.1 ∧
            KwargsMirror mirror later answer.2 answer'.2
  | forceArgs {args args'} : ValuesMirror mirror reflection args args' ->
      Mirrors mirror reflection (.forceArgs args) (.forceArgs args') (ValuesMirror mirror)
  | forceKwargs {kwargs kwargs'} : KwargsMirror mirror reflection kwargs kwargs' ->
      Mirrors mirror reflection (.forceKwargs kwargs) (.forceKwargs kwargs') (KwargsMirror mirror)
  | forceKeys {args args'} : ValuesMirror mirror reflection args args' ->
      Mirrors mirror reflection (.forceKeys args) (.forceKeys args') fun later answer answer' =>
        ValuesMirror mirror later answer.1 answer'.1 ∧ answer'.2 = answer.2
  | forceKwargKeys {kwargs kwargs'} : KwargsMirror mirror reflection kwargs kwargs' ->
      Mirrors mirror reflection (.forceKwargKeys kwargs) (.forceKwargKeys kwargs')
        fun later answer answer' =>
          KwargsMirror mirror later answer.1 answer'.1 ∧ answer'.2 = answer.2
  | shownDeep {values values'} : ValuesMirror mirror reflection values values' ->
      Mirrors mirror reflection (.shownDeep values) (.shownDeep values')
        fun _ answer answer' => answer' = answer
  | applyNative {op args args'} : ValuesMirror mirror reflection args args' ->
      Mirrors mirror reflection (.applyNative op args) (.applyNative op args')
        (Value.Mirrors mirror)

/-! ## What is under way -/

/-- The step reads how the value is shown. -/
inductive Exec.Shows (value : Value) : {α : Type} -> Run α -> Prop where
  | display : Shows value (Exec.read fun m : Machine => m.display value)
  | left (right : Value) : Shows value (Exec.read fun m : Machine => (m.repr value, m.repr right))
  | right (left : Value) : Shows value (Exec.read fun m : Machine => (m.repr left, m.repr value))

/-- Following a plan, the value is shown on the machine `later`. -/
def Plan.Shows {α : Type} (perform : (task : Task) -> Run task.Answer) (value : Value)
    (later : Machine) : Plan α -> Machine -> Prop
  | done _, _ => False
  | step run next, m =>
    Exec.Shows value run ∧ later = m ∨ ∃ answer middle, run m = some (.ok answer, middle) ∧
      (next answer).Shows perform value later middle
  | ask first next, m =>
    ∃ answer middle, perform first m = some (.ok answer, middle) ∧
      (next answer).Shows perform value later middle
  | guarded inner next, m =>
    inner.Shows perform value later m ∨
      ∃ answer middle, (inner.run perform).guarded m = some (.ok answer, middle) ∧
        (next answer).Shows perform value later middle
  | settle inner next, m =>
    inner.Shows perform value later m ∨
      ∃ result middle, inner.run perform m = some (result, middle) ∧
        (next result).Shows perform value later middle

/-- The tasks that may be asked for, and the values that may be shown. -/
structure Watch where
  visits : Task -> Machine -> Prop
  shows : Value -> Machine -> Prop
  asks : ∀ {task m asked later}, visits task m -> task.plan.Asks Task.full asked later m ->
    visits asked later
  steps : ∀ {task m value later}, visits task m -> task.plan.Shows Task.full value later m ->
    shows value later

/-- Whatever may happen. -/
def Watch.all : Watch := ⟨fun _ _ => True, fun _ _ => True, fun _ _ => trivial, fun _ _ => trivial⟩

/-- All that happens on the way of the plan is under watch. -/
structure Plan.Watched {α : Type} (watch : Watch) (plan : Plan α) (m : Machine) : Prop where
  asks : ∀ {asked later}, plan.Asks Task.full asked later m -> watch.visits asked later
  shows : ∀ {value later}, plan.Shows Task.full value later m -> watch.shows value later

variable {watch : Watch} {result : Except EvalError α}

theorem Watch.watched {task : Task} {m : Machine} (visits : watch.visits task m) :
    task.plan.Watched watch m := ⟨watch.asks visits, watch.steps visits⟩

theorem Watch.all_watched {α : Type} (plan : Plan α) (m : Machine) : plan.Watched .all m :=
  ⟨fun _ => trivial, fun _ => trivial⟩

namespace Plan.Watched

variable {α β : Type} {watch : Watch} {m middle : Machine}

variable {next : β -> Plan α}

/-- After its first step a watched plan is watched. -/
theorem step {run : Run β} (watched : (Plan.step run next).Watched watch m)
    {value : β} (ends : run m = some (.ok value, middle)) : (next value).Watched watch middle :=
  ⟨fun asks => watched.asks ⟨value, middle, ends, asks⟩,
    fun shows => watched.shows (.inr ⟨value, middle, ends, shows⟩)⟩

theorem ask {task : Task} {next : task.Answer -> Plan α}
    (watched : (Plan.ask task next).Watched watch m) {answer : task.Answer}
    (ends : task.full m = some (.ok answer, middle)) : (next answer).Watched watch middle :=
  ⟨fun asks => watched.asks (.inr ⟨answer, middle, ends, asks⟩),
    fun shows => watched.shows ⟨answer, middle, ends, shows⟩⟩

/-- The guarded part of a watched plan is watched. -/
theorem inner {inner : Plan β}
    (watched : (Plan.guarded inner next).Watched watch m) : inner.Watched watch m :=
  ⟨fun asks => watched.asks (.inl asks), fun shows => watched.shows (.inl shows)⟩

theorem guarded {inner : Plan β} (watched : (Plan.guarded inner next).Watched watch m) {value : β}
    (ends : (inner.run Task.full).guarded m = some (.ok value, middle)) :
    (next value).Watched watch middle :=
  ⟨fun asks => watched.asks (.inr ⟨value, middle, ends, asks⟩),
    fun shows => watched.shows (.inr ⟨value, middle, ends, shows⟩)⟩

theorem first {inner : Plan β} {next : Except EvalError β -> Plan α}
    (watched : (Plan.settle inner next).Watched watch m) : inner.Watched watch m :=
  ⟨fun asks => watched.asks (.inl asks), fun shows => watched.shows (.inl shows)⟩

/-- After that part a watched plan is watched, whatever it came to. -/
theorem settle {inner : Plan β} {next : Except EvalError β -> Plan α}
    (watched : (Plan.settle inner next).Watched watch m) {result : Except EvalError β}
    (ends : inner.run Task.full m = some (result, middle)) : (next result).Watched watch middle :=
  ⟨fun asks => watched.asks (.inr ⟨result, middle, ends, asks⟩),
    fun shows => watched.shows (.inr ⟨result, middle, ends, shows⟩)⟩

end Plan.Watched

/-! ## Outcomes -/

namespace Mirror

variable {α β γ δ : Type} (mirror : Mirror)

/-- The first computation ended with an error after which nothing is compared. -/
def Lost : Outcome Machine α -> Prop
  | (.error error, m) => mirror.lost error = true ∧ m.passed error = true
  | (.ok _, _) => False

/-- The second computation ended with an error after which nothing is compared. -/
def Lost' : Outcome Machine α -> Prop
  | (.error error, m) => mirror.lost' error = true ∧ m.passed error = true
  | (.ok _, _) => False

/-- Outcomes that are the same up to numbers. -/
inductive Ends (reflection : Reflection) (post : Reflection -> α -> β -> Prop) :
    Outcome Machine α -> Outcome Machine β -> Prop where
  | value {later value value' m m'} : reflection ≤ later -> post later value value' ->
      m.Mirrors mirror later m' -> Ends reflection post (.ok value, m) (.ok value', m')
  | error {later error error' m m'} : reflection ≤ later -> error.Mirrors mirror later error' ->
      mirror.lost error = false -> mirror.lost' error' = false -> m.Mirrors mirror later m' ->
      Ends reflection post (.error error, m) (.error error', m')

/-- Each computation ends when the other does, and in the same way. -/
structure Agrees (reflection : Reflection) (run : Bounded Machine α) (run' : Bounded Machine β)
    (m m' : Machine) (post : Reflection -> α -> β -> Prop) : Prop where
  forth : ∀ outcome, run.limited m = some outcome -> mirror.Lost outcome ∨
    ∃ outcome', run'.full m' = some outcome' ∧
      (mirror.Lost' outcome' ∨ mirror.Ends reflection post outcome outcome')
  back : ∀ outcome', run'.limited m' = some outcome' -> mirror.Lost' outcome' ∨
    ∃ outcome, run.full m = some outcome ∧
      (mirror.Lost outcome ∨ mirror.Ends reflection post outcome outcome')

/-- The value is shown in the same way by mirroring machines. -/
def Comparable (value : Value) (m : Machine) : Prop := mirror.sized = true ∨ m.Grounded value

end Mirror

variable {α β γ δ : Type} {mirror : Mirror} {reflection later : Reflection} {m m' : Machine}

namespace Mirror.Ends

variable {post weaker : Reflection -> α -> β -> Prop} {outcome : Outcome Machine α}
  {outcome' : Outcome Machine β}

/-- What holds of a later reflection holds of an earlier one, and may be weakened. -/
theorem weaken (ends : mirror.Ends later post outcome outcome') (order : reflection ≤ later)
    (implies : ∀ latest value value', later ≤ latest -> post latest value value' ->
      weaker latest value value') : mirror.Ends reflection weaker outcome outcome' := by
  cases ends with
  | value above known machines =>
    exact .value (Reflection.le_trans order above) (implies _ _ _ above known) machines
  | error above same kept kept' machines =>
    exact .error (Reflection.le_trans order above) same kept kept' machines

theorem guarded (ends : mirror.Ends reflection post outcome outcome')
    (machines : m.Mirrors mirror reflection m') :
    mirror.Ends reflection post (outcome.1, guardedState m.stack.size outcome)
      (outcome'.1, guardedState m'.stack.size outcome') := by
  cases ends with
  | value order known after => exact .value order known (machines.leave order after rfl)
  | error order same kept kept' after =>
    refine .error order same kept kept' (machines.leave order after ?_)
    simp only [isFailure, same.isEscape_eq]

end Mirror.Ends

/-- A guarded operation is lost if the operation is. -/
theorem Mirror.Lost.guarded (lost : mirror.Lost (result, m))
    (mark : Nat) : mirror.Lost (result, guardedState mark (result, m)) := by
  cases result with
  | ok value => exact lost.elim
  | error error =>
    have kept := guardedState_passed mark (.error error : Except EvalError α) m
    exact ⟨lost.1, (congrFun kept error).trans lost.2⟩

theorem Mirror.Lost'.guarded (lost : mirror.Lost' (result, m))
    (mark : Nat) : mirror.Lost' (result, guardedState mark (result, m)) := by
  cases result with
  | ok value => exact lost.elim
  | error error =>
    have kept := guardedState_passed mark (.error error : Except EvalError α) m
    exact ⟨lost.1, (congrFun kept error).trans lost.2⟩

/-- Where no error is lost, no outcome is. -/
theorem Mirror.not_lost (keeps : ∀ error, mirror.lost error = false) (outcome : Outcome Machine α) :
    ¬ mirror.Lost outcome := by
  rcases outcome with ⟨error | value, last⟩
  · exact fun lost => Bool.false_ne_true ((keeps error).symm.trans lost.1)
  · exact id

/-- Where no error is lost, no outcome is. -/
theorem Mirror.not_lost' (keeps : ∀ error, mirror.lost' error = false)
    (outcome : Outcome Machine α) : ¬ mirror.Lost' outcome := by
  rcases outcome with ⟨error | value, last⟩
  · exact fun lost => Bool.false_ne_true ((keeps error).symm.trans lost.1)
  · exact id

/-- After this error, the plan ends with it. -/
def Plan.Relays (error : EvalError) (plan : Plan α) : Prop :=
  ∀ perform m, m.passed error = true ->
    ∃ last, plan.run perform m = some (.error error, last) ∧ last.passed error = true

namespace Mirror.Agrees

variable {run : Bounded Machine α} {run' : Bounded Machine β}
  {post weaker mid : Reflection -> α -> β -> Prop}

/-- Agreement at a later point, with a stronger condition. -/
theorem weaken (agrees : mirror.Agrees later run run' m m' post) (order : reflection ≤ later)
    (implies : ∀ latest value value', later ≤ latest -> post latest value value' ->
      weaker latest value value') : mirror.Agrees reflection run run' m m' weaker where
  forth outcome ran := (agrees.forth outcome ran).imp_right fun ⟨other, ran', same⟩ =>
    ⟨other, ran', same.imp_right fun ends => ends.weaken order implies⟩
  back outcome' ran := (agrees.back outcome' ran).imp_right fun ⟨other, ran', same⟩ =>
    ⟨other, ran', same.imp_right fun ends => ends.weaken order implies⟩

theorem earlier (agrees : mirror.Agrees later run run' m m' post) (order : reflection ≤ later) :
    mirror.Agrees reflection run run' m m' post := agrees.weaken order fun _ _ _ _ known => known

/-- Computations below agreeing ones agree. -/
theorem mono {above : Bounded Machine α} {above' : Bounded Machine β}
    (agrees : mirror.Agrees reflection above above' m m' post) (lower : run ≤ above)
    (lower' : run' ≤ above') : mirror.Agrees reflection run run' m m' post where
  forth outcome ran := lower'.full ▸ agrees.forth outcome (lower.limited _ _ ran)
  back outcome' ran := lower.full ▸ agrees.back outcome' (lower'.limited _ _ ran)

/-- Steps that take no fuel, with the same ends unless one is lost. -/
theorem ends {run : Run α} {run' : Run β} {outcome : Outcome Machine α}
    {outcome' : Outcome Machine β} (ran : run m = some outcome) (ran' : run' m' = some outcome')
    (same : mirror.Lost outcome ∨ mirror.Lost' outcome' ∨
      mirror.Ends reflection post outcome outcome') :
    mirror.Agrees reflection (.lift run) (.lift run') m m' post := by
  constructor
  · intro other ran₁
    cases ran.symm.trans ran₁
    rcases same with lost | same
    · exact .inl lost
    · exact .inr ⟨outcome', ran', same⟩
  · intro other ran₁
    cases ran'.symm.trans ran₁
    rcases same with lost | lost | same
    · exact .inr ⟨outcome, ran, .inl lost⟩
    · exact .inl lost
    · exact .inr ⟨outcome, ran, .inr same⟩

variable {value' : β}

/-- Steps that succeed. -/
theorem value {run : Run α} {run' : Run β} {value : α} {next next' : Machine}
    (ran : run m = some (.ok value, next)) (ran' : run' m' = some (.ok value', next'))
    (order : reflection ≤ later) (known : post later value value')
    (machines : next.Mirrors mirror later next') :
    mirror.Agrees reflection (.lift run) (.lift run') m m' post :=
  .ends ran ran' (.inr (.inr (.value order known machines)))

/-- Steps that fail: either error is lost, or they are the same. -/
theorem error {run : Run α} {run' : Run β} {error error' : EvalError}
    (ran : run m = some (.error error, m)) (ran' : run' m' = some (.error error', m'))
    (same : error.Mirrors mirror reflection error') (machines : m.Mirrors mirror reflection m') :
    mirror.Agrees reflection (.lift run) (.lift run') m m' post := by
  refine .ends ran ran' ?_
  cases lost : mirror.lost error with
  | true => exact .inl ⟨lost, by simp only [machines.passed, lost, Bool.true_or]⟩
  | false =>
    cases lost' : mirror.lost' error' with
    | true => exact .inr (.inl ⟨lost', by simp only [machines.passed', lost', Bool.true_or]⟩)
    | false => exact .inr (.inr (.error (Reflection.le_refl _) same lost lost' machines))

theorem pure {value : α} (known : post reflection value value')
    (machines : m.Mirrors mirror reflection m') :
    mirror.Agrees reflection (pure value) (pure value') m m' post :=
  .value rfl rfl (Reflection.le_refl _) known machines

/-- Without fuel there is nothing to show. -/
theorem zero (stuck : run.limited m = none) (stuck' : run'.limited m' = none) :
    mirror.Agrees reflection run run' m m' post where
  forth outcome ran := by
    rw [stuck] at ran
    cases ran
  back outcome ran := by
    rw [stuck'] at ran
    cases ran

/-- Go on after computations that agree, with what both come to in full. -/
theorem bind {next : α -> Bounded Machine γ} {next' : β -> Bounded Machine δ}
    {post : Reflection -> γ -> δ -> Prop} (agrees : mirror.Agrees reflection run run' m m' mid)
    (below : run.limited ≤ run.full) (below' : run'.limited ≤ run'.full)
    (after : ∀ later value value' middle middle', reflection ≤ later -> mid later value value' ->
      middle.Mirrors mirror later middle' -> run.full m = some (.ok value, middle) ->
      run'.full m' = some (.ok value', middle') ->
      mirror.Agrees later (next value) (next' value') middle middle' post) :
    mirror.Agrees reflection (run >>= next) (run' >>= next') m m' post where
  forth outcome ran := by
    rcases bind_eq_some.mp ran with ⟨value, middle, first, rest⟩ | ⟨error, last, first, rfl⟩
    · rcases agrees.forth _ first with lost | ⟨⟨error' | value', middle'⟩, first', lost | ends⟩
      · exact lost.elim
      · exact .inr ⟨_, bind_eq_some.mpr (.inr ⟨_, _, first', rfl⟩), .inl lost⟩
      · cases ends
      · exact lost.elim
      · cases ends with
        | value order known machines =>
          have agrees' := after _ _ _ _ _ order known machines (below _ _ first) first'
          refine ((agrees'.earlier order).forth _ rest).imp_right ?_
          rintro ⟨last, rest', same⟩
          exact ⟨last, bind_eq_some.mpr (.inl ⟨_, _, first', rest'⟩), same⟩
    · refine (agrees.forth _ first).imp id ?_
      rintro ⟨⟨error' | value', last'⟩, first', lost | ends⟩
      · exact ⟨_, bind_eq_some.mpr (.inr ⟨_, _, first', rfl⟩), .inl lost⟩
      · cases ends with
        | error order same kept kept' machines =>
          exact ⟨_, bind_eq_some.mpr (.inr ⟨_, _, first', rfl⟩),
            .inr (.error order same kept kept' machines)⟩
      · exact lost.elim
      · cases ends
  back outcome' ran := by
    rcases bind_eq_some.mp ran with ⟨value', middle', first', rest'⟩ | ⟨error', last', first', rfl⟩
    · rcases agrees.back _ first' with lost | ⟨⟨error | value, middle⟩, first, lost | ends⟩
      · exact lost.elim
      · exact .inr ⟨_, bind_eq_some.mpr (.inr ⟨_, _, first, rfl⟩), .inl lost⟩
      · cases ends
      · exact lost.elim
      · cases ends with
        | value order known machines =>
          have agrees' := after _ _ _ _ _ order known machines first (below' _ _ first')
          refine ((agrees'.earlier order).back _ rest').imp_right ?_
          rintro ⟨last, rest, same⟩
          exact ⟨last, bind_eq_some.mpr (.inl ⟨_, _, first, rest⟩), same⟩
    · refine (agrees.back _ first').imp id ?_
      rintro ⟨⟨error | value, last⟩, first, lost | ends⟩
      · exact ⟨_, bind_eq_some.mpr (.inr ⟨_, _, first, rfl⟩), .inl lost⟩
      · cases ends with
        | error order same kept kept' machines =>
          exact ⟨_, bind_eq_some.mpr (.inr ⟨_, _, first, rfl⟩),
            .inr (.error order same kept kept' machines)⟩
      · exact lost.elim
      · cases ends

theorem guarded (agrees : mirror.Agrees reflection run run' m m' post)
    (machines : m.Mirrors mirror reflection m') :
    mirror.Agrees reflection run.guarded run'.guarded m m' post where
  forth := by
    rintro ⟨result, last⟩ ran
    obtain ⟨inner, first, rfl⟩ := guarded_eq_some.mp ran
    refine (agrees.forth _ first).imp (fun lost => lost.guarded _) ?_
    rintro ⟨⟨result', inner'⟩, first', same⟩
    exact ⟨_, guarded_eq_some.mpr ⟨_, first', rfl⟩,
      same.imp (fun lost => lost.guarded _) fun ends => ends.guarded machines⟩
  back := by
    rintro ⟨result', last'⟩ ran
    obtain ⟨inner', first', rfl⟩ := guarded_eq_some.mp ran
    refine (agrees.back _ first').imp (fun lost => lost.guarded _) ?_
    rintro ⟨⟨result, inner⟩, first, same⟩
    exact ⟨_, guarded_eq_some.mpr ⟨_, first, rfl⟩,
      same.imp (fun lost => lost.guarded _) fun ends => ends.guarded machines⟩

/-- Go on with outcomes that are the same; what is lost stays lost. -/
theorem settle {next : Except EvalError α -> Bounded Machine γ}
    {next' : Except EvalError β -> Bounded Machine δ} {post : Reflection -> γ -> δ -> Prop}
    (agrees : mirror.Agrees reflection run run' m m' mid)
    (below : run.limited ≤ run.full) (below' : run'.limited ≤ run'.full)
    (relays : ∀ error middle, mirror.lost error = true -> middle.passed error = true ->
      (∃ last, (next (.error error)).limited middle = some (.error error, last) ∧
        last.passed error = true) ∧
      ∃ last, (next (.error error)).full middle = some (.error error, last) ∧
        last.passed error = true)
    (relays' : ∀ error middle, mirror.lost' error = true -> middle.passed error = true ->
      (∃ last, (next' (.error error)).limited middle = some (.error error, last) ∧
        last.passed error = true) ∧
      ∃ last, (next' (.error error)).full middle = some (.error error, last) ∧
        last.passed error = true)
    (after : ∀ result result' middle middle',
      mirror.Ends reflection mid (result, middle) (result', middle') ->
      run.full m = some (result, middle) -> run'.full m' = some (result', middle') ->
      mirror.Agrees reflection (next result) (next' result') middle middle' post) :
    mirror.Agrees reflection (run.settle next) (run'.settle next') m m' post where
  forth outcome ran := by
    obtain ⟨result, middle, first, rest⟩ := settle_eq_some.mp ran
    rcases agrees.forth _ first with lost | ⟨⟨result', middle'⟩, first', lost | ends⟩
    · cases result with
      | ok value => exact lost.elim
      | error error =>
        obtain ⟨last, ended, passes⟩ := (relays error middle lost.1 lost.2).1
        cases ended.symm.trans rest
        exact .inl ⟨lost.1, passes⟩
    · cases result' with
      | ok value => exact lost.elim
      | error error' =>
        obtain ⟨last', ended, passes⟩ := (relays' error' middle' lost.1 lost.2).2
        exact .inr ⟨_, settle_eq_some.mpr ⟨_, _, first', ended⟩, .inl ⟨lost.1, passes⟩⟩
    · refine ((after _ _ _ _ ends (below _ _ first) first').forth _ rest).imp_right ?_
      rintro ⟨last', rest', same⟩
      exact ⟨last', settle_eq_some.mpr ⟨_, _, first', rest'⟩, same⟩
  back outcome' ran := by
    obtain ⟨result', middle', first', rest'⟩ := settle_eq_some.mp ran
    rcases agrees.back _ first' with lost | ⟨⟨result, middle⟩, first, lost | ends⟩
    · cases result' with
      | ok value => exact lost.elim
      | error error' =>
        obtain ⟨last', ended, passes⟩ := (relays' error' middle' lost.1 lost.2).1
        cases ended.symm.trans rest'
        exact .inl ⟨lost.1, passes⟩
    · cases result with
      | ok value => exact lost.elim
      | error error =>
        obtain ⟨last, ended, passes⟩ := (relays error middle lost.1 lost.2).2
        exact .inr ⟨_, settle_eq_some.mpr ⟨_, _, first, ended⟩, .inl ⟨lost.1, passes⟩⟩
    · refine ((after _ _ _ _ ends first (below' _ _ first')).back _ rest').imp_right ?_
      rintro ⟨last, rest, same⟩
      exact ⟨last, settle_eq_some.mpr ⟨_, _, first, rest⟩, same⟩

end Mirror.Agrees

/-! ## Plans -/

/-- Plans with the same steps, which ask for the same tasks, up to numbers. -/
inductive Plan.Mirrors (mirror : Mirror) : {α β : Type} -> Reflection -> Plan α -> Plan β ->
    (Reflection -> α -> β -> Prop) -> Prop where
  | done {α β : Type} {reflection : Reflection} {value : α} {value' : β}
      {post : Reflection -> α -> β -> Prop} : post reflection value value' ->
      Mirrors mirror reflection (.done value) (.done value') post
  | step {α β γ δ : Type} {reflection : Reflection} {run : Run γ} {run' : Run δ}
      {next : γ -> Plan α} {next' : δ -> Plan β} {mid : Reflection -> γ -> δ -> Prop}
      {post : Reflection -> α -> β -> Prop} :
      (∀ m m', m.Mirrors mirror reflection m' ->
        (∀ value, Exec.Shows value run -> mirror.Comparable value m) ->
          mirror.Agrees reflection (.lift run) (.lift run') m m' mid) ->
      (∀ later value value', reflection ≤ later -> mid later value value' ->
        Mirrors mirror later (next value) (next' value') post) ->
      Mirrors mirror reflection (.step run next) (.step run' next') post
  | ask {α β : Type} {reflection : Reflection} {task task' : Task} {next : task.Answer -> Plan α}
      {next' : task'.Answer -> Plan β} {mid : Reflection -> task.Answer -> task'.Answer -> Prop}
      {post : Reflection -> α -> β -> Prop} : task.Mirrors mirror reflection task' mid ->
      (∀ later answer answer', reflection ≤ later -> mid later answer answer' ->
        Mirrors mirror later (next answer) (next' answer') post) ->
      Mirrors mirror reflection (.ask task next) (.ask task' next') post
  | guarded {α β γ δ : Type} {reflection : Reflection} {inner : Plan γ} {inner' : Plan δ}
      {next : γ -> Plan α} {next' : δ -> Plan β} {mid : Reflection -> γ -> δ -> Prop}
      {post : Reflection -> α -> β -> Prop} : Mirrors mirror reflection inner inner' mid ->
      (∀ later value value', reflection ≤ later -> mid later value value' ->
        Mirrors mirror later (next value) (next' value') post) ->
      Mirrors mirror reflection (.guarded inner next) (.guarded inner' next') post
  | settle {α β γ δ : Type} {reflection : Reflection} {inner : Plan γ} {inner' : Plan δ}
      {next : Except EvalError γ -> Plan α} {next' : Except EvalError δ -> Plan β}
      {mid : Reflection -> γ -> δ -> Prop} {post : Reflection -> α -> β -> Prop} :
      Mirrors mirror reflection inner inner' mid ->
      (∀ error, mirror.lost error = true -> (next (.error error)).Relays error) ->
      (∀ error, mirror.lost' error = true -> (next' (.error error)).Relays error) ->
      (∀ later value value', reflection ≤ later -> mid later value value' ->
        Mirrors mirror later (next (.ok value)) (next' (.ok value')) post) ->
      (∀ later error error', reflection ≤ later -> error.Mirrors mirror later error' ->
        mirror.lost error = false -> mirror.lost' error' = false ->
        Mirrors mirror later (next (.error error)) (next' (.error error')) post) ->
      Mirrors mirror reflection (.settle inner next) (.settle inner' next') post

namespace Mirror

variable (mirror) (watch watch' : Watch)

/-- Tasks that mirror each other agree, as far as they are under watch. -/
def Performs (n : Nat) : Prop :=
  ∀ {reflection task task' post m m'}, task.Mirrors mirror reflection task' post ->
    m.Mirrors mirror reflection m' -> watch.visits task m -> watch'.visits task' m' ->
    mirror.Agrees reflection (task.chain.cut n) (task'.chain.cut n) m m' post

/-- Whatever is shown under watch can be compared. -/
def Compares : Prop := ∀ {value m}, watch.shows value m -> mirror.Comparable value m

end Mirror

theorem Chain.cut_below {σ : Type} (chain : Chain σ α) (n : Nat) :
    (chain.cut n).limited ≤ (chain.cut n).full := chain.upTo_le_full n

theorem Plan.cut_chain_limited (plan : Plan α) (n : Nat) :
    (plan.chain.cut n).limited = plan.run (Task.run n) := Plan.upTo_chain n plan

theorem Plan.cut_chain_full (plan : Plan α) (n : Nat) :
    (plan.chain.cut n).full = plan.run Task.full := plan.full_chain

/-- Plans that mirror each other agree if the tasks in them do. -/
theorem Plan.Mirrors.agrees {watch' : Watch} {n : Nat} {plan : Plan α} {plan' : Plan β}
    {post : Reflection -> α -> β -> Prop} (mirrors : plan.Mirrors mirror reflection plan' post)
    (performs : mirror.Performs watch watch' n) (compares : mirror.Compares watch)
    (machines : m.Mirrors mirror reflection m') (watched : plan.Watched watch m)
    (watched' : plan'.Watched watch' m') :
    mirror.Agrees reflection (plan.chain.cut n) (plan'.chain.cut n) m m' post := by
  induction mirrors generalizing m m' with
  | done known =>
    simp only [Plan.chain, Chain.cut_pure]
    exact .pure known machines
  | @step α β γ δ reflection run run' next next' mid post moves after ih =>
    simp only [Plan.chain, Chain.cut_bind, Chain.cut_lift]
    have comparable (value : Value) (shows : Exec.Shows value run) : mirror.Comparable value m :=
      compares (watched.shows (.inl ⟨shows, rfl⟩))
    refine (moves m m' machines comparable).bind (Exec.le_refl _) (Exec.le_refl _) ?_
    intro later value value' middle middle' order known machines ends ends'
    exact ih _ _ _ order known machines (watched.step ends) (watched'.step ends')
  | @ask α β reflection task task' next next' mid post asks after ih =>
    simp only [Plan.chain, Chain.cut_bind]
    have agrees := performs asks machines (watched.asks (.inl ⟨rfl, rfl⟩))
      (watched'.asks (.inl ⟨rfl, rfl⟩))
    refine agrees.bind (Chain.cut_below _ n) (Chain.cut_below _ n) ?_
    intro later answer answer' middle middle' order known machines ends ends'
    exact ih _ _ _ order known machines (watched.ask ends) (watched'.ask ends')
  | @guarded α β γ δ reflection inner inner' next next' mid post inside after ihInner ih =>
    simp only [Plan.chain, Chain.cut_bind, Chain.cut_guarded]
    have agrees := ihInner machines watched.inner watched'.inner
    refine (agrees.guarded machines).bind (guarded_le (Chain.cut_below _ n))
      (guarded_le (Chain.cut_below _ n)) ?_
    intro later value value' middle middle' order known machines ends ends'
    have ran : (inner.chain.cut n).guarded.full = (inner.run Task.full).guarded :=
      congrArg Run.guarded inner.full_chain
    have ran' : (inner'.chain.cut n).guarded.full = (inner'.run Task.full).guarded :=
      congrArg Run.guarded inner'.full_chain
    exact ih _ _ _ order known machines (watched.guarded (ran ▸ ends))
      (watched'.guarded (ran' ▸ ends'))
  | @settle α β γ δ reflection inner inner' next next' mid post inside relays relays' afterOk
      afterError ihInner ihOk ihError =>
    simp only [Plan.chain, Chain.cut_settle]
    have agrees := ihInner machines watched.first watched'.first
    refine agrees.settle (Chain.cut_below _ n) (Chain.cut_below _ n) ?_ ?_ ?_
    · intro error middle lost passes
      rw [Plan.cut_chain_limited, Plan.cut_chain_full]
      exact ⟨relays error lost _ middle passes, relays error lost _ middle passes⟩
    · intro error middle lost passes
      rw [Plan.cut_chain_limited, Plan.cut_chain_full]
      exact ⟨relays' error lost _ middle passes, relays' error lost _ middle passes⟩
    · intro result result' middle middle' ended ends ends'
      rw [Plan.cut_chain_full] at ends ends'
      cases ended with
      | value order known machines =>
        exact (ihOk _ _ _ order known machines (watched.settle ends)
          (watched'.settle ends')).earlier order
      | error order same kept kept' machines =>
        exact (ihError _ _ _ order same kept kept' machines (watched.settle ends)
          (watched'.settle ends')).earlier order

end Trampoline
