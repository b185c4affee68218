import Trampoline.Proofs.Memo.Bindings
import Trampoline.Proofs.Rewriting.Origins

/-!
# Arguments beside the continuation

A function of a `continuations` block has one parameter more than its source, and the wrapper for
continuations always names the argument for it. So a positional argument that comes to stand at this
place is bound, and then replaced by the continuation: one argument too many is dropped, and only
more of them are an error.
-/

namespace Trampoline

open Exec

/-! ## Parameters -/

variable {name : String} {bound : List (String × Option Value)} {kwargs : Kwargs}
  {args : List Value} {m : Machine} {error : EvalError} {function : Function}

/-- Without the name among the parameters before it, the last one is bound by keyword. -/
theorem bindKeyword_last (unlisted : name ∉ bound.map Prod.fst) (value : Value)
    (old : Option Value) :
    bindKeyword name value (bound ++ [(name, old)]) = some (bound ++ [(name, some value)]) := by
  induction bound with
  | nil => simp [bindKeyword]
  | cons first rest ih =>
    obtain ⟨param, content⟩ := first
    obtain ⟨other, unlisted⟩ := not_or.mp (mt List.mem_cons.mpr unlisted)
    simp [bindKeyword, Ne.symm other, ih unlisted]

/-- Another parameter than the last is bound by keyword, or there is none of the name. -/
theorem bindKeyword_init {keyword : String} (other : keyword ≠ name) (value : Value)
    (bound : List (String × Option Value)) (old : Option Value) :
    bindKeyword keyword value (bound ++ [(name, old)]) =
      (bindKeyword keyword value bound).map (· ++ [(name, old)]) := by
  induction bound with
  | nil => simp [bindKeyword, other.symm]
  | cons first rest ih =>
    simp only [List.cons_append, bindKeyword]
    split
    · rfl
    · rw [ih, Option.map_map, Option.map_map]
      rfl

/-- What the last parameter was bound to before is of no account if there is a keyword argument for
it. -/
theorem bindKeywords_last (func : String) (named : ∃ kwarg ∈ kwargs, kwarg.1 = name)
    (unlisted : name ∉ bound.map Prod.fst) (old other : Option Value) :
    bindKeywords func kwargs (bound ++ [(name, old)]) =
      bindKeywords func kwargs (bound ++ [(name, other)]) := by
  induction kwargs generalizing bound with
  | nil =>
    obtain ⟨_, member, -⟩ := named
    cases member
  | cons first rest ih =>
    obtain ⟨keyword, value⟩ := first
    by_cases same : keyword = name
    · subst same
      simp only [bindKeywords, bindKeyword_last unlisted]
    · have named : ∃ kwarg ∈ rest, kwarg.1 = name := by
        obtain ⟨kwarg, member, isName⟩ := named
        rcases List.mem_cons.mp member with rfl | member
        · exact absurd isName same
        · exact ⟨kwarg, member, isName⟩
      simp only [bindKeywords, bindKeyword_init same]
      cases binds : bindKeyword keyword value bound with
      | none => rfl
      | some bound' =>
        refine ih named ?_
        rw [map_fst_bindKeyword binds]
        exact unlisted

/-- The arguments beyond the first parameters are for the others. -/
theorem bindPositional_split (params more : List String) (args : List Value) :
    bindPositional (params ++ more) args =
      bindPositional params args ++ bindPositional more (args.drop params.length) := by
  induction params generalizing args with
  | nil => rfl
  | cons param params ih => cases args <;> simp [bindPositional, ih]

/-- Arguments beyond the parameters are not bound. -/
theorem bindPositional_take (params : List String) (args : List Value) :
    bindPositional params (args.take params.length) = bindPositional params args := by
  induction params generalizing args with
  | nil => rfl
  | cons param params ih => cases args <;> simp [bindPositional, ih]

/-- More arguments than parameters are an error, whatever the keyword arguments. -/
theorem parameterScope_overflows (signature : Signature) (env : Env)
    (kwargs : Kwargs) (more : signature.params.length < args.length) (m : Machine) :
    parameterScope signature env args kwargs m =
      some (.error (.arity signature.label signature.params.length args.length), m) := by
  simp only [parameterScope, if_pos more]
  rfl

/-- The argument that comes to stand at the place of the continuation is dropped. -/
theorem parameterScope_drops {signature : Signature} {params : List String}
    (own : signature.params = params ++ [continuationParam]) (other : continuationParam ∉ params)
    (env : Env) (named : kwargs.any isCc = true) (one : args.length = params.length + 1) :
    parameterScope signature env args kwargs =
      parameterScope signature env args.dropLast kwargs := by
  have kept : args.dropLast = args.take params.length := by
    rw [List.dropLast_eq_take, one, Nat.add_sub_cancel]
  rw [kept]
  have named : ∃ kwarg ∈ kwargs, kwarg.1 = continuationParam := by
    obtain ⟨kwarg, member, isCc⟩ := List.any_eq_true.mp named
    exact ⟨kwarg, member, eq_of_beq isCc⟩
  have unlisted : continuationParam ∉ (bindPositional params args).map Prod.fst := by
    rwa [map_fst_bindPositional]
  obtain ⟨last, isLast⟩ : ∃ last, args.drop params.length = [last] :=
    List.length_eq_one_iff.mp (by simp [one])
  have fits : ¬(params ++ [continuationParam]).length < args.length := by simp [one]
  have fewer : ¬(params ++ [continuationParam]).length < (args.take params.length).length := by
    simp [one]
  simp only [parameterScope, own, if_neg fits, if_neg fewer, bindPositional_split,
    bindPositional_take, isLast, List.drop_take, bindPositional]
  rw [Nat.sub_self, List.take_zero]
  simp only [bindPositional]
  rw [bindKeywords_last _ named unlisted (some last) none]

/-! ## What arguments become -/

section Forced

variable {m m' : Machine} {n : Nat}

variable {args values : List Value} {keys : List MemoKey} {kwargs : Kwargs}

/-- Forcing arguments for a key keeps their number. -/
theorem forceKeys_length (ends : forceKeys n args m = some (.ok (values, keys), m')) :
    values.length = args.length := by
  induction args generalizing n values keys m m' with
  | nil =>
    cases n <;> cases ends
    rfl
  | cons arg rest ih =>
    cases n with
    | zero => cases ends
    | succ n =>
      obtain ⟨value, middle, -, ends⟩ := bind_eq_ok.mp ends
      cases known : value.memoKey? <;> simp only [known] at ends
      · cases ends
      · obtain ⟨⟨others, more⟩, last, forces, ends⟩ := bind_eq_ok.mp ends
        cases ends
        simp [ih forces]

/-- Forcing keyword arguments for a key keeps their names. -/
theorem forceKwargKeys_names {values : Kwargs}
    (ends : forceKwargKeys n kwargs m = some (.ok (values, keys), m')) :
    values.map Prod.fst = kwargs.map Prod.fst := by
  induction kwargs generalizing n values keys m m' with
  | nil =>
    cases n <;> cases ends
    rfl
  | cons kwarg rest ih =>
    cases n with
    | zero => cases ends
    | succ n =>
      obtain ⟨value, middle, -, ends⟩ := bind_eq_ok.mp ends
      cases known : value.memoKey? <;> simp only [known] at ends
      · cases ends
      · obtain ⟨⟨others, more⟩, last, forces, ends⟩ := bind_eq_ok.mp ends
        cases ends
        simp [ih forces]

/-- Forcing arguments keeps their number. -/
theorem forceArgs_length (ends : forceArgs n args m = some (.ok values, m')) :
    values.length = args.length := by
  induction args generalizing n values m m' with
  | nil =>
    cases n <;> cases ends
    rfl
  | cons arg rest ih =>
    cases n with
    | zero => cases ends
    | succ n =>
      obtain ⟨value, middle, -, ends⟩ := bind_eq_ok.mp ends
      obtain ⟨others, last, forces, ends⟩ := bind_eq_ok.mp ends
      cases ends
      simp [ih forces]

/-- What a strict callee is given are as many arguments as there were. -/
theorem forceForStrict_length {variant : Variant} {callee : Callable} {named : Kwargs}
    (ends : forceForStrict n variant callee args kwargs m = some (.ok (values, named), m')) :
    values.length = args.length := by
  cases n with
  | zero => cases ends
  | succ n =>
    unfold forceForStrict at ends
    split at ends
    · obtain ⟨forced, middle, forces, ends⟩ := bind_eq_ok.mp ends
      obtain ⟨others, last, -, ends⟩ := bind_eq_ok.mp ends
      cases ends
      exact forceArgs_length forces
    · cases ends
      rfl

/-- Whether a continuation is among keyword arguments depends on their names alone. -/
theorem any_isCc_of_names {kwargs' : Kwargs}
    (same : kwargs'.map Prod.fst = kwargs.map Prod.fst) : kwargs'.any isCc = kwargs.any isCc := by
  have names : ∀ kwargs : Kwargs,
      kwargs.any isCc = (kwargs.map Prod.fst).any (· == continuationParam) := by
    intro kwargs
    rw [List.any_map]
    rfl
  rw [names, names, same]

end Forced

/-! ## Through the wrappers -/

/-- The plan goes on with no part that failed. -/
def Plan.Straight {α : Type} : Plan α -> Prop
  | done _ => True
  | step _ next => ∀ value, (next value).Straight
  | ask _ next => ∀ answer, (next answer).Straight
  | guarded inner next => inner.Straight ∧ ∀ value, (next value).Straight
  | settle _ _ => False

/-- A straight plan fails as a task does that it asks for. -/
theorem Plan.Straight.fails {α : Type} {plan : Plan α} (straight : plan.Straight)
    {perform : (task : Task) -> Run task.Answer} {task : Task} {later last : Machine}
    (asks : plan.Asks perform task later m)
    (failed : perform task later = some (.error error, last)) :
    ∃ last, plan.run perform m = some (.error error, last) := by
  induction plan generalizing m with
  | done value => exact asks.elim
  | step act next ih =>
    obtain ⟨value, middle, ran, asks⟩ := asks
    obtain ⟨last, ends⟩ := ih value (straight value) asks
    exact ⟨last, (bind_apply ran _).trans ends⟩
  | ask first next ih =>
    rcases asks with ⟨rfl, rfl⟩ | ⟨answer, middle, ran, asks⟩
    · exact ⟨last, bind_eq_some.mpr (.inr ⟨error, last, failed, rfl⟩)⟩
    · obtain ⟨last, ends⟩ := ih answer (straight answer) asks
      exact ⟨last, (bind_apply ran _).trans ends⟩
  | guarded inner next ihInner ih =>
    rcases asks with asks | ⟨value, middle, ran, asks⟩
    · obtain ⟨last, ends⟩ := ihInner straight.1 asks
      exact ⟨_, bind_eq_some.mpr (.inr ⟨error, _, guarded_eq_some.mpr ⟨last, ends, rfl⟩, rfl⟩)⟩
    · obtain ⟨last, ends⟩ := ih value (straight.2 value) asks
      exact ⟨last, (bind_apply ran _).trans ends⟩
  | settle inner next => exact straight.elim

/-- A task that does nothing but call fails with what it calls. -/
theorem Call.Makes.fails_straight {caller callee : Call} (made : caller.Makes callee)
    (straight : caller.task.plan.Straight) (failed : callee.Fails error) : caller.Fails error := by
  obtain ⟨n, task, m⟩ := caller
  obtain ⟨more, asks⟩ := made
  obtain ⟨last, ends⟩ := failed
  obtain rfl : n = callee.fuel + 1 := more
  obtain ⟨last, ends⟩ := straight.fails asks ends
  refine ⟨last, ?_⟩
  show Task.run _ task m = _
  rw [Task.run_succ]
  exact ends

/-- One task is to apply what is inside the wrapper that the other applies. -/
inductive Task.Opens : Task -> Task -> Prop where
  | passes {outer inner : Task} (passes : outer.PassesTo inner) : Opens outer inner
  | escapePoint {inner : Callable} {args args' : List Value} {kwargs kwargs' : Kwargs} :
      Opens (.apply (.escapePoint inner) args kwargs) (.apply inner args' kwargs')
  | contEnabled {inner : Callable} {args : List Value} {kwargs kwargs' : Kwargs} :
      Opens (.apply (.contEnabled inner) args kwargs) (.apply inner args kwargs')
  | lazyFn {inner : Callable} {args : List Value} {kwargs : Kwargs} :
      Opens (.apply (.lazyFn inner) args kwargs) (.apply inner args kwargs)

namespace Call

/-- Through its wrappers, the call comes to apply the callable to these arguments. -/
inductive Enters (base : Callable) (n : Nat) (args : List Value) (kwargs : Kwargs) (m : Machine) :
    Call -> Prop where
  | here : Enters base n args kwargs m ⟨n, .apply base args kwargs, m⟩
  | through {outer next : Call} (made : outer.Makes next) (opens : outer.task.Opens next.task)
      (rest : Enters base n args kwargs m next) : Enters base n args kwargs m outer

variable {error : EvalError} {base : Callable} {n : Nat} {args : List Value} {kwargs : Kwargs}
  {m : Machine}

/-- Wrappers pass on errors that are no escapes. -/
theorem Makes.opens_fails {outer next : Call} (made : outer.Makes next)
    (opens : outer.task.Opens next.task) (noEscape : error.isEscape = false)
    (failed : next.Fails error) : outer.Fails error := by
  obtain ⟨n, task, m⟩ := outer
  obtain ⟨k, task', m'⟩ := next
  cases opens with
  | passes passes =>
    refine made.fails_straight ?_ failed
    cases passes with
    | call =>
      intro value
      cases value with
      | jump ref => exact fun _ => trivial
      | _ => trivial
    | trampolined => exact fun _ _ => trivial
    | looped => exact fun _ _ _ => trivial
    | memoized =>
      intro keyed named hit
      cases hit with
      | none => exact fun _ _ => trivial
      | some value => trivial
  | @escapePoint inner args args' kwargs kwargs' =>
    obtain ⟨k, rfl, same⟩ := makes_of_point made
    cases same
    obtain ⟨last, ends⟩ := failed
    refine ⟨Run.leavePoint m.points.size last, ?_⟩
    show apply (k + 1) (.escapePoint inner) args kwargs m = _
    rw [apply_escapePoint, show apply k inner _ kwargs m.entering = _ from ends]
    cases error with
    | escape => cases noEscape
    | _ => rfl
  | contEnabled =>
    refine made.fails_straight ?_ failed
    simp only [Task.plan]
    split
    · exact fun _ => trivial
    · exact fun _ _ => trivial
  | lazyFn => exact made.fails_straight (fun _ => trivial) failed

/-- The error of the function that a call enters is the error of the call. -/
theorem Enters.fails {call : Call} (enters : call.Enters base n args kwargs m)
    (noEscape : error.isEscape = false)
    (failed : Call.Fails ⟨n, .apply base args kwargs, m⟩ error) : call.Fails error := by
  induction enters with
  | here => exact failed
  | through made opens rest ih => exact made.opens_fails opens noEscape ih

/-- A call comes to the callable that it calls through its application. -/
theorem Enters.of_call {k : Nat} {given : List Value}
    {named : Kwargs} {start : Machine} {callable : Callable}
    (enters : Enters base n args kwargs m ⟨k, .call callable given named, start⟩) :
    ∃ k, Enters base n args kwargs m ⟨k, .apply callable given named, start⟩ := by
  cases enters with
  | @through _ next made opens rest =>
    obtain ⟨k', task, m'⟩ := next
    cases opens with
    | passes passes =>
      cases passes
      rcases made.asks with ⟨-, same⟩ | ⟨answer, middle, -, asks⟩
      · obtain rfl : start = m' := same
        exact ⟨k', rest⟩
      · cases answer with
        | jump ref =>
          rcases asks with ⟨⟨⟩, -⟩ | ⟨_, _, -, asks⟩
          exact asks.elim
        | _ => exact asks.elim

end Call

/-- How many arguments the wrappers put before those of the call. -/
def addedArgs (wrappers : List Decorator) : Nat :=
  wrappers.countP fun wrapper => wrapper = .looped || wrapper = .callEc

/-- Each wrapper adds its own arguments. -/
theorem addedArgs_cons (wrapper : Decorator) (inside : List Decorator) :
    addedArgs (wrapper :: inside) = addedArgs [wrapper] + addedArgs inside := by
  rw [← List.singleton_append, addedArgs, List.countP_append]
  rfl

/-- What wrappers put before the arguments of a call: the handle of a loop, or an escape. -/
inductive Value.IsHanded : Value -> Prop
  | handle (ref : Nat) (inner : Callable) : IsHanded (.func (.loopHandle ref inner))
  | escape (tag : Nat) : IsHanded (.func (.escape tag))

/-- Keyword arguments as the wrapper for continuations passes them on: with the identity, if they
have no continuation. -/
inductive Completes (named : Kwargs) : Kwargs -> Prop
  | given : Completes named named
  | identity (absent : named.any isCc = false) (number : Nat) :
      Completes named (named ++ [(continuationParam, .func (.identity number))])

/-- There is no second identity. -/
theorem Completes.trans {named middle : Kwargs} (first : Completes named middle)
    (second : Completes middle kwargs) : Completes named kwargs := by
  cases first with
  | given => exact second
  | identity absent number =>
    cases second with
    | given => exact .identity absent number
    | identity absent => simp [isCc] at absent

namespace Callable.Wears

variable {ref : Nat} {function : Function} {env : Env} {callable : Callable}
variable {wrappers : List Decorator}

/-- A wrapper puts its arguments before those of the call, and that for continuations names one. -/
structure Hands (wrapper : Decorator) (given args : List Value) (named kwargs : Kwargs) : Prop where
  many : args.length = given.length + addedArgs [wrapper]
  names : wrapper = .continuations ∨ named.any isCc = true -> kwargs.any isCc = true

variable {args given : List Value} {kwargs named : Kwargs} {k : Nat} {start : Machine}

theorem Hands.self {wrapper : Decorator}
    (adds : addedArgs [wrapper] = 0) (other : wrapper ≠ .continuations) :
    Hands wrapper args args kwargs kwargs where
  many := by rw [adds, Nat.add_zero]
  names either := either.resolve_left other

/-- What a wrapper hands to what is inside it. -/
theorem opens_inside (wears : (closure ref function env).Wears wrappers callable)
    {next : Call} (made : Call.Makes ⟨k, .apply callable given named, start⟩ next)
    (opens : (Task.apply callable given named).Opens next.task) :
    ∃ wrapper inside inner args kwargs, wrappers = wrapper :: inside ∧
      (closure ref function env).Wears inside inner ∧
      (next.task = .apply inner args kwargs ∨ next.task = .call inner args kwargs) ∧
      Hands wrapper given args named kwargs := by
  obtain ⟨k', task, m'⟩ := next
  cases wears with
  | bare =>
    cases opens with
    | passes passes => cases passes
  | memoize rest =>
    cases opens with
    | passes passes =>
      cases passes
      rcases made.asks with ⟨⟨⟩, -⟩ | ⟨⟨values, keys⟩, first, forced, asks⟩
      rcases asks with ⟨⟨⟩, -⟩ | ⟨⟨others, more⟩, second, forced', asks⟩
      obtain ⟨hit, third, looked, asks⟩ := asks
      cases hit with
      | some value => exact asks.elim
      | none =>
        rcases asks with ⟨same, -⟩ | ⟨answer, middle, -, asks⟩
        · cases same
          refine ⟨_, _, _, _, _, rfl, rest, .inr rfl, forceKeys_length forced, ?_⟩
          intro either
          rw [any_isCc_of_names (forceKwargKeys_names forced')]
          exact either.resolve_left nofun
        · obtain ⟨_, _, -, asks⟩ := asks
          exact asks.elim
  | trampolined rest =>
    cases opens with
    | passes passes =>
      cases passes
      exact ⟨_, _, _, _, _, rfl, rest, .inl rfl, .self rfl nofun⟩
  | looped rest =>
    cases opens with
    | passes passes =>
      cases passes
      obtain ⟨handle, first, -, asks⟩ := made.asks
      rcases asks with ⟨same, -⟩ | ⟨answer, middle, -, asks⟩
      · cases same
        exact ⟨_, _, _, _, _, rfl, rest, .inl rfl, rfl, fun either => either.resolve_left nofun⟩
      · rcases asks with ⟨⟨⟩, -⟩ | ⟨_, _, -, asks⟩
        exact asks.elim
  | callEc rest =>
    cases opens with
    | passes passes => cases passes
    | escapePoint =>
      obtain ⟨k, rfl, same⟩ := Call.makes_of_point made
      cases same
      exact ⟨_, _, _, _, _, rfl, rest, .inl rfl, rfl, fun either => either.resolve_left nofun⟩
  | continuations rest =>
    cases opens with
    | passes passes => cases passes
    | @contEnabled _ _ _ kwargs' =>
      refine ⟨_, _, _, _, _, rfl, rest, .inl rfl, rfl, fun _ => ?_⟩
      have asks := made.asks
      simp only [Task.plan] at asks
      split at asks
      · rename_i named
        rcases asks with ⟨same, -⟩ | ⟨_, _, -, asks⟩
        · cases same
          exact named
        · exact asks.elim
      · obtain ⟨identity, first, -, asks⟩ := asks
        rcases asks with ⟨same, -⟩ | ⟨_, _, -, asks⟩
        · cases same
          simp [isCc]
        · exact asks.elim
  | «lazy» rest =>
    cases opens with
    | passes passes => cases passes
    | lazyFn => exact ⟨_, _, _, _, _, rfl, rest, .inl rfl, .self rfl nofun⟩

/-- The wrappers add their arguments, and that for continuations names one. -/
theorem enters_args (wears : (closure ref function env).Wears wrappers callable) {n : Nat}
    {m : Machine} (enters : Call.Enters (closure ref function env) n args kwargs m
      ⟨k, .apply callable given named, start⟩) :
    args.length = given.length + addedArgs wrappers ∧
      (.continuations ∈ wrappers ∨ named.any isCc = true -> kwargs.any isCc = true) := by
  induction wrappers generalizing callable k given named start with
  | nil =>
    cases wears
    cases enters with
    | here => exact ⟨rfl, fun either => either.resolve_left List.not_mem_nil⟩
    | through made opens rest =>
      obtain ⟨_, _, _, _, _, more, -⟩ := Callable.Wears.bare.opens_inside made opens
      cases more
  | cons wrapper inside ih =>
    cases enters with
    | here => cases wears
    | @through _ next made opens enters =>
      obtain ⟨_, _, inner, args', kwargs', same, rest, task, hands⟩ := wears.opens_inside made opens
      cases same
      obtain ⟨k', _, m'⟩ := next
      obtain ⟨k'', enters⟩ : ∃ k, Call.Enters (closure ref function env) n args kwargs m
          ⟨k, .apply inner args' kwargs', m'⟩ := by
        rcases task with rfl | rfl
        · exact ⟨k', enters⟩
        · exact enters.of_call
      obtain ⟨many, names⟩ := ih rest enters
      refine ⟨by rw [many, hands.many, Nat.add_assoc, ← addedArgs_cons], ?_⟩
      rintro (member | named)
      · rcases List.mem_cons.mp member with rfl | member
        · exact names (.inr (hands.names (.inl rfl)))
        · exact names (.inl member)
      · exact names (.inr (hands.names (.inr named)))

/-- Unless results are remembered, each application comes to that of the function. -/
theorem enters (wears : (closure ref function env).Wears wrappers callable)
    (uncached : .memoize ∉ wrappers) (n : Nat) (given : List Value) (named : Kwargs)
    (start : Machine) : ∃ added kwargs m, (∀ value ∈ added, value.IsHanded) ∧
      Completes named kwargs ∧ Call.Enters (closure ref function env) n (added ++ given) kwargs m
        ⟨n + wrappers.length, .apply callable given named, start⟩ := by
  induction wears generalizing given named start with
  | bare => exact ⟨[], named, start, nofun, .given, .here⟩
  | memoize => exact absurd List.mem_cons_self uncached
  | @trampolined inside inner rest ih =>
    obtain ⟨added, kwargs, m, handed, completes, enters⟩ :=
      ih (by simpa using uncached) given named start
    have made : Call.Makes
        ⟨n + (inside.length + 1), .apply (.trampolined inner (Variant.of inner)) given named, start⟩
        ⟨n + inside.length, .apply inner given named, start⟩ := ⟨rfl, .inl ⟨rfl, rfl⟩⟩
    exact ⟨added, kwargs, m, handed, completes, .through made (.passes .trampolined) enters⟩
  | @lazy inside inner rest ih =>
    obtain ⟨added, kwargs, m, handed, completes, enters⟩ :=
      ih (by simpa using uncached) given named start
    have made : Call.Makes ⟨n + (inside.length + 1), .apply (.lazyFn inner) given named, start⟩
        ⟨n + inside.length, .apply inner given named, start⟩ := ⟨rfl, .inl ⟨rfl, rfl⟩⟩
    exact ⟨added, kwargs, m, handed, completes, .through made .lazyFn enters⟩
  | @looped inside inner rest ih =>
    let handle : Value := .func (.loopHandle start.handles inner)
    obtain ⟨added, kwargs, m, handed, completes, enters⟩ := ih (by simpa using uncached)
      (handle :: given) named { start with handles := start.handles + 1 }
    have made : Call.Makes ⟨n + (inside.length + 1), .apply (.looped inner) given named, start⟩
        ⟨n + inside.length, .apply inner (handle :: given) named,
          { start with handles := start.handles + 1 }⟩ := ⟨rfl, _, _, rfl, .inl ⟨rfl, rfl⟩⟩
    refine ⟨added ++ [handle], kwargs, m, ?_, completes, ?_⟩
    · exact List.forall_mem_append.mpr ⟨handed, List.forall_mem_singleton.mpr (.handle ..)⟩
    · rw [List.append_assoc]
      exact .through made (.passes .looped) enters
  | @callEc inside inner rest ih =>
    let escape : Value := .func (.escape start.points.size)
    obtain ⟨added, kwargs, m, handed, completes, enters⟩ := ih (by simpa using uncached)
      (escape :: given) named start.entering
    have made : Call.Makes ⟨n + (inside.length + 1), .apply (.escapePoint inner) given named, start⟩
        ⟨n + inside.length, .apply inner (escape :: given) named, start.entering⟩ :=
      ⟨rfl, _, _, rfl, .inl (.inl ⟨rfl, rfl⟩)⟩
    refine ⟨added ++ [escape], kwargs, m, ?_, completes, ?_⟩
    · exact List.forall_mem_append.mpr ⟨handed, List.forall_mem_singleton.mpr (.escape _)⟩
    · rw [List.append_assoc]
      exact .through made .escapePoint enters
  | @continuations inside inner rest ih =>
    have applies : ∀ kwargs' start', Completes named kwargs' ->
        (Task.apply (.contEnabled inner) given named).plan.Asks (Task.run (n + inside.length))
          (.apply inner given kwargs') start' start ->
        ∃ added kwargs m, (∀ value ∈ added, value.IsHanded) ∧ Completes named kwargs ∧
          Call.Enters (closure ref function env) n (added ++ given) kwargs m
            ⟨n + (inside.length + 1), .apply (.contEnabled inner) given named, start⟩ := by
      intro kwargs' start' before asks
      obtain ⟨added, kwargs, m, handed, completes, enters⟩ :=
        ih (by simpa using uncached) given kwargs' start'
      have made : Call.Makes
          ⟨n + (inside.length + 1), .apply (.contEnabled inner) given named, start⟩
          ⟨n + inside.length, .apply inner given kwargs', start'⟩ := ⟨rfl, asks⟩
      exact ⟨added, kwargs, m, handed, before.trans completes, .through made .contEnabled enters⟩
    by_cases passed : named.any isCc = true
    · refine applies named start .given ?_
      simp only [Task.plan, if_pos passed]
      exact .inl ⟨rfl, rfl⟩
    · refine applies (named ++ [(continuationParam, .func (.identity start.identities))])
        { start with identities := start.identities + 1 } (.identity (by simpa using passed) _) ?_
      simp only [Task.plan, if_neg passed]
      exact ⟨_, _, rfl, .inl ⟨rfl, rfl⟩⟩

/-- One argument too many makes no difference. -/
theorem apply_drops (wears : (closure ref function env).Wears wrappers callable)
    (uncached : .memoize ∉ wrappers) {params : List String}
    (own : function.signature.params = params ++ [continuationParam])
    (other : continuationParam ∉ params) (some : args ≠ [])
    (one : args.length + addedArgs wrappers = params.length + 1)
    (named : .continuations ∈ wrappers ∨ kwargs.any isCc = true) (n : Nat) :
    apply n callable args kwargs = apply n callable args.dropLast kwargs := by
  induction wears generalizing n args kwargs with
  | bare =>
    cases n with
    | zero => rfl
    | succ n =>
      have named := named.resolve_left List.not_mem_nil
      simp only [apply, parameterScope_drops own other env named one]
  | memoize => exact absurd List.mem_cons_self uncached
  | @trampolined inside inner rest ih | @lazy inside inner rest ih =>
    cases n with
    | zero => rfl
    | succ n =>
      have one : args.length + addedArgs inside = params.length + 1 := one
      simp only [apply]
      rw [ih (by simpa using uncached) some one (by simpa using named)]
  | @looped inside inner rest ih =>
    cases n with
    | zero => rfl
    | succ n =>
      have more : addedArgs (.looped :: inside) = addedArgs inside + 1 := by
        simp [addedArgs]
      simp only [apply]
      refine bind_congr fun handle => ?_
      rw [← List.dropLast_cons_of_ne_nil some,
        ← ih (by simpa using uncached) (List.cons_ne_nil _ _)
          (by simp only [List.length_cons]; omega)
          (by simpa using named)]
  | @callEc inside inner rest ih =>
    cases n with
    | zero => rfl
    | succ n =>
      have more : addedArgs (.callEc :: inside) = addedArgs inside + 1 := by
        simp [addedArgs]
      funext m
      rw [apply_escapePoint, apply_escapePoint, ← List.dropLast_cons_of_ne_nil some,
        ← ih (by simpa using uncached) (List.cons_ne_nil _ _)
          (by simp only [List.length_cons]; omega)
          (by simpa using named)]
  | @continuations inside inner rest ih =>
    cases n with
    | zero => rfl
    | succ n =>
      have one : args.length + addedArgs inside = params.length + 1 := one
      have inner : ∀ {kwargs : Kwargs}, kwargs.any isCc = true ->
          apply n inner args kwargs = apply n inner args.dropLast kwargs :=
        fun named => ih (by simpa using uncached) some one (.inr named) n
      simp only [apply]
      split
      · rename_i named
        exact inner named
      · refine bind_congr fun identity => inner ?_
        simp [isCc]

end Callable.Wears

/-! ## Functions -/

/-- The task is to apply or call the callable with so many positional arguments. -/
def Task.Gives (callable : Callable) (given : Nat) : Task -> Prop
  | .apply target args _ | .call target args _ => target = callable ∧ args.length = given
  | _ => False

/-- What becomes of too many arguments of a callable: a function with `count` parameters before that
for the continuation, in wrappers that put `added` arguments before those of a call. -/
structure Callable.DropsOne (callable closure : Callable) (label : String) (count added : Nat)
    (cached : Bool) : Prop where
  /-- More than one too many make a call fail that comes to the function. -/
  fails : ∀ (call : Call) (given : Nat), call.task.Gives callable given ->
    count + 1 < given + added -> ∀ n args kwargs m, call.Enters closure (n + 1) args kwargs m ->
      call.Fails (.arity label (count + 1) (given + added))
  /-- The function does with one too many what it does without it. -/
  drops : ∀ (call : Call) (given : Nat), call.task.Gives callable given ->
    given + added = count + 1 -> ∀ n args kwargs m, call.Enters closure n args kwargs m ->
      args.length = count + 1 ∧
        apply n closure args kwargs = apply n closure args.dropLast kwargs
  /-- Unless results are remembered, more than one too many make every application fail. -/
  always : cached = false -> ∀ args kwargs m, count + 1 < args.length + added ->
    ∃ n last, apply n callable args kwargs m =
      some (.error (.arity label (count + 1) (args.length + added)), last)
  /-- Unless results are remembered, one too many makes no difference to an application. -/
  same : cached = false -> ∀ args, args ≠ [] -> args.length + added = count + 1 ->
    ∀ n kwargs, apply n callable args kwargs = apply n callable args.dropLast kwargs

namespace Callable.Wears

variable {ref : Nat} {function : Function} {env : Env} {callable : Callable}
variable {wrappers : List Decorator}

section Continues

variable (wears : (closure ref function env).Wears wrappers callable)
variable (continues : .continuations ∈ wrappers) {params : List String}
variable (own : function.signature.params = params ++ [continuationParam])
include wears continues

variable {call : Call} {given n : Nat} {args : List Value} {kwargs : Kwargs} {m : Machine}

/-- What a call that comes to the function gives it. -/
theorem enters_gives (gives : call.task.Gives callable given)
    (enters : call.Enters (closure ref function env) n args kwargs m) :
    args.length = given + addedArgs wrappers ∧ kwargs.any isCc = true := by
  obtain ⟨k, task, start⟩ := call
  cases task with
  | apply target values named =>
    obtain ⟨rfl, rfl⟩ := gives
    exact (wears.enters_args enters).imp_right fun names => names (.inl continues)
  | call target values named =>
    obtain ⟨rfl, rfl⟩ := gives
    obtain ⟨k, enters⟩ := enters.of_call
    exact (wears.enters_args enters).imp_right fun names => names (.inl continues)
  | _ => exact gives.elim

include own

/-- A call that gives the function more than one argument too many fails. -/
theorem overflow_fails (gives : call.task.Gives callable given)
    (more : params.length + 1 < given + addedArgs wrappers)
    (enters : call.Enters (closure ref function env) (n + 1) args kwargs m) : call.Fails
      (.arity function.signature.label (params.length + 1) (given + addedArgs wrappers)) := by
  obtain ⟨many, -⟩ := wears.enters_gives continues gives enters
  refine enters.fails rfl ⟨m, ?_⟩
  have count : function.signature.params.length = params.length + 1 := by
    rw [own, List.length_append, List.length_singleton]
  have tooMany : function.signature.params.length < args.length := by omega
  have overflows := parameterScope_overflows function.signature env kwargs tooMany m
  rw [count, many] at overflows
  exact bind_eq_some.mpr (.inr ⟨_, m, overflows, rfl⟩)

/-- Whatever the wrappers of a function are, one positional argument too many is dropped. -/
theorem dropsOne (other : continuationParam ∉ params) :
    callable.DropsOne (closure ref function env) function.signature.label params.length
      (addedArgs wrappers) (wrappers.contains .memoize) := by
  refine ⟨fun _ _ gives more _ _ _ _ => wears.overflow_fails continues own gives more,
    fun call given gives one n args kwargs m enters => ?_,
    fun uncached args kwargs m more => ?_, fun uncached args some one n kwargs => ?_⟩
  · obtain ⟨many, named⟩ := wears.enters_gives continues gives enters
    have one := many.trans one
    refine ⟨one, ?_⟩
    cases n with
    | zero => rfl
    | succ n => simp only [apply, parameterScope_drops own other env named one]
  · have uncached : .memoize ∉ wrappers := by simpa using uncached
    obtain ⟨added, kwargs', m', -, -, enters⟩ := wears.enters uncached 1 args kwargs m
    let call : Call := ⟨1 + wrappers.length, .apply callable args kwargs, m⟩
    have gives : call.task.Gives callable args.length := ⟨rfl, rfl⟩
    obtain ⟨last, ends⟩ := wears.overflow_fails continues own gives more enters
    exact ⟨_, last, ends⟩
  · exact wears.apply_drops (by simpa using uncached) own other some one (.inl continues) n

end Continues

/-- What a trampoline applies in place of the callable takes arguments alike. -/
theorem underTrampoline (wears : (closure ref function env).Wears wrappers callable) :
    ∃ inside, (closure ref function env).Wears inside callable.underTrampoline ∧
      addedArgs inside = addedArgs wrappers ∧
      ∀ wrapper, wrapper ≠ .trampolined -> (wrapper ∈ inside ↔ wrapper ∈ wrappers) := by
  cases wears with
  | trampolined rest =>
    refine ⟨_, rest, rfl, fun wrapper other => ?_⟩
    simp [other]
  | bare => exact ⟨_, .bare, rfl, fun _ _ => Iff.rfl⟩
  | memoize rest => exact ⟨_, .memoize rest, rfl, fun _ _ => Iff.rfl⟩
  | looped rest => exact ⟨_, .looped rest, rfl, fun _ _ => Iff.rfl⟩
  | callEc rest => exact ⟨_, .callEc rest, rfl, fun _ _ => Iff.rfl⟩
  | continuations rest => exact ⟨_, .continuations rest, rfl, fun _ _ => Iff.rfl⟩
  | «lazy» rest => exact ⟨_, .lazy rest, rfl, fun _ _ => Iff.rfl⟩

end Callable.Wears

/-- A jump passes on as many arguments as it has, to its target or what is under its trampoline, and
fails as this does. -/
theorem Call.Makes.step_gives {n : Nat} {variant : Variant} {ref : Nat} {jump : Jump}
    {next : Call} (pending : m.jump ref = .pending jump)
    (made : Call.Makes ⟨n + 1, .takeStep variant ref, m⟩ next) {target : Callable} {given : Nat}
    (gives : next.task.Gives target given) :
    (target = jump.target ∨ target = jump.target.underTrampoline) ∧ given = jump.args.length ∧
      ∀ error, next.Fails error -> Call.Fails ⟨n + 1, .takeStep variant ref, m⟩ error := by
  have straight : (Task.takeStep variant ref).plan.Straight := by
    intro jump forced told
    cases jump.cc with
    | none => exact fun _ => trivial
    | some cc =>
      simp only
      split
      · exact fun _ => trivial
      · split
        · exact fun _ => trivial
        · exact fun _ _ _ => trivial
  have fails : ∀ error, next.Fails error -> Call.Fails ⟨n + 1, .takeStep variant ref, m⟩ error :=
    fun error failed => made.fails_straight straight failed
  obtain ⟨k, task, m'⟩ := next
  obtain ⟨taken, first, takes, asks⟩ := made.asks
  obtain rfl : taken = jump := by
    simp only [Run.takeJump, pending] at takes
    cases takes
    rfl
  rcases asks with ⟨same, -⟩ | ⟨⟨args, kwargs⟩, second, forced, asks⟩
  · obtain rfl : _ = task := same
    exact gives.elim
  have many := forceForStrict_length forced
  obtain ⟨⟨⟩, third, -, asks⟩ := asks
  cases continuation : taken.cc with
  | none =>
    simp only [continuation] at asks
    rcases asks with ⟨same, -⟩ | ⟨_, _, -, asks⟩
    · cases same
      obtain ⟨rfl, rfl⟩ := gives
      exact ⟨.inr rfl, many, fails⟩
    · exact asks.elim
  | some cc =>
    simp only [continuation] at asks
    split at asks
    · rcases asks with ⟨same, -⟩ | ⟨_, _, -, asks⟩
      · cases same
        obtain ⟨rfl, rfl⟩ := gives
        exact ⟨.inr rfl, many, fails⟩
      · exact asks.elim
    · split at asks
      · rcases asks with ⟨same, -⟩ | ⟨_, _, -, asks⟩
        · cases same
          obtain ⟨rfl, rfl⟩ := gives
          exact ⟨.inr rfl, many, fails⟩
        · exact asks.elim
      · rcases asks with ⟨same, -⟩ | ⟨result, fourth, -, asks⟩
        · cases same
          obtain ⟨rfl, rfl⟩ := gives
          exact ⟨.inl rfl, many, fails⟩
        · obtain ⟨callable, fifth, -, made, sixth, -, asks⟩ := asks
          exact asks.elim

/-- A function of a `continuations` block gets a last parameter for the continuation and the wrapper
that gives one. -/
theorem Program.transform_continued {source : String} {path : Option String} {program : Program}
    (parsed : Program.parse source path = .ok program) {table : DecoratorTable}
    {escapes : List String} {transformed : Transformed}
    (succeeds : program.transform table escapes = .ok transformed)
    (member : function ∈ program.functions) (inBlock : function.signature.regions.cont = true)
    (other : continuationParam ∉ function.signature.params) :
    ∃ dressed ∈ transformed.program.functions,
      dressed.signature.id = function.signature.id ∧ dressed.signature.kind = .plain ∧
      dressed.signature.label = function.signature.label ∧
      dressed.signature.params = function.signature.params ++ [continuationParam] ∧
      .continuations ∈ dressed.signature.wrappers ∧
      ∃ asked, table.Nests asked dressed.signature.wrappers := by
  obtain ⟨mark, inProgram⟩ := Program.mem_functions.mp member
  obtain ⟨kind, -⟩ := Program.parse_isSource parsed _ inProgram
  obtain ⟨inside, rewritten, body, -, rewrites, -, dressed, listed, dresses⟩ :=
    Program.transform_functions succeeds member
  have same := rewrites.of (functionBody_params _)
  have resolves := dresses.of (Transform.functionWrappers_resolve _)
  obtain ⟨wrappers, rfl⟩ := dresses.eq
  obtain ⟨written, -, nests⟩ := Transform.resolveWrappers_nests resolves
  refine ⟨_, listed, by rw [same], by simp only [same]; exact kind, ?_, ?_, ?_, _, nests⟩
  · show rewritten.signature.label = function.signature.label
    rw [same]
    rfl
  · simp [same, rewrittenParams, withContinuationParam, inBlock, other]
  · refine (Transform.mem_resolveWrappers resolves).mpr (.inr ?_)
    simp [Transform.impliedWrappers, same, kind, inBlock]

/-- Functions of `continuations` blocks drop one argument too many. Whatever the table and the
wrappers, in every call of such a function, plain or by a jump, the function takes one positional
argument more than its source says, and does what it does without it; only with more of them it
fails. The arguments that wrappers put before those of the call count as well. -/
theorem Program.continuations_arity {source : String} {path : Option String} {program : Program}
    (parsed : Program.parse source path = .ok program) {table : DecoratorTable}
    {escapes : List String} {transformed : Transformed}
    (succeeds : program.transform table escapes = .ok transformed) {function : Function}
    (member : function ∈ program.functions) (inBlock : function.signature.regions.cont = true)
    (other : continuationParam ∉ function.signature.params) :
    ∃ dressed ∈ transformed.program.functions,
      dressed.signature.id = function.signature.id ∧
      ∀ frame start callable frame' made,
        expose (makeClosure dressed) frame start = some (.ok (.func callable, frame'), made) ->
        ∃ ref, (∀ target, target = callable ∨ target = callable.underTrampoline ->
            target.DropsOne (.closure ref dressed frame.env) function.signature.label
              function.signature.params.length (addedArgs dressed.signature.wrappers)
              (dressed.signature.wrappers.contains .memoize)) ∧
          ∀ n variant ref m jump next target given, m.jump ref = .pending jump ->
            jump.target = callable -> Call.Makes ⟨n + 1, .takeStep variant ref, m⟩ next ->
            next.task.Gives target given ->
              (target = callable ∨ target = callable.underTrampoline) ∧
              given = jump.args.length ∧
              ∀ error, next.Fails error -> Call.Fails ⟨n + 1, .takeStep variant ref, m⟩ error := by
  obtain ⟨dressed, listed, sameId, kind, label, own, continues, -⟩ :=
    Program.transform_continued parsed succeeds member inBlock other
  refine ⟨dressed, listed, sameId, fun frame start callable frame' made makes => ?_⟩
  obtain ⟨ref, wears⟩ := makeClosure_wears kind makes
  refine ⟨ref, ?_, ?_⟩
  · have whole := wears.dropsOne continues own other
    rintro target (rfl | rfl)
    · rw [← label]
      exact whole
    · obtain ⟨inside, wears, added, kept⟩ := wears.underTrampoline
      have continues := (kept .continuations (by decide)).mpr continues
      have part := wears.dropsOne continues own other
      have cached : inside.contains .memoize = dressed.signature.wrappers.contains .memoize := by
        rw [Bool.eq_iff_iff, List.contains_iff_mem, List.contains_iff_mem]
        exact kept .memoize (by decide)
      rw [added, cached] at part
      rw [← label]
      exact part
  · rintro n variant ref m jump next target given pending rfl made gives
    exact made.step_gives pending gives

/-! ### One argument too many -/

/-- A function that was written has a value. -/
theorem makeClosure_ends (written : function.signature.kind = .plain)
    (frame : Frame) (m : Machine) : ∃ callable made,
      expose (makeClosure function) frame m = some (.ok (.func callable, frame), made) := by
  simp only [makeClosure, expose_bind, expose_frame, pure_bind, written, expose_within,
    expose_pure, bind_assoc]
  obtain ⟨callable, made, wraps⟩ := wrap_ends (.closure m.closures function frame.env)
    function.signature.wrappers { m with closures := m.closures + 1 }
  exact ⟨callable, made, (bind_apply (rfl : Run.newClosure m = _) _).trans (bind_apply wraps _)⟩

/-- A call with one argument too many, inside its block and outside. -/
def overfullCall : String := "(continuations (defn f (x) x)) (f 1 2)"

/-- A call with one argument too many answers as the call without it. -/
theorem overfullCall_dropsOne : ∃ transformed dressed callable made,
    (Program.ofText overfullCall).transform .default ["ec"] = .ok transformed ∧
    dressed ∈ transformed.program.functions ∧
    expose (makeClosure dressed) Frame.toplevel (.start false) =
      some (.ok (.func callable, Frame.toplevel), made) ∧
    (∀ n kwargs, apply n callable [.int 1, .int 2] kwargs = apply n callable [.int 1] kwargs) ∧
    ∃ n last, apply n callable [.int 1, .int 2, .int 3] [] made =
      some (.error (.arity "f" 2 3), last) := by
  have ⟨reads, ⟨function, member, inBlock, params, name⟩, shape⟩ :
      (Program.parse overfullCall none).toOption.isSome = true ∧
      (∃ function ∈ (Program.ofText overfullCall).functions,
        function.signature.regions.cont = true ∧ function.signature.params = ["x"] ∧
          function.signature.name = some "f") ∧
      ((Program.ofText overfullCall).transform .default ["ec"]).toOption.any
        (fun transformed => transformed.program.functions.all fun function =>
          function.signature.kind = .plain ∧ addedArgs function.signature.wrappers = 0 ∧
            function.signature.wrappers.contains .memoize = false) = true := by
    rw [Program.ofText, overfullCall, Program.parse_ofList]
    decide +kernel
  cases succeeds : (Program.ofText overfullCall).transform .default ["ec"] with
  | error error => simp [succeeds, Except.toOption] at shape
  | ok transformed =>
    simp only [succeeds, Except.toOption, Option.any_some, List.all_eq_true,
      decide_eq_true_eq] at shape
    have other : continuationParam ∉ function.signature.params := by
      rw [params]
      decide
    obtain ⟨dressed, listed, -, drops⟩ :=
      Program.continuations_arity (Program.parse_ofText reads) succeeds member inBlock other
    obtain ⟨kind, unadded, uncached⟩ := shape dressed listed
    obtain ⟨callable, made, makes⟩ := makeClosure_ends kind Frame.toplevel (.start false)
    obtain ⟨ref, drops, -⟩ := drops Frame.toplevel (.start false) callable Frame.toplevel made makes
    have dropsOne := drops callable (.inl rfl)
    rw [unadded, uncached, params,
      show function.signature.label = "f" by simp [Signature.label, name]]
      at dropsOne
    refine ⟨transformed, dressed, callable, made, rfl, listed, makes, fun n kwargs => ?_, ?_⟩
    · exact dropsOne.same rfl [.int 1, .int 2] (by simp) rfl n kwargs
    · exact dropsOne.always rfl [.int 1, .int 2, .int 3] [] made (by decide)

/-- The same call outside a block. -/
def plainOverfullCall : String := "(defn f (x) x) (f 1 2)"

/-- Whether a run ends because a call had too many arguments. -/
def isOverfull : Except EvalError Value -> Bool
  | .error (.arity ..) => true
  | _ => false

/-- In its block the call is no error, and outside it is one. -/
theorem overfullCall_returns :
    (∃ function ∈ (Program.ofText overfullCall).functions,
      function.signature.regions.cont = true ∧ function.signature.params = ["x"]) ∧
    (∃ transformed last, (Program.ofText overfullCall).transform .default ["ec"] = .ok transformed ∧
      transformed.program.EndsOn (.start false) (.ok (.int 1), last) ∧ last.output = "") ∧
    ∃ transformed outcome,
      (Program.ofText plainOverfullCall).transform .default ["ec"] = .ok transformed ∧
      transformed.program.EndsOn (.start false) outcome ∧ isOverfull outcome.1 = true := by
  have ⟨function, inside, outside⟩ :
      (∃ function ∈ (Program.ofText overfullCall).functions,
        function.signature.regions.cont = true ∧ function.signature.params = ["x"]) ∧
      Program.endsWith overfullCall 1 "" = true ∧
      Program.endsSo plainOverfullCall isOverfull = true := by
    rw [Program.endsWith, Program.endsSo, Program.ofText, overfullCall, Program.parse_ofList,
      Program.ofText, plainOverfullCall, Program.parse_ofList]
    decide +kernel
  exact ⟨function, Program.endsWith_endsOn inside, Program.endsSo_endsOn outside⟩

end Trampoline
