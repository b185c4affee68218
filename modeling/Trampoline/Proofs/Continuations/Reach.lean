import Mathlib.Data.List.Find
import Trampoline.Proofs.Continuations.Arity
import Trampoline.Proofs.Continuations.Parameters

/-!
# The continuation of a body

The body of a function of a `continuations` block begins with one continuation: that of the jump
that was taken to get there, else the one that was passed by keyword, else the identity. It is so by
every way of applying the function, as long as none of its wrappers remembers results.
-/

namespace Trampoline

open Exec

/-! ## Calls that come to a body -/

/-- Through the wrappers of a function, the call comes to evaluate its body in the scope. -/
def Call.Starts (call : Call) (function : Function) (scope : Env) (m : Machine) : Prop :=
  ∃ ref env n args kwargs start,
    call.Enters (.closure ref function env) (n + 1) args kwargs start ∧
    Call.Makes ⟨n + 1, .apply (.closure ref function env) args kwargs, start⟩
      ⟨n, .eval function.body ⟨scope, function.signature.isLazy, none⟩, m⟩

/-- The value is the continuation, or the identity if there is none. -/
def IsContinuation (continuation? : Option Value) (value : Value) : Prop :=
  match continuation? with
  | some continuation => value = continuation
  | none => ∃ number, value = .func (.identity number)

/-- What comes of a call of a function that has `params` before the parameter for the continuation.
Its checks are made in this order: there are not too many positional arguments, each keyword names a
parameter, each parameter has an argument. Then its body begins, with the arguments and the
continuation. -/
inductive Call.BindsParams (function : Function) (params : List String) (args : List Value)
    (kwargs : Kwargs) (continuation? : Option Value) (call : Call) : Prop
  | arity (more : params.length + 1 < args.length) (fails : call.Fails
      (.arity function.signature.label (params.length + 1) args.length))
  | unexpectedKeyword {keyword : String} (fits : args.length ≤ params.length + 1)
      (first : (kwargs.map Prod.fst).find?
        (fun keyword => keyword ∉ params ++ [continuationParam]) = some keyword)
      (fails : call.Fails (.unexpectedKeyword function.signature.label keyword))
  | missingArgument {param : String} (fits : args.length ≤ params.length + 1)
      (known : ∀ keyword ∈ kwargs.map Prod.fst, keyword ∈ params ++ [continuationParam])
      (first :
        params.find? (fun param => (argumentFor params args kwargs param).isNone) = some param)
      (fails : call.Fails (.missingArgument function.signature.label param))
  | starts {scope : Env} {m : Machine} (fits : args.length ≤ params.length + 1)
      (known : ∀ keyword ∈ kwargs.map Prod.fst, keyword ∈ params ++ [continuationParam])
      (starts : call.Starts function scope m)
      (bound : ∀ param ∈ params, ∃ ref, scope.lookup param = some ref ∧
        argumentFor params args kwargs param = some (m.cell ref))
      (continues : ∃ ref, scope.lookup continuationParam = some ref ∧
        IsContinuation continuation? (m.cell ref))

section Parameters

variable {params : List String} {args : List Value} {kwargs named : Kwargs}

theorem mem_names_iff : continuationParam ∈ kwargs.map Prod.fst ↔ kwargs.any isCc = true := by
  rw [List.mem_map, List.any_eq_true]
  simp only [isCc, beq_iff_eq]

/-- No continuation is found exactly if there is none. -/
theorem lookup_eq_none_iff :
    kwargs.lookup continuationParam = none ↔ kwargs.any isCc = false := by
  rw [List.lookup_eq_none_iff, List.any_eq_false]
  refine forall₂_congr fun kwarg _ => ?_
  rw [bne_iff_ne, isCc, beq_iff_eq, ne_comm]

/-- A parameter before the last has the same argument without the last, and without the identity. -/
theorem argumentFor_completes (completes : Completes named kwargs)
    (other : continuationParam ∉ params)
    {param : String} (listed : param ∈ params) :
    argumentFor (params ++ [continuationParam]) args kwargs param =
      argumentFor params args named param := by
  have differs : param ≠ continuationParam := fun same => other (same ▸ listed)
  have same : kwargs.lookup param = named.lookup param := by
    cases completes with
    | given => rfl
    | identity absent number =>
      rw [List.lookup_append, List.lookup_cons, beq_false_of_ne differs]
      exact Option.or_none
  rw [argumentFor, argumentFor, same, List.idxOf_append_of_mem listed]

/-- What the last parameter is bound to. -/
theorem argumentFor_continuation (params : List String) (args : List Value)
    (completes : Completes named kwargs)
    (continues : kwargs.any isCc = true) : ∃ value,
      argumentFor (params ++ [continuationParam]) args kwargs continuationParam = some value ∧
        IsContinuation (named.lookup continuationParam) value := by
  cases completes with
  | given =>
    obtain ⟨value, found⟩ : ∃ value, kwargs.lookup continuationParam = some value := by
      rw [← Option.ne_none_iff_exists']
      intro missing
      rw [lookup_eq_none_iff.mp missing] at continues
      cases continues
    rw [argumentFor, found]
    exact ⟨value, rfl, rfl⟩
  | identity absent number =>
    rw [argumentFor, List.lookup_append, lookup_eq_none_iff.mpr absent, List.lookup_cons_self]
    exact ⟨_, rfl, number, rfl⟩

/-- A continuation that is added is the only one. -/
theorem Completes.distinct (completes : Completes named kwargs)
    (once : (named.map Prod.fst).Nodup) :
    (kwargs.map Prod.fst).Nodup := by
  cases completes with
  | given => exact once
  | identity absent number =>
    rw [List.map_append, List.nodup_append_comm]
    refine List.nodup_cons.mpr ⟨fun member => ?_, once⟩
    rw [mem_names_iff.mp member] at absent
    cases absent

/-- The identity names a parameter. -/
theorem Completes.find?_unknown (completes : Completes named kwargs) :
    (kwargs.map Prod.fst).find? (fun keyword => keyword ∉ params ++ [continuationParam]) =
      (named.map Prod.fst).find? (fun keyword => keyword ∉ params ++ [continuationParam]) := by
  cases completes with
  | given => rfl
  | identity absent number => simp [List.find?_append]

/-- The name for continuations is the only one that may be added. -/
theorem Completes.known {names : List String} (completes : Completes named kwargs)
    (known : ∀ keyword ∈ kwargs.map Prod.fst, keyword ∈ names) :
    ∀ keyword ∈ named.map Prod.fst, keyword ∈ names := by
  cases completes with
  | given => exact known
  | identity absent number =>
    rw [List.map_append] at known
    exact (List.forall_mem_append.mp known).1

end Parameters

namespace Callable.Wears

variable {ref : Nat} {function : Function} {env : Env} {callable : Callable}
variable {wrappers : List Decorator} {params : List String}

/-- What comes of applying a function with its wrappers. -/
theorem binds (wears : (closure ref function env).Wears wrappers callable)
    (uncached : .memoize ∉ wrappers) (continues : .continuations ∈ wrappers)
    (own : function.signature.params = params ++ [continuationParam]) (once : params.Nodup)
    (other : continuationParam ∉ params) (n : Nat) (args : List Value) {named : Kwargs}
    (distinct : (named.map Prod.fst).Nodup) (start : Machine) :
    ∃ added, (∀ value ∈ added, value.IsHanded) ∧ added.length = addedArgs wrappers ∧
      Call.BindsParams function params (added ++ args) named (named.lookup continuationParam)
        ⟨n + 1 + wrappers.length, .apply callable args named, start⟩ := by
  obtain ⟨added, kwargs, m, handed, completes, enters⟩ :=
    wears.enters uncached (n + 1) args named start
  obtain ⟨many, names⟩ := wears.enters_args enters
  have onceOwn : function.signature.params.Nodup := by
    rw [own, List.nodup_append_comm]
    exact List.nodup_cons.mpr ⟨other, once⟩
  have count : function.signature.params.length = params.length + 1 := by simp [own]
  refine ⟨added, handed, by simpa [Nat.add_comm] using many, ?_⟩
  obtain ⟨outcome, scopes, binds⟩ :=
    parameterScope_binds onceOwn (completes.distinct distinct) env (added ++ args) m
  have fails {error : EvalError} {last : Machine} (noEscape : error.isEscape = false)
      (scopes : parameterScope function.signature env (added ++ args) kwargs m =
        some (.error error, last)) : Call.Fails
          ⟨n + 1 + wrappers.length, .apply callable args named, start⟩ error :=
    enters.fails noEscape ⟨last, bind_eq_some.mpr (.inr ⟨error, last, scopes, rfl⟩)⟩
  cases binds with
  | arity more =>
    rw [count] at more scopes
    exact .arity more (fails rfl scopes)
  | unexpectedKeyword fits first =>
    rw [count] at fits
    rw [own, completes.find?_unknown] at first
    exact .unexpectedKeyword fits first (fails rfl scopes)
  | missingArgument fits known first =>
    rw [count] at fits
    rw [own] at first known
    rw [List.find?_append] at first
    obtain ⟨value, isGiven, -⟩ := argumentFor_continuation params (added ++ args) completes
      (names (.inl continues))
    have given : ([continuationParam].find? fun param =>
        (argumentFor (params ++ [continuationParam]) (added ++ args) kwargs param).isNone) =
          none := by
      simp [isGiven]
    rw [given, Option.or_none, List.find?_congr fun param listed => by
      rw [argumentFor_completes completes other listed]] at first
    refine .missingArgument fits ?_ first (fails rfl scopes)
    exact completes.known known
  | @scope last scope fits known bound =>
    rw [count] at fits
    rw [own] at bound known
    obtain ⟨value, isGiven, isContinuation⟩ := argumentFor_continuation params
      (added ++ args) completes (names (.inl continues))
    have starts : Call.Starts ⟨n + 1 + wrappers.length, .apply callable args named, start⟩ function
        scope last :=
      ⟨ref, env, n, added ++ args, kwargs, m, enters, rfl, scope, last, scopes, .inl ⟨rfl, rfl⟩⟩
    refine .starts fits (completes.known known) starts (fun param listed => ?_) ?_
    · obtain ⟨cell, found, same⟩ := bound param (List.mem_append_left _ listed)
      exact ⟨cell, found, (argumentFor_completes completes other listed).symm.trans same⟩
    · obtain ⟨cell, found, same⟩ := bound continuationParam (by simp)
      obtain rfl : value = last.cell cell := Option.some.inj (isGiven.symm.trans same)
      exact ⟨cell, found, isContinuation⟩

end Callable.Wears

/-! ## Callables of a function -/

/-- How many arguments the wrappers of a callable put before those of a call. -/
def Callable.handed : Callable -> Nat
  | looped inner | escapePoint inner => inner.handed + 1
  | memoized inner _ | trampolined inner _ | contEnabled inner | lazyFn inner => inner.handed
  | _ => 0

namespace Callable.Wears

variable {ref : Nat} {function : Function} {env : Env} {base callable target : Callable}
variable {wrappers outer : List Decorator}

/-- A wrapped function is handed as many arguments as its wrappers add. -/
theorem handed_eq (wears : (closure ref function env).Wears wrappers callable) :
    callable.handed = addedArgs wrappers := by
  induction wears with
  | bare => rfl
  | looped _ ih | callEc _ ih =>
    rw [addedArgs_cons, Nat.add_comm, Callable.handed, ih]
    rfl
  | _ _ ih =>
    rw [addedArgs_cons, Callable.handed, ih]
    exact (Nat.zero_add _).symm

theorem trans (first : base.Wears wrappers target) (second : target.Wears outer callable) :
    base.Wears (outer ++ wrappers) callable := by
  induction second with
  | bare => exact first
  | memoize _ ih => exact .memoize ih
  | trampolined _ ih => exact .trampolined ih
  | looped _ ih => exact .looped ih
  | callEc _ ih => exact .callEc ih
  | continuations _ ih => exact .continuations ih
  | «lazy» _ ih => exact .lazy ih

/-- Inside the outer wrappers of a function are the others. -/
theorem inside (wears : (closure ref function env).Wears wrappers callable)
    (around : target.Wears outer callable) :
    ∃ inner, wrappers = outer ++ inner ∧ (closure ref function env).Wears inner target := by
  induction around generalizing wrappers with
  | bare => exact ⟨wrappers, rfl, wears⟩
  | _ _ ih =>
    cases wears
    rename_i rest
    obtain ⟨inner, rfl, wears⟩ := ih rest
    exact ⟨inner, rfl, wears⟩

/-- In the default order, what a loop goes round with takes continuations if the function does. -/
theorem looped_acceptsCc (wears : (closure ref function env).Wears wrappers callable)
    (ordered : Ordered wrappers) (continues : .continuations ∈ wrappers) {inner : Callable}
    (around : (Callable.looped inner).Wears outer callable) : inner.acceptsCc = true := by
  obtain ⟨within, rfl, wearsWithin⟩ := wears.inside around
  cases wearsWithin with
  | @looped within _ rest =>
    obtain ⟨-, orderedWithin, across⟩ := List.pairwise_append.mp ordered
    obtain ⟨after, orderedRest⟩ := List.pairwise_cons.mp orderedWithin
    have further : .continuations ∈ within := by
      rcases List.mem_append.mp continues with member | member
      · have lower := across _ member .looped List.mem_cons_self
        simp [Decorator.defaultPosition] at lower
      · simpa using member
    have uncached : .memoize ∉ within := fun member => by
      have lower := after .memoize member
      simp [Decorator.defaultPosition] at lower
    rw [rest.acceptsCc orderedRest rfl]
    simp [further, uncached]

/-- What a trampoline applies in place of a callable of a function is one as well. -/
theorem around_underTrampoline (wears : (closure ref function env).Wears wrappers callable)
    (around : target.Wears outer callable) :
    ∃ outer, target.underTrampoline.Wears outer callable := by
  obtain ⟨inner, -, inside⟩ := wears.inside around
  cases inside with
  | trampolined => exact ⟨_, (Wears.trampolined .bare).trans around⟩
  | _ => exact ⟨_, around⟩

end Callable.Wears

theorem Callable.acceptsCc_underTrampoline (callable : Callable) :
    callable.underTrampoline.acceptsCc = callable.acceptsCc := by
  cases callable <;> rfl

/-! ## Jumps -/

section Jumps

variable {n k ref : Nat} {variant : Variant} {m m' : Machine} {jump : Jump} {target : Callable}
  {args : List Value} {kwargs named : Kwargs}

/-- The continuation that a call takes along with the jump which it runs. -/
def Call.continuation? (call : Call) : Option Value :=
  match call.task with
  | .takeStep _ ref =>
    match call.machine.jump ref with
    | .pending jump => jump.cc
    | .consumed => none
  | _ => none

/-- A continuation that was put in its place is found. -/
theorem lookup_replaceCc (kwargs : Kwargs) (cc : Value) :
    (replaceCc kwargs cc).lookup continuationParam = some cc := by
  have others : (kwargs.filter fun kwarg => !isCc kwarg).lookup continuationParam = none := by
    rw [lookup_eq_none_iff, List.any_eq_false]
    intro kwarg member
    simpa using (List.mem_filter.mp member).2
  rw [replaceCc, List.lookup_append, others, List.lookup_cons_self]
  rfl

/-- Keyword arguments stay distinct when the continuation among them is replaced. -/
theorem names_replaceCc (distinct : (kwargs.map Prod.fst).Nodup) (cc : Value) :
    ((replaceCc kwargs cc).map Prod.fst).Nodup := by
  rw [replaceCc, List.map_append, List.nodup_append_comm]
  refine List.nodup_cons.mpr ⟨fun member => ?_, distinct.sublist (List.filter_sublist.map _)⟩
  obtain ⟨kwarg, inside, isCc⟩ := List.any_eq_true.mp (mem_names_iff.mp member)
  simp [isCc] at inside

/-- Forcing keyword arguments keeps their names. -/
theorem forceKwargs_names (ends : forceKwargs n kwargs m = some (.ok named, m')) :
    named.map Prod.fst = kwargs.map Prod.fst := by
  induction kwargs generalizing n named m m' with
  | nil =>
    cases n <;> cases ends
    rfl
  | cons kwarg rest ih =>
    cases n with
    | zero => cases ends
    | succ n =>
      obtain ⟨value, middle, -, ends⟩ := bind_eq_ok.mp ends
      obtain ⟨others, last, forces, ends⟩ := bind_eq_ok.mp ends
      cases ends
      simp [ih forces]

/-- What a strict callee is given has the names that there were. -/
theorem forceForStrict_names {given : List Value}
    (ends : forceForStrict n variant target given kwargs m = some (.ok (args, named), m')) :
    named.map Prod.fst = kwargs.map Prod.fst := by
  cases n with
  | zero => cases ends
  | succ n =>
    unfold forceForStrict at ends
    split at ends
    · obtain ⟨forced, middle, -, ends⟩ := bind_eq_ok.mp ends
      obtain ⟨others, last, forces, ends⟩ := bind_eq_ok.mp ends
      cases ends
      exact forceKwargs_names forces
    · cases ends
      rfl

/-- What a jump applies is its target without the trampoline around it, to the arguments of the
jump, forced if need be, and with the continuation of the jump if the target takes one. -/
theorem Call.Makes.step_applies (pending : m.jump ref = .pending jump)
    (made : Call.Makes ⟨n + 1, .takeStep variant ref, m⟩ ⟨k, .apply target args kwargs, m'⟩) :
    target = jump.target.underTrampoline ∧ ∃ named before after,
      forceForStrict n variant target jump.args jump.kwargs before =
        some (.ok (args, named), after) ∧
      kwargs = match jump.cc with
        | some cc => if target.acceptsCc then replaceCc named cc else named
        | none => named := by
  obtain rfl : n = k := Nat.succ.inj made.fuel
  obtain ⟨taken, first, takes, asks⟩ := made.asks
  obtain rfl : taken = jump := by
    simp only [Run.takeJump, pending] at takes
    cases takes
    rfl
  rcases asks with ⟨⟨⟩, -⟩ | ⟨⟨values, named⟩, second, forced, asks⟩
  obtain ⟨⟨⟩, third, -, asks⟩ := asks
  cases continuation : taken.cc with
  | none =>
    simp only [continuation] at asks
    rcases asks with ⟨⟨⟩, -⟩ | ⟨_, _, -, asks⟩
    · exact ⟨rfl, _, first, second, forced, rfl⟩
    · exact asks.elim
  | some cc =>
    simp only [continuation] at asks
    split at asks
    · rename_i accepts
      rcases asks with ⟨⟨⟩, -⟩ | ⟨_, _, -, asks⟩
      · exact ⟨rfl, _, first, second, forced, (if_pos accepts).symm⟩
      · exact asks.elim
    · rename_i refuses
      split at asks
      · rcases asks with ⟨⟨⟩, -⟩ | ⟨_, _, -, asks⟩
        · exact ⟨rfl, _, first, second, forced, (if_neg refuses).symm⟩
        · exact asks.elim
      · rcases asks with ⟨⟨⟩, -⟩ | ⟨result, fourth, -, asks⟩
        obtain ⟨callable, fifth, -, made, sixth, -, asks⟩ := asks
        exact asks.elim

/-- A callable that takes continuations is given that of the jump by keyword. -/
theorem Call.Makes.continuation_or {caller : Call} {m : Machine}
    (made : caller.Makes ⟨k, .apply target args kwargs, m⟩) (accepts : target.acceptsCc = true) :
    caller.continuation?.or (kwargs.lookup continuationParam) =
      kwargs.lookup continuationParam := by
  obtain ⟨n, task, start⟩ := caller
  cases task with
  | takeStep variant ref =>
    cases pending : start.jump ref with
    | consumed => simp [continuation?, pending]
    | pending jump =>
      cases continuation : jump.cc with
      | none => simp [continuation?, pending, continuation]
      | some cc =>
        obtain rfl : n = k + 1 := made.fuel
        obtain ⟨-, named, before, after, -, given⟩ := made.step_applies pending
        simp only [continuation, accepts, if_true] at given
        simp [continuation?, pending, continuation, given, lookup_replaceCc]
  | _ => rfl

end Jumps

/-! ## Functions of `continuations` blocks -/

/-- However the callable is applied, or what is inside its wrappers, one continuation reaches the
body of the function, which has `params` before the parameter for it. -/
structure Callable.Reaches (callable : Callable) (function : Function) (params : List String) :
    Prop where
  /-- In every call that applies what takes a continuation, the body gets that of the jump which is
  run there, else that among the keyword arguments, else the identity. -/
  applied : ∀ target outer, target.Wears outer callable -> target.acceptsCc = true ->
    ∃ depth, ∀ n caller args kwargs m,
      Call.Makes caller ⟨n + depth, .apply target args kwargs, m⟩ -> (kwargs.map Prod.fst).Nodup ->
      ∃ added, (∀ value ∈ added, value.IsHanded) ∧ added.length = target.handed ∧
        Call.BindsParams function params (added ++ args) kwargs
          (caller.continuation?.or (kwargs.lookup continuationParam))
          ⟨n + depth, .apply target args kwargs, m⟩
  /-- A jump applies its target, or what is under the trampoline of that, to its own arguments,
  forced if need be; its continuation takes the place of one among them. -/
  jumped : ∀ n variant ref m jump k target args kwargs m' outer, m.jump ref = .pending jump ->
    jump.target.Wears outer callable -> jump.target.acceptsCc = true ->
    (jump.kwargs.map Prod.fst).Nodup ->
    Call.Makes ⟨n + 1, .takeStep variant ref, m⟩ ⟨k, .apply target args kwargs, m'⟩ ->
      (target = jump.target.underTrampoline ∧ (∃ outer, target.Wears outer callable) ∧
        target.acceptsCc = true) ∧ (kwargs.map Prod.fst).Nodup ∧ ∃ named before after,
      forceForStrict n variant target jump.args jump.kwargs before =
        some (.ok (args, named), after) ∧ named.map Prod.fst = jump.kwargs.map Prod.fst ∧
      kwargs = match jump.cc with
        | some cc => replaceCc named cc
        | none => named
  /-- The handle of a loop makes a jump, without a continuation, to what takes one. -/
  looped : ∀ inner outer, (Callable.looped inner).Wears outer callable ->
    (inner.acceptsCc = true ∧ inner.Wears (outer ++ [.looped]) callable) ∧
    ∀ n ref args kwargs, apply (n + 1) (.loopHandle ref inner) args kwargs =
      Run.newJump ⟨inner, .func (.loopHandle ref inner) :: args, kwargs, none⟩

/-- A wrapped function of a `continuations` block is reached by one continuation, however it is
applied. -/
theorem Callable.Wears.reaches {ref : Nat} {function : Function} {env : Env} {callable : Callable}
    {wrappers : List Decorator} {params : List String}
    (wears : (closure ref function env).Wears wrappers callable) (ordered : Ordered wrappers)
    (continues : .continuations ∈ wrappers)
    (own : function.signature.params = params ++ [continuationParam]) (once : params.Nodup)
    (other : continuationParam ∉ params) : callable.Reaches function params where
  applied target outer around accepts := by
    obtain ⟨within, rfl, inside⟩ := wears.inside around
    have orderedWithin := (List.pairwise_append.mp ordered).2.1
    obtain ⟨continuesWithin, uncached⟩ : .continuations ∈ within ∧ .memoize ∉ within := by
      rw [inside.acceptsCc orderedWithin rfl] at accepts
      simpa using accepts
    refine ⟨1 + within.length, fun n caller args kwargs m made distinct => ?_⟩
    rw [made.continuation_or accepts, inside.handed_eq, ← Nat.add_assoc]
    exact inside.binds uncached continuesWithin own once other n args distinct m
  jumped n variant ref m jump k target args kwargs m' outer pending around accepts
    distinct made := by
    obtain ⟨rfl, named, before, after, forced, given⟩ := made.step_applies pending
    have accepts : jump.target.underTrampoline.acceptsCc = true := by
      rwa [Callable.acceptsCc_underTrampoline]
    have names := forceForStrict_names forced
    simp only [accepts, if_true] at given
    refine ⟨⟨rfl, wears.around_underTrampoline around, accepts⟩, ?_, named, before, after, forced,
      names, given⟩
    rw [← names] at distinct
    rw [given]
    cases jump.cc with
    | none => exact distinct
    | some cc => exact names_replaceCc distinct cc
  looped inner outer around :=
    ⟨⟨wears.looped_acceptsCc ordered continues around, (Wears.looped .bare).trans around⟩,
      fun _ _ _ _ => rfl⟩

/-- One continuation reaches the body of every function of a `continuations` block. The function
takes a continuation unless it has its results remembered, and then every application of it binds
its parameters, or fails, as its arguments, keywords and continuation say. -/
theorem Program.continuations_reach {source : String} {path : Option String} {program : Program}
    (parsed : Program.parse source path = .ok program) {escapes : List String}
    {transformed : Transformed} (succeeds : program.transform .default escapes = .ok transformed)
    {function : Function} (member : function ∈ program.functions)
    (inBlock : function.signature.regions.cont = true) (once : function.signature.params.Nodup)
    (other : continuationParam ∉ function.signature.params) :
    ∃ dressed ∈ transformed.program.functions, dressed.signature.id = function.signature.id ∧
      ∀ frame start callable frame' made,
        expose (makeClosure dressed) frame start = some (.ok (.func callable, frame'), made) ->
        (callable.acceptsCc = true ↔ .memoize ∉ dressed.signature.wrappers) ∧
          callable.Reaches dressed function.signature.params := by
  obtain ⟨dressed, listed, sameId, kind, -, own, continues, asked, nests⟩ :=
    Program.transform_continued parsed succeeds member inBlock other
  have ordered := default_ordered nests
  refine ⟨dressed, listed, sameId, fun frame start callable frame' made makes => ?_⟩
  obtain ⟨ref, wears⟩ := makeClosure_wears kind makes
  refine ⟨?_, wears.reaches ordered continues own once other⟩
  rw [wears.acceptsCc ordered rfl]
  simp [continues]

/-- A function with two parameters, of which a call may name one. -/
def namingCall : String := "(continuations (defn f (x y) x)) (f 1 :y 2)"

/-- Without a jump and without a continuation among its arguments, the call of the function comes to
a body with the identity. -/
theorem namingCall_reaches : ∃ transformed dressed callable made n,
    (Program.ofText namingCall).transform .default ["ec"] = .ok transformed ∧
    dressed ∈ transformed.program.functions ∧
    expose (makeClosure dressed) Frame.toplevel (.start false) =
      some (.ok (.func callable, Frame.toplevel), made) ∧
    ∃ added, (∀ value ∈ added, value.IsHanded) ∧ added.length = callable.handed ∧
      Call.BindsParams dressed ["x", "y"] (added ++ [.int 1]) [("y", .int 2)] none
        ⟨n, .apply callable [.int 1] [("y", .int 2)], made⟩ := by
  have ⟨reads, ⟨function, member, inBlock, params⟩, shape⟩ :
      (Program.parse namingCall none).toOption.isSome = true ∧
      (∃ function ∈ (Program.ofText namingCall).functions,
        function.signature.regions.cont = true ∧ function.signature.params = ["x", "y"]) ∧
      ((Program.ofText namingCall).transform .default ["ec"]).toOption.any
        (fun transformed => transformed.program.functions.all fun function =>
          function.signature.kind = .plain ∧ .memoize ∉ function.signature.wrappers) = true := by
    rw [Program.ofText, namingCall, Program.parse_ofList]
    decide +kernel
  cases succeeds : (Program.ofText namingCall).transform .default ["ec"] with
  | error error => simp [succeeds, Except.toOption] at shape
  | ok transformed =>
    simp only [succeeds, Except.toOption, Option.any_some, List.all_eq_true,
      decide_eq_true_eq] at shape
    obtain ⟨dressed, listed, -, reaches⟩ :=
      Program.continuations_reach (Program.parse_ofText reads) succeeds member inBlock
        (by rw [params]; decide) (by rw [params]; decide)
    obtain ⟨kind, uncached⟩ := shape dressed listed
    obtain ⟨callable, made, makes⟩ := makeClosure_ends kind Frame.toplevel (.start false)
    obtain ⟨accepts, reaches⟩ :=
      reaches Frame.toplevel (.start false) callable Frame.toplevel made makes
    obtain ⟨depth, binds⟩ := reaches.applied callable [] .bare (accepts.mpr uncached)
    have called : Call.Makes ⟨1 + depth + 1, .call callable [.int 1] [("y", .int 2)], made⟩
        ⟨1 + depth, .apply callable [.int 1] [("y", .int 2)], made⟩ := ⟨rfl, .inl ⟨rfl, rfl⟩⟩
    have binds := binds 1 _ _ _ made called (by decide)
    rw [params] at binds
    exact ⟨transformed, dressed, callable, made, 1 + depth, rfl, listed, makes, binds⟩

end Trampoline
