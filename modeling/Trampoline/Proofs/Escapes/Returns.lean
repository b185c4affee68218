import Trampoline.Proofs.Escapes.Arrival
import Trampoline.Proofs.Rewriting.Inner
import Trampoline.Proofs.Rewriting.Nesting
import Trampoline.Proofs.Syntax.Source
import Trampoline.Proofs.Evaluation.Runs

/-!
# What an escape returns to

An escape is the value of its point as if what is inside had returned it. The wrappers further out
pass it on, and so does a jump to the function: to the continuation of the jump, unless the function
was given this continuation to return to. Then the trampoline ends with the value.
-/

namespace Trampoline

open Exec

/-! ## The point -/

namespace Call

/-- One call is under way for another. -/
inductive Reaches : Call -> Call -> Prop where
  | refl (call : Call) : Reaches call call
  | step {caller next callee : Call} (made : caller.Makes next) (rest : Reaches next callee) :
      Reaches caller callee

/-- While an escape point is running, its escape is applied and gets the value. -/
def EscapesWith (point : Call) (value : Value) : Prop :=
  ∃ fuel args m, value = .pack args ∧
    point.Reaches ⟨fuel + 1, .apply (.escape point.machine.points.size) args [], m⟩

variable {caller callee : Call} {tag : Nat} {value : Value} {args : List Value} {m : Machine}

/-- An escape to a point that was running before ends all calls that are under way for it. -/
theorem Reaches.fails (reaches : caller.Reaches callee) (escapes : callee.Fails (.escape tag value))
    (running : caller.machine.running tag = true) : caller.Fails (.escape tag value) := by
  induction reaches with
  | refl call => exact escapes
  | step made rest ih =>
    refine made.fails (ih escapes ((made.running tag).mpr (.inl running))) fun new => ?_
    rw [point?_eq_some new, Machine.not_running_size] at running
    cases running

/-- Applied while its point is running, an escape fails with itself. -/
theorem escape_fails {fuel : Nat} (running : m.running tag = true) :
    Call.Fails ⟨fuel + 1, .apply (.escape tag) args [], m⟩ (.escape tag (.pack args)) := by
  refine ⟨m, ?_⟩
  show (if !m.running tag then Exec.fail .escapeOutsideExtent
    else noKwargs "escape continuation" [] >>= fun _ =>
      Exec.fail (.escape tag (.pack args)) : Run Value) m = _
  rw [running]
  rfl

/-- A point that runs in a call runs in the calls that it reaches. -/
theorem Reaches.running (reaches : caller.Reaches callee)
    (running : caller.machine.running tag = true) : callee.machine.running tag = true := by
  induction reaches with
  | refl call => exact running
  | step made rest ih => exact ih ((made.running tag).mpr (.inl running))

/-- What is inside the escape point fails with an escape of the value to the point, and the point
ends as if this had returned the value on the same machine, but that the escape is told. -/
def EndsAsReturned (point : Call) (value : Value) : Prop :=
  ∃ n inner args kwargs m last returned left,
    point = ⟨n + 1, .apply (.escapePoint inner) args kwargs, m⟩ ∧
    apply n inner (.func (.escape m.points.size) :: args) kwargs m.entering =
      some (.error (.escape m.points.size value), last) ∧
    leavingPoint m.points.size (.ok value, last) = (returned, left) ∧
    apply (n + 1) (.escapePoint inner) args kwargs m =
      some (returned, { left with trace := .escaped m.points.size :: left.trace })

/-- An escape to a point makes it end as if it had returned the value. -/
theorem EscapesWith.endsAsReturned {n : Nat} {inner : Callable} {kwargs : Kwargs}
    (escapes : EscapesWith ⟨n, .apply (.escapePoint inner) args kwargs, m⟩ value) :
    EndsAsReturned ⟨n, .apply (.escapePoint inner) args kwargs, m⟩ value := by
  obtain ⟨fuel, values, later, rfl, reaches⟩ := escapes
  cases reaches with
  | step made rest =>
    obtain ⟨k, rfl, rfl⟩ := makes_of_point made
    have entered : m.entering.running m.points.size = true := by
      simp [Machine.entering_running]
    obtain ⟨last, ends⟩ := rest.fails (escape_fails (rest.running entered)) entered
    refine ⟨k, inner, args, kwargs, m, last, .ok (.pack values), _, rfl, ends, rfl, ?_⟩
    rw [apply_escapePoint, show apply k inner _ kwargs m.entering = _ from ends]
    simp only [Option.map_some, leavingPoint, if_true]
    rfl

/-- A point that ends so returns the value. -/
theorem EndsAsReturned.returns {point : Call} (ends : point.EndsAsReturned value) :
    2 ≤ point.fuel ∧ point.Returns value := by
  obtain ⟨n, inner, args, kwargs, m, last, returned, left, rfl, inside, same, ends⟩ := ends
  cases same
  refine ⟨?_, _, ends⟩
  cases n with
  | zero => cases inside
  | succ n => exact Nat.le_add_left 2 n

end Call

/-! ## The wrappers further out -/

/-- What one task does is to apply a callable through a wrapper that passes on what comes of it. -/
inductive Task.PassesTo : Task -> Task -> Prop where
  | call {callable : Callable} {args : List Value} {kwargs : Kwargs} :
      PassesTo (.call callable args kwargs) (.apply callable args kwargs)
  | trampolined {inner : Callable} {variant : Variant} {args : List Value} {kwargs : Kwargs} :
      PassesTo (.apply (.trampolined inner variant) args kwargs) (.apply inner args kwargs)
  | looped {inner : Callable} {args args' : List Value} {kwargs kwargs' : Kwargs} :
      PassesTo (.apply (.looped inner) args kwargs) (.apply inner args' kwargs')
  | memoized {inner : Callable} {cache : Nat} {args args' : List Value} {kwargs kwargs' : Kwargs} :
      PassesTo (.apply (.memoized inner cache) args kwargs) (.call inner args' kwargs')

namespace Call

/-- The call comes, through such wrappers, to the application of an escape point. -/
inductive Activates : Call -> Call -> Prop where
  | point {n : Nat} {inner : Callable} {args : List Value} {kwargs : Kwargs} {m : Machine} :
      Activates ⟨n, .apply (.escapePoint inner) args kwargs, m⟩
        ⟨n, .apply (.escapePoint inner) args kwargs, m⟩
  | through {outer next point : Call} (made : outer.Makes next)
      (passes : outer.task.PassesTo next.task) (rest : Activates next point) :
      Activates outer point

variable {n : Nat} {value : Value} {call point : Call}

/-- What one trampoline returns that is no jump, all further out return. -/
theorem trampoline_plain (enough : 2 ≤ n) (variant : Variant)
    (plain : ∀ ref, value ≠ .jump ref) (m : Machine) :
    ∃ last, trampoline n variant value m = some (.ok value, last) := by
  obtain ⟨k, rfl⟩ := Nat.exists_eq_add_of_le' enough
  have stays : runJumps (k + 1) variant value m = some (.ok value, m) := by
    cases value with
    | jump ref => exact absurd rfl (plain ref)
    | _ => rfl
  exact ⟨_, guarded_eq_some.mpr ⟨m, stays, rfl⟩⟩

/-- What an application comes to that is no jump, a call returns. -/
theorem call_plain {callable : Callable} {args : List Value} {kwargs : Kwargs}
    {m last : Machine} (ends : apply n callable args kwargs m = some (.ok value, last))
    (plain : ∀ ref, value ≠ .jump ref) :
    Trampoline.call (n + 1) callable args kwargs m = some (.ok value, last) := by
  refine (bind_apply ends _).trans ?_
  cases value with
  | jump ref => exact absurd rfl (plain ref)
  | _ => rfl

/-- A call has at least the fuel of the point that it activates. -/
theorem Activates.fuel_le (activates : call.Activates point) : point.fuel ≤ call.fuel := by
  induction activates with
  | point => exact Nat.le_refl _
  | through made passes rest ih =>
    rw [made.fuel]
    exact Nat.le_succ_of_le ih

/-- The point that a call activates ends as if it had returned what its escape got. -/
theorem Activates.endsAsReturned (activates : call.Activates point)
    (escapes : point.EscapesWith value) : point.EndsAsReturned value := by
  induction activates with
  | point => exact escapes.endsAsReturned
  | through made passes rest ih => exact ih escapes

/-- A call that comes to an escape point returns what this one does, if it is no jump. -/
theorem Activates.returns (activates : call.Activates point)
    (ends : point.EndsAsReturned value) (plain : ∀ ref, value ≠ .jump ref) :
    call.Returns value := by
  induction activates with
  | point => exact ends.returns.2
  | @through outer next point made passes rest ih =>
    obtain ⟨n, task, m⟩ := outer
    obtain ⟨k, task', m'⟩ := next
    have inner := ih ends
    obtain ⟨more, asks⟩ := made
    obtain rfl : n = k + 1 := more
    have fuel : 2 ≤ k := Nat.le_trans ends.returns.1 rest.fuel_le
    cases passes with
    | @call callable args kwargs =>
      rcases asks with ⟨-, same⟩ | ⟨answer, middle, -, asks⟩
      · obtain rfl : m = m' := same
        obtain ⟨last, ends⟩ := inner
        exact ⟨last, call_plain ends plain⟩
      · cases answer with
        | jump ref =>
          rcases asks with ⟨⟨⟩, -⟩ | ⟨_, _, -, asks⟩
          exact asks.elim
        | _ => exact asks.elim
    | @trampolined inside variant args kwargs =>
      rcases asks with ⟨-, same⟩ | ⟨answer, middle, -, asks⟩
      · obtain rfl : m = m' := same
        obtain ⟨last, ends⟩ := inner
        obtain ⟨final, stays⟩ := trampoline_plain fuel variant plain last
        exact ⟨final, (bind_apply ends _).trans stays⟩
      · rcases asks with ⟨⟨⟩, -⟩ | ⟨_, _, -, asks⟩
        exact asks.elim
    | @looped inside args args' kwargs kwargs' =>
      obtain ⟨ref, started, handle, asks⟩ := asks
      rcases asks with ⟨same, later⟩ | ⟨answer, middle, -, asks⟩
      · obtain rfl : started = m' := later
        cases same
        obtain ⟨last, ends⟩ := inner
        obtain ⟨final, stays⟩ := trampoline_plain fuel (Variant.of inside) plain last
        exact ⟨final, (bind_apply handle _).trans ((bind_apply ends _).trans stays)⟩
      · rcases asks with ⟨⟨⟩, -⟩ | ⟨_, _, -, asks⟩
        exact asks.elim
    | @memoized inside cache args args' kwargs kwargs' =>
      rcases asks with ⟨⟨⟩, -⟩ | ⟨keyed, first, forced, asks⟩
      rcases asks with ⟨⟨⟩, -⟩ | ⟨named, second, forced', asks⟩
      obtain ⟨hit, third, looked, asks⟩ := asks
      cases hit with
      | some value => exact asks.elim
      | none =>
        rcases asks with ⟨same, later⟩ | ⟨answer, middle, -, asks⟩
        · obtain rfl : third = m' := later
          cases same
          obtain ⟨last, ends⟩ := inner
          exact ⟨_, (bind_apply forced _).trans ((bind_apply forced' _).trans
            ((bind_apply looked _).trans ((bind_apply ends _).trans rfl)))⟩
        · obtain ⟨_, _, -, asks⟩ := asks
          exact asks.elim

/-- A call that activates a point applies a callable or calls one. -/
theorem Activates.applies (activates : call.Activates point) : ∃ callable args kwargs,
      call.task = .apply callable args kwargs ∨ call.task = .call callable args kwargs := by
  cases activates with
  | point => exact ⟨_, _, _, .inl rfl⟩
  | @through _ next _ made passes rest =>
    obtain ⟨n, task, m⟩ := call
    obtain ⟨k, task', m'⟩ := next
    cases passes with
    | call => exact ⟨_, _, _, .inr rfl⟩
    | _ => exact ⟨_, _, _, .inl rfl⟩

end Call

/-! ## Jumps -/

/-- Whether the target of a jump goes on by itself: with the continuation that it gets, or as
one. -/
def Callable.takesOver (target : Callable) : Bool :=
  target.underTrampoline.acceptsCc || target.underTrampoline.isContinuation

/-- What becomes of the value that the target of a jump returns: the continuation of the jump gets
it, unless the target has taken over. -/
def Jump.passOn (jump : Jump) (value : Value) : Run Value :=
  match jump.cc with
  | none => pure value
  | some cc =>
    if jump.target.takesOver then pure value
    else do
      let next ← cc.callable
      Run.newJump ⟨next, [value], [], none⟩

variable {m m' : Machine} {callable : Callable} {wrappers : List Decorator} {source : String}

/-- The step of a trampoline passes on what the target of the jump returns. -/
theorem Call.Makes.passes_on {n : Nat} {variant : Variant} {ref : Nat} {jump : Jump}
    {next point : Call} {value : Value} (pending : m.jump ref = .pending jump)
    (made : Call.Makes ⟨n + 1, .takeStep variant ref, m⟩ next) (activates : next.Activates point)
    (returns : next.Returns value) :
    ∃ last, takeStep (n + 1) variant ref m = jump.passOn value last := by
  obtain ⟨k, task, m'⟩ := next
  obtain ⟨more, asks⟩ := made
  obtain rfl : n = k := Nat.succ.inj more
  obtain ⟨taken, first, takes, asks⟩ := asks
  obtain rfl : taken = jump := by
    simp only [Run.takeJump, pending] at takes
    cases takes
    rfl
  obtain ⟨callable, args, kwargs, applied⟩ := activates.applies
  rcases asks with ⟨same, -⟩ | ⟨⟨args', kwargs'⟩, second, forced, asks⟩
  · obtain rfl : _ = task := same
    rcases applied with ⟨⟨⟩⟩ | ⟨⟨⟩⟩
  obtain ⟨⟨⟩, third, told, asks⟩ := asks
  have step (outcome : Option (Outcome Machine Value))
      (rest : (match taken.cc with
        | none => apply n taken.target.underTrampoline args' kwargs'
        | some cc =>
          if taken.target.underTrampoline.acceptsCc then
            apply n taken.target.underTrampoline args' (replaceCc kwargs' cc)
          else if taken.target.underTrampoline.isContinuation then
            apply n taken.target.underTrampoline args' kwargs'
          else do
            let result ← call n taken.target args' kwargs'
            let next ← cc.callable
            Run.newJump ⟨next, [result], [], none⟩ : Run Value) third = outcome) :
      takeStep (n + 1) variant ref m = outcome :=
    (bind_apply takes _).trans ((bind_apply forced _).trans ((bind_apply told _).trans rest))
  unfold Jump.passOn Callable.takesOver
  cases continuation : taken.cc with
  | none =>
    simp only [continuation] at asks step
    rcases asks with ⟨same, later⟩ | ⟨_, _, -, asks⟩
    · obtain rfl : third = m' := later
      cases same
      obtain ⟨last, ends⟩ := returns
      exact ⟨last, step _ ends⟩
    · exact asks.elim
  | some cc =>
    simp only [continuation] at asks step
    by_cases accepts : taken.target.underTrampoline.acceptsCc
    · simp only [accepts, if_true, Bool.true_or] at asks step ⊢
      rcases asks with ⟨same, later⟩ | ⟨_, _, -, asks⟩
      · obtain rfl : third = m' := later
        cases same
        obtain ⟨last, ends⟩ := returns
        exact ⟨last, step _ ends⟩
      · exact asks.elim
    · by_cases abandons : taken.target.underTrampoline.isContinuation
      · simp only [accepts, abandons, if_true, Bool.or_true] at asks step ⊢
        rcases asks with ⟨same, later⟩ | ⟨_, _, -, asks⟩
        · obtain rfl : third = m' := later
          cases same
          obtain ⟨last, ends⟩ := returns
          exact ⟨last, step _ ends⟩
        · exact asks.elim
      · simp only [accepts, abandons, Bool.or_false, Bool.false_eq_true, if_false] at asks step ⊢
        rcases asks with ⟨same, later⟩ | ⟨result, fourth, -, asks⟩
        · obtain rfl : third = m' := later
          cases same
          obtain ⟨last, ends⟩ := returns
          exact ⟨last, step _ (bind_apply ends _)⟩
        · obtain ⟨callable, fifth, -, made, sixth, -, asks⟩ := asks
          exact asks.elim

/-! ## Callables with an escape point -/

/-- A callable with wrappers around it, outermost first. -/
inductive Callable.Wears (base : Callable) : List Decorator -> Callable -> Prop where
  | bare : Wears base [] base
  | memoize {inside : List Decorator} {inner : Callable} {cache : Nat} :
      Wears base inside inner -> Wears base (.memoize :: inside) (.memoized inner cache)
  | trampolined {inside : List Decorator} {inner : Callable} : Wears base inside inner ->
      Wears base (.trampolined :: inside) (.trampolined inner (Variant.of inner))
  | looped {inside : List Decorator} {inner : Callable} :
      Wears base inside inner -> Wears base (.looped :: inside) (.looped inner)
  | callEc {inside : List Decorator} {inner : Callable} :
      Wears base inside inner -> Wears base (.callEc :: inside) (.escapePoint inner)
  | continuations {inside : List Decorator} {inner : Callable} :
      Wears base inside inner -> Wears base (.continuations :: inside) (.contEnabled inner)
  | lazy {inside : List Decorator} {inner : Callable} :
      Wears base inside inner -> Wears base (.lazy :: inside) (.lazyFn inner)

/-- A callable can always be wrapped. -/
theorem wrap_ends (base : Callable) (wrappers : List Decorator) (m : Machine) :
    ∃ callable m', wrap base wrappers m = some (.ok callable, m') := by
  induction wrappers with
  | nil => exact ⟨base, m, rfl⟩
  | cons wrapper inside ih =>
    obtain ⟨inner, middle, wraps⟩ := ih
    cases wrapper <;> exact ⟨_, _, bind_eq_ok.mpr ⟨inner, middle, wraps, rfl⟩⟩

/-- Wrapping a callable puts the wrappers around it. -/
theorem wrap_wears {base : Callable}
    (wraps : wrap base wrappers m = some (.ok callable, m')) : base.Wears wrappers callable := by
  induction wrappers generalizing callable m m' with
  | nil =>
    cases wraps
    exact .bare
  | cons wrapper inside ih =>
    obtain ⟨inner, middle, wrapped, rest⟩ := bind_eq_ok.mp wraps
    have wears := ih wrapped
    cases wrapper with
    | memoize =>
      obtain ⟨cache, later, -, ends⟩ := bind_eq_ok.mp rest
      cases ends
      exact .memoize wears
    | trampolined => cases rest; exact .trampolined wears
    | looped => cases rest; exact .looped wears
    | callEc => cases rest; exact .callEc wears
    | continuations => cases rest; exact .continuations wears
    | lazy => cases rest; exact .lazy wears

/-- This callable is inside the escape point of that one, and further out there are only wrappers
that pass on what the point returns. -/
inductive Callable.EnclosedBy (inner : Callable) : Callable -> Prop where
  | point : EnclosedBy inner (.escapePoint inner)
  | memoized {callable : Callable} {cache : Nat} :
      EnclosedBy inner callable -> EnclosedBy inner (.memoized callable cache)
  | trampolined {callable : Callable} {variant : Variant} :
      EnclosedBy inner callable -> EnclosedBy inner (.trampolined callable variant)
  | looped {callable : Callable} : EnclosedBy inner callable -> EnclosedBy inner (.looped callable)

namespace Callable.Wears

variable {base callable : Callable} {wrappers : List Decorator}

/-- Wrappers stand in the order of their default positions. -/
def Ordered (wrappers : List Decorator) : Prop :=
  wrappers.Pairwise fun outer inner => outer.defaultPosition < inner.defaultPosition

theorem ident (wears : base.Wears wrappers callable) : callable.ident = base.ident := by
  induction wears with
  | bare => rfl
  | _ => assumption

/-- In this order, the escape point of a function has around it wrappers that pass on what it
returns. -/
theorem encloses (wears : base.Wears wrappers callable) (ordered : Ordered wrappers)
    (escapes : .callEc ∈ wrappers) :
    ∃ inner : Callable, inner.EnclosedBy callable ∧ inner.ident = base.ident := by
  induction wears with
  | bare => cases escapes
  | callEc rest => exact ⟨_, .point, rest.ident⟩
  | memoize rest ih =>
    obtain ⟨inner, encloses, same⟩ := ih (List.pairwise_cons.mp ordered).2 (by simpa using escapes)
    exact ⟨inner, .memoized encloses, same⟩
  | trampolined rest ih =>
    obtain ⟨inner, encloses, same⟩ := ih (List.pairwise_cons.mp ordered).2 (by simpa using escapes)
    exact ⟨inner, .trampolined encloses, same⟩
  | looped rest ih =>
    obtain ⟨inner, encloses, same⟩ := ih (List.pairwise_cons.mp ordered).2 (by simpa using escapes)
    exact ⟨inner, .looped encloses, same⟩
  | continuations rest ih | lazy rest ih =>
    have lower := (List.pairwise_cons.mp ordered).1 .callEc (by simpa using escapes)
    simp [Decorator.defaultPosition] at lower

/-- A function takes the continuation of a jump if it is made for continuations and its results
are not remembered. -/
theorem acceptsCc (wears : base.Wears wrappers callable) (ordered : Ordered wrappers)
    (bare : base.acceptsCc = false) : callable.acceptsCc =
      (wrappers.contains .continuations && !wrappers.contains .memoize) := by
  induction wears with
  | bare => simpa using bare
  | memoize rest ih => simp [Callable.acceptsCc]
  | continuations rest ih =>
    have lower := (List.pairwise_cons.mp ordered).1 .memoize
    simp only [Callable.acceptsCc, List.contains_cons]
    simpa [Decorator.defaultPosition] using lower
  | trampolined rest ih | looped rest ih | callEc rest ih | lazy rest ih =>
    simpa [Callable.acceptsCc] using ih (List.pairwise_cons.mp ordered).2

/-- A function with wrappers takes over as it takes a continuation. -/
theorem takesOver (wears : base.Wears wrappers callable) (bare : base.isContinuation = false) :
    callable.takesOver = callable.acceptsCc := by
  have none : callable.isContinuation = false := by
    induction wears with
    | bare => exact bare
    | trampolined rest ih => exact ih
    | _ => rfl
  cases callable with
  | trampolined inner variant => simp_all [Callable.takesOver, Callable.underTrampoline,
      Callable.isContinuation, Callable.acceptsCc]
  | _ => simp_all [Callable.takesOver, Callable.underTrampoline]

end Callable.Wears

/-- The wrappers of a transformed function stand in the order that the default table gives to those
that were asked for. -/
theorem default_ordered {asked : List Decorator}
    (nests : DecoratorTable.default.Nests asked wrappers) : Callable.Wears.Ordered wrappers := by
  have known (decorator : Decorator) : DecoratorTable.default.record? decorator =
      some ⟨decorator, decorator.defaultPosition⟩ := by cases decorator <;> rfl
  refine (nests.positions.and nests.once).imp fun {outer inner} both => ?_
  refine Nat.lt_of_le_of_ne (both.1 _ _ (known outer) (known inner)) fun same => both.2 ?_
  cases outer <;> cases inner <;> first | rfl | cases same

/-! ## Functions -/

namespace Transform

variable {table : DecoratorTable} {escapes : List String}

/-- The wrappers of a function are what the table resolves. -/
theorem functionWrappers_resolve (function : Function) :
    Produces True (functionWrappers table function) fun other =>
      resolveWrappers table function.signature = .ok other.signature.wrappers := by
  unfold functionWrappers
  cases resolveWrappers table function.signature with
  | error error => exact ⟨fun _ => .inr ⟨trivial, _, rfl⟩⟩
  | ok wrappers =>
    cases wrappers with
    | nil => exact .pure rfl
    | cons first rest => exact .bind (.any _) fun _ _ => .pure rfl

/-- Of the signature, only the parameters are changed with the body. -/
theorem functionBody_signature (function : Function) :
    Produces True (functionBody escapes function) fun other =>
      ∃ params, other.signature = { function.signature with params := params } :=
  (functionBody_params function).imp fun _ same => ⟨_, same⟩

/-- What is written is among the wrappers. -/
theorem resolveWrappers_written {signature : Signature} {wrappers : List Decorator}
    (resolves : resolveWrappers .default signature = .ok wrappers) {decorator : Decorator}
    {span : Span} (written : (decorator.name, span) ∈ signature.decorators) :
    Callable.Wears.Ordered wrappers ∧ decorator ∈ wrappers := by
  obtain ⟨decorators, -, nests⟩ := resolveWrappers_nests resolves
  exact ⟨default_ordered nests, (mem_resolveWrappers resolves).mpr (.inl ⟨_, written, rfl⟩)⟩

end Transform

/-- The value of a function that was written is the function with its wrappers. -/
theorem makeClosure_wears {function : Function} {frame frame' : Frame}
    (written : function.signature.kind = .plain)
    (makes : expose (makeClosure function) frame m = some (.ok (.func callable, frame'), m')) :
    ∃ ref, (Callable.closure ref function frame.env).Wears function.signature.wrappers
      callable := by
  simp only [makeClosure, expose_bind, expose_frame, pure_bind, written, expose_within,
    expose_pure, bind_assoc] at makes
  obtain ⟨ref, middle, -, rest⟩ := bind_eq_ok.mp makes
  obtain ⟨wrapped, last, wraps, ends⟩ := bind_eq_ok.mp rest
  cases ends
  exact ⟨ref, wrap_wears wraps⟩

/-- The task applies the callable. -/
def Task.Applies (callable : Callable) : Task -> Prop
  | .apply other _ _ | .call other _ _ => other = callable
  | _ => False

/-- The callable returns what its escapes get, as if this were returned inside its escape point. -/
structure Callable.ReturnsEscapes (callable : Callable) : Prop where
  /-- Further out than the point are only wrappers that pass on what it returns. -/
  encloses : ∃ inner : Callable, inner.EnclosedBy callable
  /-- In a call, the point ends as if the value had been returned inside. -/
  points : ∀ (call point : Call) (value : Value), call.task.Applies callable ->
    call.Activates point -> point.EscapesWith value -> point.EndsAsReturned value
  /-- A call returns the value. If this is itself a jump, it may be run before. -/
  calls : ∀ (call point : Call) (value : Value), call.task.Applies callable ->
    call.Activates point -> point.EscapesWith value -> (∀ ref, value ≠ .jump ref) ->
    call.Returns value
  /-- A jump passes the value on as one that was returned. -/
  jumps : ∀ (n : Nat) (variant : Variant) (ref : Nat) (m : Machine) (jump : Jump)
    (call point : Call) (value : Value), m.jump ref = .pending jump ->
    jump.target = callable -> Call.Makes ⟨n + 1, .takeStep variant ref, m⟩ call ->
    call.Activates point -> point.EscapesWith value -> (∀ ref, value ≠ .jump ref) ->
    ∃ last, takeStep (n + 1) variant ref m = jump.passOn value last

/-- A callable with a point inside returns what is escaped with. -/
theorem Callable.EnclosedBy.returnsEscapes {inner : Callable}
    (encloses : inner.EnclosedBy callable) : callable.ReturnsEscapes where
  encloses := ⟨inner, encloses⟩
  points _ _ _ _ activates escapes := activates.endsAsReturned escapes
  calls _ _ _ _ activates escapes plain :=
    activates.returns (activates.endsAsReturned escapes) plain
  jumps _ _ _ _ _ _ _ _ pending _ made activates escapes plain :=
    made.passes_on pending activates (activates.returns (activates.endsAsReturned escapes) plain)

/-- Escapes return from the calls that established their points. Under the default table, whatever
its wrappers, a function that is decorated with an escape point returns what its escapes get. A jump
to the function passes this on to the continuation of the jump, unless the function takes the
continuation itself: if it is made for continuations and its results are not remembered. -/
theorem Program.escapes_return {source : String} {path : Option String} {program : Program}
    (parsed : Program.parse source path = .ok program) {escapes : List String}
    {transformed : Transformed} (succeeds : program.transform .default escapes = .ok transformed)
    {function : Function} (member : function ∈ program.functions) {span : Span}
    (decorated : (Decorator.callEc.name, span) ∈ function.signature.decorators) :
    ∃ dressed ∈ transformed.program.functions,
      dressed.signature.id = function.signature.id ∧
      dressed.signature.name = function.signature.name ∧
      ∀ frame start callable frame' made,
        expose (makeClosure dressed) frame start = some (.ok (.func callable, frame'), made) ->
        callable.ReturnsEscapes ∧
        callable.takesOver = (dressed.signature.wrappers.contains .continuations &&
          !dressed.signature.wrappers.contains .memoize) := by
  obtain ⟨mark, inProgram⟩ := Program.mem_functions.mp member
  obtain ⟨kind, -⟩ := Program.parse_isSource parsed _ inProgram
  obtain ⟨inside, rewritten, body, -, rewrites, -, dressed, listed, dresses⟩ :=
    Program.transform_functions succeeds member
  obtain ⟨params, same⟩ := rewrites.of (Transform.functionBody_signature _)
  have resolves := dresses.of (Transform.functionWrappers_resolve _)
  obtain ⟨wrappers, rfl⟩ := dresses.eq
  have written : (Decorator.callEc.name, span) ∈ rewritten.signature.decorators := by
    rw [same]
    exact decorated
  obtain ⟨ordered, escape⟩ := Transform.resolveWrappers_written resolves written
  refine ⟨_, listed, by rw [same], by rw [same], ?_⟩
  intro frame start callable frame' made makes
  obtain ⟨ref, wears⟩ := makeClosure_wears (by simp only [same]; exact kind) makes
  obtain ⟨inner, encloses, -⟩ := wears.encloses ordered escape
  exact ⟨encloses.returnsEscapes, (wears.takesOver rfl).trans (wears.acceptsCc ordered rfl)⟩

/-- A function that calls its escape. -/
def escapingFunction : String := "(defn f (ec) :decorators (call-ec) (ec))"

/-- The function of this text, whatever its numbers and places. -/
def Function.callsEscape (function : Function) : Bool :=
  match function with
  | ⟨⟨_, _, [param], _, ⟨_, _, false⟩, .plain, [.callEc]⟩, .seq _ [.call _ (.var _ name) [] []]⟩ =>
    param == name
  | _ => false

/-- The function of this source returns what it escapes with. -/
theorem escapingFunction_returns : ∃ transformed,
    (Program.ofText escapingFunction).transform .default ["ec"] = .ok transformed ∧
    ∃ dressed ∈ transformed.program.functions, ∃ callable made,
      expose (makeClosure dressed) Frame.toplevel (.start false) =
        some (.ok (.func callable, Frame.toplevel), made) ∧
      callable.takesOver = false ∧ ∃ call point : Call, call.task.Applies callable ∧
        call.Activates point ∧ point.EscapesWith .nil ∧ call.Returns .nil := by
  have ⟨reads, ⟨function, member, ⟨written, span⟩, decorated, named⟩, shape⟩ :
      (Program.parse escapingFunction none).toOption.isSome = true ∧
      (∃ function ∈ (Program.ofText escapingFunction).functions,
        ∃ decorator ∈ function.signature.decorators, decorator.1 = Decorator.callEc.name) ∧
      ((Program.ofText escapingFunction).transform .default ["ec"]).toOption.any
        (fun transformed => transformed.program.functions.all Function.callsEscape) = true := by
    rw [Program.ofText, escapingFunction, Program.parse_ofList]
    decide +kernel
  obtain rfl : written = Decorator.callEc.name := named
  cases succeeds : (Program.ofText escapingFunction).transform .default ["ec"] with
  | error error => simp [succeeds, Except.toOption] at shape
  | ok transformed =>
    simp only [succeeds, Except.toOption, Option.any_some, List.all_eq_true] at shape
    obtain ⟨dressed, listed, -, -, returns⟩ :=
      Program.escapes_return (Program.parse_ofText reads) succeeds member decorated
    have calls := shape dressed listed
    refine ⟨transformed, rfl, dressed, listed, ?_⟩
    unfold Function.callsEscape at calls
    split at calls
    · rename_i id name param decorators tco cont mark mark' mark'' name'
      obtain rfl := eq_of_beq calls
      obtain ⟨returns, takesOver⟩ := returns Frame.toplevel (.start false) _ _ _ rfl
      let function : Function := ⟨⟨id, name, [param], decorators, ⟨tco, cont, false⟩, .plain,
        [.callEc]⟩, .seq mark [.call mark' (.var mark'' param) [] []]⟩
      let point : Call := ⟨10, .apply (.escapePoint (.closure 0 function [])) [] [], .start false⟩
      have activates : point.Activates point := .point
      let inside : Machine :=
        { (Machine.start false).entering with cells := #[.func (.escape 0)] }
      let frame : Frame := ⟨[(param, 0)], false, none⟩
      let called : Expr := .call mark' (.var mark'' param) [] []
      have body : Call.Makes point ⟨9, .apply (.closure 0 function []) [.func (.escape 0)] [],
          (Machine.start false).entering⟩ := ⟨rfl, _, _, rfl, .inl (.inl ⟨rfl, rfl⟩)⟩
      have block : Call.Makes ⟨9, .apply (.closure 0 function []) [.func (.escape 0)] [],
          (Machine.start false).entering⟩ ⟨8, .eval function.body frame, inside⟩ :=
        ⟨rfl, _, _, rfl, .inl ⟨rfl, rfl⟩⟩
      have items : Call.Makes ⟨8, .eval function.body frame, inside⟩
          ⟨7, .evalItems [called] .nil frame, inside⟩ := ⟨rfl, .inl ⟨rfl, rfl⟩⟩
      have item : Call.Makes ⟨7, .evalItems [called] .nil frame, inside⟩
          ⟨6, .eval called frame, inside⟩ := ⟨rfl, .inl ⟨rfl, rfl⟩⟩
      have found : Task.run 5 (.evalForced (.var mark'' param) frame) inside =
          some (.ok (.func (.escape 0), frame), inside) := by
        have looked : (Body.lookup param : Body Value) ⟨frame, inside⟩ =
            some (.ok (.func (.escape 0)), ⟨frame, inside⟩) := by
          simp [Body.lookup, frame, inside, Machine.cell]
        have value : eval 4 (.var mark'' param) ⟨frame, inside⟩ =
            some (.ok (.func (.escape 0)), ⟨frame, inside⟩) :=
          (bind_apply looked _).trans rfl
        show (evalForced 5 (.var mark'' param) ⟨frame, inside⟩).map _ = _
        rw [show evalForced 5 (.var mark'' param) ⟨frame, inside⟩ = _ from bind_apply value _]
        rfl
      have escape : Call.Makes ⟨6, .eval called frame, inside⟩
          ⟨5, .apply (.escape 0) [] [], inside⟩ :=
        ⟨rfl, .inr ⟨_, _, found, _, _, rfl, .inr ⟨_, _, rfl, .inr ⟨_, _, rfl, .inl ⟨rfl, rfl⟩⟩⟩⟩⟩
      have escapes : point.EscapesWith .nil :=
        ⟨4, [], inside, rfl, .step body (.step block (.step items (.step item (.step escape
          (.refl _)))))⟩
      exact ⟨_, _, rfl, takesOver, point, point, rfl, activates, escapes,
        returns.calls point point .nil rfl activates escapes (by simp)⟩
    · cases calls

/-- A capture of a call that escapes with a value. -/
def escapedCapture : String :=
  "(continuations
    (defn f (ec x) :decorators (call-ec) (ec x))
    (defn main () (capture (r) (f 1)) (print \"resumed\") (+ r 1)))
  (main)"

/-- The same capture of a call that returns the value. -/
def returnedCapture : String :=
  "(continuations
    (defn f (ec x) :decorators (call-ec) x)
    (defn main () (capture (r) (f 1)) (print \"resumed\") (+ r 1)))
  (main)"

/-- The transformed text ends with this number and this output. -/
def Program.endsWith (source : String) (number : Int64) (output : String) : Bool :=
  ((Program.ofText source).transform .default ["ec"]).toOption.any fun transformed =>
    (transformed.program.run 60 (.start false)).any fun outcome =>
      match outcome with
      | (.ok (.int value), last) => value == number && last.output == output
      | _ => false

/-- A checked program ends with the number and the output. -/
theorem Program.endsWith_endsOn {output : String} {number : Int64}
    (ends : Program.endsWith source number output = true) : ∃ transformed last,
    (Program.ofText source).transform .default ["ec"] = .ok transformed ∧
      transformed.program.EndsOn (.start false) (.ok (.int number), last) ∧
      last.output = output := by
  unfold Program.endsWith at ends
  cases succeeds : (Program.ofText source).transform .default ["ec"] with
  | error error => simp [succeeds, Except.toOption] at ends
  | ok transformed =>
    simp only [succeeds, Except.toOption, Option.any_some] at ends
    obtain ⟨⟨result, last⟩, ran, same⟩ := (Option.any_eq_true _ _).mp ends
    split at same
    · rename_i value last' equal
      cases equal
      obtain ⟨isNumber, isOutput⟩ := (Bool.and_eq_true _ _).mp same
      obtain rfl := eq_of_beq isNumber
      exact ⟨transformed, last, rfl, ⟨60, ran⟩, eq_of_beq isOutput⟩
    · cases same

/-- The transformed text ends with such a result. -/
def Program.endsSo (source : String) (such : Except EvalError Value -> Bool) : Bool :=
  ((Program.ofText source).transform .default ["ec"]).toOption.any fun transformed =>
    (transformed.program.run 60 (.start false)).any fun outcome => such outcome.1

/-- A checked program ends in such a way. -/
theorem Program.endsSo_endsOn {such : Except EvalError Value -> Bool}
    (ends : Program.endsSo source such = true) : ∃ transformed outcome,
    (Program.ofText source).transform .default ["ec"] = .ok transformed ∧
      transformed.program.EndsOn (.start false) outcome ∧ such outcome.1 = true := by
  unfold Program.endsSo at ends
  cases succeeds : (Program.ofText source).transform .default ["ec"] with
  | error error => simp [succeeds, Except.toOption] at ends
  | ok transformed =>
    simp only [succeeds, Except.toOption, Option.any_some] at ends
    obtain ⟨outcome, ran, holds⟩ := (Option.any_eq_true _ _).mp ends
    exact ⟨transformed, outcome, rfl, ⟨60, ran⟩, holds⟩

/-- The escape does not return to the capture: what follows is not run. -/
theorem escapedCapture_skips :
    (∃ transformed last,
      (Program.ofText escapedCapture).transform .default ["ec"] = .ok transformed ∧
      transformed.program.EndsOn (.start false) (.ok (.int 1), last) ∧ last.output = "") ∧
    ∃ transformed last,
      (Program.ofText returnedCapture).transform .default ["ec"] = .ok transformed ∧
      transformed.program.EndsOn (.start false) (.ok (.int 2), last) ∧
      last.output = "resumed\n" := by
  have ⟨escaped, returned⟩ : Program.endsWith escapedCapture 1 "" = true ∧
      Program.endsWith returnedCapture 2 "resumed\n" = true := by
    rw [Program.endsWith, Program.ofText, escapedCapture, Program.parse_ofList, Program.endsWith,
      Program.ofText, returnedCapture, Program.parse_ofList]
    decide +kernel
  exact ⟨Program.endsWith_endsOn escaped, Program.endsWith_endsOn returned⟩

end Trampoline
