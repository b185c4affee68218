import Trampoline.Proofs.Continuations.Delivery
import Trampoline.Proofs.Transport.Diagonal

/-!
# Jumps are postponed calls

A trampoline that runs the jump to a callable does what a call of the callable does. The call goes
through the trampoline around the callable, while a jump goes past it, so the two guard different
parts of the computation; besides that, they take the same steps on machines of which one still has
the jump.
-/

namespace Trampoline

open Exec

variable {m : Machine} {callable : Callable} {args : List Value} {kwargs : Kwargs}

/-! ## Computations that differ in what they guard -/

/-- The machine is the other one, but for the validity of extents and their stack. -/
def Machine.Loosely (m m' : Machine) : Prop :=
  ∃ extents stack, extents.size = m.extents.size ∧
    m' = { m with extents := extents, stack := stack }

/-- A machine is loosely the same as itself. -/
theorem Machine.Loosely.refl (m : Machine) : m.Loosely m := ⟨m.extents, m.stack, rfl, rfl⟩

variable {α : Type} {m' : Machine} {ref : Nat}

/-- What `guarded` disposes of at the end are extents, so the machine stays loosely the same. -/
theorem Machine.loosely_guardedState (mark : Nat) (result : Except EvalError α)
    (m : Machine) : m.Loosely (guardedState mark (result, m)) := by
  rw [guardedState_eq]
  split
  · exact ⟨_, _, Machine.Disposes.size_invalidate .., rfl⟩
  · exact ⟨_, _, rfl, rfl⟩

/-- The computations end in the same way on machines that are loosely the same. -/
def Exec.Loosens {α : Type} (run run' : Run α) : Prop :=
  ∀ m, Option.Rel (fun outcome outcome' => outcome'.1 = outcome.1 ∧ outcome.2.Loosely outcome'.2)
    (run m) (run' m)

namespace Exec.Loosens

variable {α β : Type} {run : Run α}

/-- A computation differs from itself in nothing. -/
theorem refl (run : Run α) : Loosens run run := by
  intro m
  cases run m with
  | none => exact .none
  | some outcome => exact .some ⟨rfl, .refl _⟩

/-- Guarding a computation changes only what becomes of its extents. -/
theorem guarded (run : Run α) : Loosens run run.guarded := by
  intro m
  cases ran : run m with
  | none =>
    have stuck : run.guarded m = none := by simp only [Run.guarded, ran]
    rw [stuck]
    exact .none
  | some outcome =>
    obtain ⟨result, last⟩ := outcome
    rw [guarded_eq_some.mpr ⟨last, ran, rfl⟩]
    exact .some ⟨rfl, Machine.loosely_guardedState _ _ _⟩

/-- Computations that go on alike differ only in extents if their first steps do. -/
theorem bind (first : Run α) {next next' : α -> Run β}
    (after : ∀ value, Loosens (next value) (next' value)) :
    Loosens (first >>= next) (first >>= next') := by
  intro m
  show Option.Rel _ (Exec.bind first next m) (Exec.bind first next' m)
  simp only [Exec.bind]
  rcases first m with _ | ⟨error | value, middle⟩
  · exact .none
  · exact .some ⟨rfl, .refl _⟩
  · exact after value middle

end Exec.Loosens

/-! ## Calls -/

/-- A trampoline around the callable is the one that suits it. -/
def Callable.Suited (callable : Callable) : Prop :=
  ∀ inner variant, callable = .trampolined inner variant -> variant = Variant.of inner

/-- The callable is what the evaluation of some function expression made. -/
def Callable.IsMade (callable : Callable) : Prop :=
  ∃ function frame m frame' m',
    expose (makeClosure function) frame m = some (.ok (.func callable, frame'), m')

/-- The wrappers of a table make callables that a jump can run in place of a call. -/
theorem wrap_suited {base : Callable} (suited : base.Suited) {wrappers : List Decorator}
    (ran : wrap base wrappers m = some (.ok callable, m')) : callable.Suited := by
  cases wrappers with
  | nil =>
    cases ran
    exact suited
  | cons wrapper inside =>
    obtain ⟨inner, middle, -, rest⟩ := bind_eq_ok.mp ran
    cases wrapper with
    | memoize =>
      cases rest
      rintro _ _ ⟨⟩
    | trampolined =>
      cases rest
      rintro _ _ ⟨⟩
      rfl
    | looped | callEc | continuations | lazy =>
      cases rest
      rintro _ _ ⟨⟩

/-- What the evaluator makes is a callable that a jump can run in place of a call. -/
theorem Callable.IsMade.suited (made : callable.IsMade) : callable.Suited := by
  obtain ⟨function, frame, m, frame', m', ran⟩ := made
  simp only [makeClosure, expose_bind, expose_frame, pure_bind] at ran
  cases kind : function.signature.kind with
  | plain =>
    simp only [kind, expose_bind, expose_within, expose_pure, bind_assoc, pure_bind] at ran
    obtain ⟨ref, middle, -, ran⟩ := bind_eq_ok.mp ran
    obtain ⟨wrapped, last, wraps, ran⟩ := bind_eq_ok.mp ran
    cases ran
    have suited : Callable.Suited (.closure ref function frame.env) := by rintro _ _ ⟨⟩
    exact wrap_suited suited wraps
  | continuation =>
    simp only [kind, expose_bind, expose_within, expose_pure, bind_assoc, pure_bind] at ran
    obtain ⟨extent, middle, -, ran⟩ := bind_eq_ok.mp ran
    obtain ⟨ref, middle, -, ran⟩ := bind_eq_ok.mp ran
    obtain ⟨_, last, -, ran⟩ := bind_eq_ok.mp ran
    cases ran
    rintro _ _ ⟨⟩
    rfl

/-- What comes out of a trampoline is no jump. -/
theorem runJumps_settles {variant : Variant} {first value : Value}
    (ran : (Task.runJumps variant first).full m = some (.ok value, m')) :
    ∀ ref, value ≠ .jump ref := by
  rw [Task.full_eq_some] at ran
  obtain ⟨n, ran⟩ := ran
  induction n generalizing first m with
  | zero => cases ran
  | succ n ih =>
    rw [Task.run_succ] at ran
    cases first with
    | jump ref =>
      obtain ⟨next, middle, -, rest⟩ := bind_eq_ok.mp ran
      obtain ⟨answer, middle, rest, ends⟩ := bind_eq_ok.mp rest
      cases ends
      exact ih rest
    | _ =>
      cases ran
      rintro _ ⟨⟩

/-- A trampoline is its loop over the jumps under one guard. -/
theorem full_trampoline (variant : Variant) (first : Value) :
    (Task.trampoline variant first).full = (Task.runJumps variant first).full.guarded := by
  rw [Task.full_eq]
  simp only [Task.plan, Plan.run, bind_pure]

/-- The callable applied without the trampoline around it, and the jumps that come of it. -/
noncomputable def Callable.runs (callable : Callable) (args : List Value) (kwargs : Kwargs) :
    Run Value := do
  let first ← (Task.apply callable.underTrampoline args kwargs).full
  (Task.runJumps (Variant.of callable) first).full

/-- How a call goes on with what was applied. -/
noncomputable def Callable.finish (callable : Callable) : Value -> Run Value
  | .jump ref => (Task.trampoline (Variant.of callable) (.jump ref)).full
  | value => pure value

/-- A call applies the callable and then runs the jumps that it returned. -/
theorem full_call : (Task.call callable args kwargs).full =
    (Task.apply callable args kwargs).full >>= callable.finish := by
  rw [Task.full_eq]
  simp only [Task.plan, Plan.run_bind, Plan.run_ask, Plan.run_done, bind_pure]
  refine bind_congr fun value => ?_
  cases value <;> simp [Callable.finish]

/-- A call is loosely the callable applied and the jumps that come of it. -/
theorem Callable.Suited.call (suited : callable.Suited) (args : List Value) (kwargs : Kwargs) :
    Loosens (callable.runs args kwargs) (Task.call callable args kwargs).full := by
  -- a value that is no jump is its own end, and one that is a jump is run with or without a guard
  have finishes (first : Value) :
      Loosens (Task.runJumps (Variant.of callable) first).full (callable.finish first) := by
    cases first with
    | jump ref =>
      rw [Callable.finish, full_trampoline]
      exact .guarded _
    | _ =>
      rw [Task.full_eq]
      exact .refl _
  rw [full_call, Callable.runs]
  have bare (same : callable.underTrampoline = callable) :
      Loosens ((Task.apply callable.underTrampoline args kwargs).full >>= fun first =>
        (Task.runJumps (Variant.of callable) first).full)
        ((Task.apply callable args kwargs).full >>= callable.finish) := by
    rw [same]
    exact .bind _ finishes
  cases callable with
  | trampolined inner variant =>
    obtain rfl := suited inner variant rfl
    have applies : (Task.apply (.trampolined inner (Variant.of inner)) args kwargs).full =
        (Task.apply inner args kwargs).full >>= fun first =>
          (Task.trampoline (Variant.of inner) first).full := by
      rw [Task.full_eq]
      simp only [Task.plan, Plan.run_bind, Plan.run_ask, Plan.run_done, bind_pure]
    rw [applies, bind_assoc]
    refine .bind _ fun first m => ?_
    have same : ((Task.trampoline (Variant.of inner) first).full >>=
        Callable.finish (.trampolined inner (Variant.of inner))) m =
          (Task.trampoline (Variant.of inner) first).full m := by
      show Exec.bind _ _ m = _
      simp only [Exec.bind]
      rcases ends : (Task.trampoline (Variant.of inner) first).full m with _ | ⟨error | value, last⟩
      · rfl
      · rfl
      · rw [full_trampoline] at ends
        obtain ⟨inside, ran, -⟩ := guarded_eq_some.mp ends
        have settled := runJumps_settles ran
        cases value with
        | jump ref => exact absurd rfl (settled ref)
        | _ => rfl
    rw [same, full_trampoline]
    exact Loosens.guarded _ m
  | _ => exact bare rfl

/-! ## Jumps -/

/-- What a trampoline does with the jump to a callable, if the trampoline suits it: it forces no
arguments. -/
theorem full_runJumps_postponed (pending : m.jump ref = .pending ⟨callable, args, kwargs, none⟩) :
    (Task.runJumps (Variant.of callable) (.jump ref)).full m = callable.runs args kwargs
      { m.taking ref with trace := .jumped callable.underTrampoline :: m.trace } := by
  have isLazy : callable.underTrampoline.isLazy = callable.isLazy := by
    cases callable <;> rfl
  have unforced : (Task.forceForStrict (Variant.of callable) callable.underTrampoline args
      kwargs).full = pure (args, kwargs) := by
    rw [Task.full_eq]
    have keeps : ¬ (decide (Variant.of callable = .promiseAware) &&
        !callable.underTrampoline.isLazy) = true := by
      rw [isLazy, Variant.of]
      cases callable.isLazy <;> simp
    simp only [Task.plan, if_neg keeps]
    rfl
  have applies : (Task.takeStep (Variant.of callable) ref).full m =
      (Task.apply callable.underTrampoline args kwargs).full
        { m.taking ref with trace := .jumped callable.underTrampoline :: m.trace } := by
    rw [full_takeStep pending]
    simp only [Callable.appliedBy, unforced, pure_bind]
    rfl
  rw [full_runJumps_jump]
  show Exec.bind _ _ m = Exec.bind _ _ _
  simp only [Exec.bind, applies]

/-- Guards do not matter for what machines are compared by here. -/
theorem Machine.EqualsBut.loosely {n n' last last' : Machine} (same : n.EqualsBut ref n')
    (loose : n.Loosely last) (loose' : n'.Loosely last') : last.EqualsBut ref last' := by
  obtain ⟨extents, stack, size, rfl⟩ := loose
  obtain ⟨extents', stack', size', rfl⟩ := loose'
  exact { same with extents := size'.trans (same.extents.trans size.symm) }

/-- The same end up to a jump, with or without guards. -/
def SameUpTo {α : Type} (ref : Nat) (outcome outcome' : Outcome Machine α) : Prop :=
  outcome'.1 = outcome.1 ∧ outcome.2.EqualsBut ref outcome'.2

/-- Being the same up to a jump record allows extents to differ, so it outlasts a looser first
run. -/
theorem SameUpTo.loosely {first first' second second' : Option (Outcome Machine α)}
    (loose : Option.Rel (fun outcome outcome' => outcome'.1 = outcome.1 ∧
      outcome.2.Loosely outcome'.2) first first')
    (same : Option.Rel (SameUpTo ref) first second)
    (loose' : Option.Rel (fun outcome outcome' => outcome'.1 = outcome.1 ∧
      outcome.2.Loosely outcome'.2) second second') : Option.Rel (SameUpTo ref) first' second' := by
  cases same with
  | none =>
    cases loose
    cases loose'
    exact .none
  | some same =>
    cases loose with
    | some loose =>
    cases loose' with
    | some loose' =>
      exact .some ⟨loose'.1.trans (same.1.trans loose.1.symm), same.2.loosely loose.2 loose'.2⟩

/-- The machine with a new jump to the callable. -/
def Machine.postponing (m : Machine) (callable : Callable) (args : List Value) (kwargs : Kwargs) :
    Machine :=
  { m with jumps := m.jumps.push (.pending ⟨callable, args, kwargs, none⟩) }

/-- The machine on which a new jump to the callable was taken. -/
def Machine.jumpedTo (m : Machine) (callable : Callable) : Machine :=
  { m with
    jumps := m.jumps.push .consumed
    trace := .jumped callable.underTrampoline :: m.trace }

section Postponed

variable (whole : m.Whole) (has : m.Has (.func callable)) (hasAll : m.HasAll args kwargs)
include whole has hasAll

/-- It makes no difference to a callable whether a jump that nothing refers to was taken. -/
theorem runs_agree : (m.gaining .jump).Agrees m.diagonal (.lift (callable.runs args kwargs))
    (.lift (callable.runs args kwargs)) (m.jumpedTo callable) (m.postponing callable args kwargs)
    (Value.Mirrors (m.gaining .jump)) := by
  have nodes : ∀ e, (m.gaining .jump).node e := fun _ => trivial
  have plain : ∀ reflection callable callable',
    ¬ (m.gaining .jump).special reflection callable callable' := fun _ _ _ => id
  have same : callable.Mirrors (m.gaining .jump) m.diagonal callable := by
    cases has.mirrors nodes with
    | func same => exact same
  have gains := m.gains_jump .consumed
  have gains : m.Gains .jump (m.jumpedTo callable) := ⟨⟨rfl, rfl, rfl, rfl⟩, gains.count, by
    intro other ref inside
    rw [← gains.content inside]
    cases other <;> rfl⟩
  have machines :=
    whole.gains gains (m.gains_jump (.pending ⟨callable, args, kwargs, none⟩)) rfl rfl
  rw [Callable.runs, Bounded.lift_bind]
  refine (Task.Mirrors.full (.apply same.underTrampoline (hasAll.argsMirror nodes)
    (hasAll.kwargsMirror nodes)) rfl plain machines).bind (Exec.le_refl _) (Exec.le_refl _) ?_
  intro later first first' middle middle' _ same machines _ _
  exact Task.Mirrors.full (.runJumps same) rfl plain machines

/-- What comes of a callable is the same, up to the jump. -/
theorem runs_equal : Option.Rel (SameUpTo m.jumps.size)
    (callable.runs args kwargs (m.jumpedTo callable))
    (callable.runs args kwargs (m.postponing callable args kwargs)) := by
  have agrees := runs_agree whole has hasAll
  have equal {outcome outcome' : Outcome Machine Value} (ends : (m.gaining .jump).Ends m.diagonal
      (Value.Mirrors (m.gaining .jump)) outcome outcome') :
      SameUpTo m.jumps.size outcome outcome' := by
    cases ends with
    | value _ same machines =>
      exact ⟨by rw [same.eq machines.exact (fun _ => id) fun _ _ _ => id], machines.equalsBut⟩
    | error _ same _ _ machines =>
      exact ⟨by rw [same.eq machines.exact (fun _ => id) fun _ _ _ => id], machines.equalsBut⟩
  obtain ⟨forth, back⟩ := agrees.alike (fun _ => rfl) fun _ => rfl
  cases ran : callable.runs args kwargs (m.jumpedTo callable) with
  | some outcome =>
    obtain ⟨outcome', ran', same⟩ := forth outcome ran
    rw [ran']
    exact .some (equal same)
  | none =>
    cases ran' : callable.runs args kwargs (m.postponing callable args kwargs) with
    | none => exact .none
    | some outcome' =>
      obtain ⟨outcome, ends, -⟩ := back outcome' ran'
      cases ran.symm.trans ends

/-- The trampoline that takes the postponed call ends as the call does, up to the record. -/
theorem trampoline_equals_call (suited : callable.Suited) : Option.Rel (SameUpTo m.jumps.size)
    ((Task.trampoline (Variant.of callable) (.jump m.jumps.size)).full
      (m.postponing callable args kwargs))
    ((Task.call callable args kwargs).full (m.postponing callable args kwargs)) := by
  have pending : (m.postponing callable args kwargs).jump m.jumps.size =
      .pending ⟨callable, args, kwargs, none⟩ := by
    simp only [Machine.postponing, Machine.jump, getD_push_size]
  have taken : (m.postponing callable args kwargs).taking m.jumps.size =
      { m with jumps := m.jumps.push .consumed } := m.taking_push _
  have jumps := full_runJumps_postponed pending
  rw [taken] at jumps
  have guards := Loosens.guarded (Task.runJumps (Variant.of callable) (.jump m.jumps.size)).full
    (m.postponing callable args kwargs)
  rw [← full_trampoline, jumps] at guards
  exact SameUpTo.loosely guards (runs_equal whole has hasAll) (suited.call args kwargs _)

end Postponed

/-- Running the jump to a callable that nothing else refers to comes to what calling the callable
comes to: one ends when the other does, with the same value or error and on machines that are the
same but for the jump, the extents of continuations and the trace. -/
theorem Machine.Whole.jump_postpones_call (whole : m.Whole) (made : callable.IsMade)
    (has : m.Has (.func callable)) (hasAll : m.HasAll args kwargs) :
    let jumping := { m with jumps := m.jumps.push (.pending ⟨callable, args, kwargs, none⟩) }
    (∀ result last, (∃ fuel, trampoline fuel (Variant.of callable) (.jump m.jumps.size) jumping =
        some (result, last)) -> ∃ last', (∃ fuel, call fuel callable args kwargs jumping =
          some (result, last')) ∧ last.EqualsBut m.jumps.size last') ∧
    ∀ result last', (∃ fuel, call fuel callable args kwargs jumping = some (result, last')) ->
      ∃ last, (∃ fuel, trampoline fuel (Variant.of callable) (.jump m.jumps.size) jumping =
        some (result, last)) ∧ last.EqualsBut m.jumps.size last' := by
  intro jumping
  have same := trampoline_equals_call whole has hasAll made.suited
  have trampolines (outcome : Outcome Machine Value) :
      (∃ fuel, trampoline fuel (Variant.of callable) (.jump m.jumps.size) jumping = some outcome) ↔
        (Task.trampoline (Variant.of callable) (.jump m.jumps.size)).full jumping =
          some outcome := by
    rw [Task.full_eq_some]
    rfl
  have calls (outcome : Outcome Machine Value) :
      (∃ fuel, call fuel callable args kwargs jumping = some outcome) ↔
        (Task.call callable args kwargs).full jumping = some outcome := by
    rw [Task.full_eq_some]
    rfl
  simp only [trampolines, calls]
  change Option.Rel (SameUpTo m.jumps.size)
    ((Task.trampoline (Variant.of callable) (.jump m.jumps.size)).full jumping)
    ((Task.call callable args kwargs).full jumping) at same
  generalize (Task.trampoline (Variant.of callable) (.jump m.jumps.size)).full jumping =
    ends at same
  generalize (Task.call callable args kwargs).full jumping = ends' at same
  cases same with
  | none => exact ⟨by simp, by simp⟩
  | @some outcome outcome' same =>
    obtain ⟨result, last⟩ := outcome
    obtain ⟨result', last'⟩ := outcome'
    obtain ⟨rfl, same⟩ : result' = result ∧ last.EqualsBut m.jumps.size last' := same
    constructor
    · rintro _ _ ⟨⟩
      exact ⟨last', rfl, same⟩
    · rintro _ _ ⟨⟩
      exact ⟨last, rfl, same⟩

/-- A function in a `tco` block that ends with the call `(+ n 1)`. -/
def incrementing : Function :=
  ⟨⟨0, none, ["n"], [], ⟨true, false, false⟩, .plain, [.trampolined]⟩,
    .jump default (.var default "+") [.var default "n", .lit default (.int 1)] [] none⟩

/-- A function that adds one is an instance: the jump to it ends as the call of it does. -/
theorem incrementing_postponed :
    let increment : Callable := .trampolined (.closure 0 incrementing []) .strict
    let m : Machine := { Machine.start false with closures := 1 }
    let jumping := { m with jumps := #[.pending ⟨increment, [.int 7], [], none⟩] }
    ∃ last last', (∃ fuel, trampoline fuel .strict (.jump 0) jumping = some (.ok (.int 8), last)) ∧
      (∃ fuel, call fuel increment [.int 7] [] jumping = some (.ok (.int 8), last')) ∧
      last.EqualsBut 0 last' := by
  intro increment m jumping
  have made : increment.IsMade := ⟨incrementing, .toplevel, .start false, .toplevel, m, rfl⟩
  have whole : m.Whole := by
    refine ⟨fun store ref inside => ?_, fun name value found => ?_,
      fun extent member => absurd member List.not_mem_nil⟩
    · cases store with
      | closure | identity => exact .number
      | _ => exact absurd inside (Nat.not_lt_zero ref)
    · exact m.has_builtin found Nat.zero_lt_one
  have has : m.Has (.func increment) := by
    refine .func
      (.trampolined (.closure false ⟨rfl, Nat.zero_lt_one⟩ (.all (fun _ => trivial) _) .nil))
  have hasAll : m.HasAll [.int 7] [] := by
    refine ⟨fun value member => ?_, fun named member => absurd member List.not_mem_nil⟩
    obtain rfl := List.mem_singleton.mp member
    exact .int
  obtain ⟨last, ran⟩ : ∃ last,
    trampoline 12 .strict (.jump 0) jumping = some (.ok (.int 8), last) :=
    ⟨_, rfl⟩
  obtain ⟨last', ran', same⟩ := (whole.jump_postpones_call made has hasAll).1 _ last ⟨12, ran⟩
  exact ⟨last, last', ⟨12, ran⟩, ran', same⟩

end Trampoline
