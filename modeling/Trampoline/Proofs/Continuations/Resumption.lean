import Trampoline.Proofs.Continuations.Delivery
import Trampoline.Proofs.Extents.Guards

/-!
# Resuming with delayed arguments

A continuation that is resumed with one argument looks at the argument as it is. A lazy one gets it
as a promise, which no trampoline forces on the way, and a promise is no tuple: its value is not
spread over the variables. For one variable the delay does not matter, since it ends where the
variable is read, and for none neither.
-/

namespace Trampoline

open Exec

/-- The rest of a lazy body in a scope. -/
noncomputable def Function.restIn (function : Function) (scope : Env) : Run Value := do
  let (value, _) ← (Task.eval function.body ⟨scope, true, none⟩).full
  pure value

/-- The rest of a lazy body after a capture, with the values in new cells for the variables. -/
noncomputable def Function.restFor (function : Function) (env : Env) (values : List Value) :
    Run Value :=
  bindValues function.signature.params values env >>= function.restIn

section Resumption

variable {ref extent : Nat} {function : Function} {env : Env} {m : Machine} {value : Value}

/-- What a valid continuation does with its arguments. -/
theorem full_resume (valid : m.valid extent = true) (args : List Value) :
    (Task.apply (.continuation ref function env extent true) args []).full m =
      match resumeValues function.signature.params.length args with
      | .error error => some (.error error, m)
      | .ok values => function.restFor env values m := by
  have checked : Run.extentValid extent m = some (.ok true, m) := by
    rw [← valid]
    rfl
  rw [Task.full_eq]
  refine (Plan.run_lift_bind checked).trans ?_
  simp only [Bool.not_true, Bool.false_eq_true, if_false, noKwargs, Plan.run_bind, Plan.run_lift,
    pure_bind]
  cases resumeValues function.signature.params.length args with
  | error error => rfl
  | ok values =>
    simp only [Plan.run_bind, Plan.run_lift, Plan.run_ask, Plan.run_done, bind_pure,
      Function.restFor]
    rfl

/-- A trampoline resumes a lazy continuation with the arguments as they are. -/
theorem appliedBy_continuation (variant : Variant) (args : List Value) :
    Callable.appliedBy (.continuation ref function env extent true) variant args [] =
      (do
        Run.tell (.jumped (.continuation ref function env extent true))
        (Task.apply (.continuation ref function env extent true) args []).full) := by
  have kept : (Task.forceForStrict variant (.continuation ref function env extent true) args
      []).full = pure (args, []) := by
    rw [Task.full_eq]
    simp [Task.plan, Callable.isLazy]
  simp only [Callable.appliedBy, Callable.underTrampoline, kept, pure_bind]

/-- Reading a variable in a lazy body forces what its cell holds, whatever comes of that. -/
theorem full_eval_var {name : String} {frame : Frame} {cell : CellRef} (mark : Mark)
    (delays : frame.isLazy = true) (bound : frame.env.lookup name = some cell) :
    (Task.eval (.var mark name) frame).full m =
      ((Task.force (m.cell cell)).full >>= fun forced => pure (forced, frame)) m := by
  have found : Body.run (Body.lookup name) frame m = some (.ok (m.cell cell), m) := by
    simp [Body.run, Body.lookup, bound]
  rw [Task.full_eq]
  refine (Plan.run_lift_bind found).trans ?_
  rw [delays]
  rfl

/-- Several variables are not bound to what is no tuple. -/
theorem full_resume_other (valid : m.valid extent = true)
    (several : 2 ≤ function.signature.params.length) (other : ∀ items, value ≠ .tuple items) :
    (Task.apply (.continuation ref function env extent true) [value] []).full m =
      some (.error (.continuationArity function.signature.params.length 1), m) := by
  have some : function.signature.params.length ≠ 0 := by omega
  have more : 1 ≠ function.signature.params.length := by omega
  have refused : resumeValues function.signature.params.length [value] =
      .error (.continuationArity function.signature.params.length 1) := by
    cases value with
    | tuple items => exact absurd rfl (other items)
    | _ => simp [resumeValues, some, more]
  rw [full_resume valid, refused]

/-- Several variables are bound to the items of a tuple if there are as many. -/
theorem full_resume_tuple (valid : m.valid extent = true)
    (several : 2 ≤ function.signature.params.length) (items : List Value) :
    (Task.apply (.continuation ref function env extent true) [.tuple items] []).full m =
      if items.length = function.signature.params.length then function.restFor env items m
      else some (.error (.continuationArity function.signature.params.length items.length), m) := by
  have some : function.signature.params.length ≠ 0 := by omega
  have more : 1 ≠ function.signature.params.length := by omega
  rw [full_resume valid, resumeValues, if_neg some, List.length_singleton, if_neg more]
  by_cases many : items.length = function.signature.params.length
  · simp only [many, if_true]
  · simp only [many, if_false]

/-- What a lazy continuation comes to with a promise, and what with a value. Any trampoline passes
the promise on to it. Without variables it makes no difference. One variable gets the one or the
other. From a promise the rest of the body reads what forcing it comes to then, with all effects of
that, and from a value it reads the value. Several variables cannot be bound to a promise, whatever
it comes to, while the items of a tuple are bound to as many variables. -/
theorem Machine.resumes_delayed (promise : Nat) {result : Value}
    (plain : ∀ ref, result ≠ .promise ref) (valid : m.valid extent = true) :
    let next := Callable.continuation ref function env extent true
    let params := function.signature.params
    (∀ variant args, next.appliedBy variant args [] = (do
      Run.tell (.jumped next)
      (Task.apply next args []).full)) ∧
    (params = [] -> (Task.apply next [.promise promise] []).full m =
      (Task.apply next [result] []).full m) ∧
    (∀ name, params = [name] ->
      (∀ arg ∈ [.promise promise, result], (Task.apply next [arg] []).full m =
        function.restIn ((name, m.cells.size) :: env) { m with cells := m.cells.push arg }) ∧
      ∀ mark frame later, frame.isLazy = true -> frame.env.lookup name = some m.cells.size ->
        (later.cell m.cells.size = .promise promise ->
          (Task.eval (.var mark name) frame).full later =
            ((Task.force (.promise promise)).full >>= fun value => pure (value, frame)) later) ∧
        (later.cell m.cells.size = result ->
          (Task.eval (.var mark name) frame).full later = some (.ok (result, frame), later))) ∧
    (2 ≤ params.length ->
      (Task.apply next [.promise promise] []).full m =
        some (.error (.continuationArity params.length 1), m) ∧
      ((∀ items, result ≠ .tuple items) -> (Task.apply next [result] []).full m =
        (Task.apply next [.promise promise] []).full m) ∧
      ∀ items, result = .tuple items -> (Task.apply next [result] []).full m =
        if items.length = params.length then function.restFor env items m
        else some (.error (.continuationArity params.length items.length), m)) := by
  intro next params
  refine ⟨fun variant args => appliedBy_continuation variant args, fun none => ?_,
    fun name one => ⟨fun arg _ => ?_, fun mark frame later delays bound =>
      ⟨fun held => ?_, fun held => ?_⟩⟩,
    fun several => ?_⟩
  · rw [full_resume valid, full_resume valid, show function.signature.params = [] from none]
    rfl
  · have single : function.signature.params = [name] := one
    have bound : resumeValues function.signature.params.length [arg] = .ok [arg] := by
      rw [single]
      rfl
    rw [full_resume valid, bound]
    show (bindValues function.signature.params [arg] env >>= function.restIn) m = _
    rw [single]
    rfl
  · rw [full_eval_var mark delays bound, held]
  · rw [full_eval_var mark delays bound, held]
    exact (bind_apply (full_force plain) _).trans rfl
  · have refused : (Task.apply next [.promise promise] []).full m =
        some (.error (.continuationArity params.length 1), m) :=
      full_resume_other valid several (by simp)
    refine ⟨refused, fun other => ?_, fun items same => ?_⟩
    · exact (full_resume_other valid several other).trans refused.symm
    · exact same ▸ full_resume_tuple valid several items

end Resumption

/-- The rest of a lazy body that was captured with two variables. -/
def secondOfDelayed : Function :=
  ⟨⟨0, none, ["a", "b"], [], ⟨false, true, true⟩, .continuation, []⟩, .var default "b"⟩

/-- A machine that delays a tuple. -/
def Machine.delayingPair : Machine :=
  { Machine.start false with
    promises := #[.pending (.expr (.call default (.var default "tuple")
      [.lit default (.int 1), .lit default (.int 2)] []) [])]
    extents := #[true] }

/-- The promise comes to a tuple with an item for each variable, but it is refused. -/
theorem delayingPair_refuses :
    (∃ last, (Task.force (.promise 0)).full Machine.delayingPair =
      some (.ok (.tuple [.int 1, .int 2]), last)) ∧
    (∀ ref, Value.tuple [.int 1, .int 2] ≠ .promise ref) ∧ Machine.delayingPair.valid 0 = true ∧
    (Task.apply (.continuation 0 secondOfDelayed [] 0 true) [.promise 0] []).full
      Machine.delayingPair = some (.error (.continuationArity 2 1), Machine.delayingPair) ∧
    (Task.apply (.continuation 0 secondOfDelayed [] 0 true) [.tuple [.int 1, .int 2]] []).full
      Machine.delayingPair =
        secondOfDelayed.restFor [] [.int 1, .int 2] Machine.delayingPair := by
  have plain : ∀ ref, Value.tuple [.int 1, .int 2] ≠ .promise ref := by simp
  obtain ⟨-, -, -, several⟩ :=
    @Machine.resumes_delayed 0 0 secondOfDelayed [] Machine.delayingPair 0 _ plain rfl
  obtain ⟨refused, -, spread⟩ := several (by decide)
  exact ⟨⟨_, Task.full_eq_some.mpr ⟨20, rfl⟩⟩, plain, rfl, refused, spread _ rfl⟩

/-- A capture with two variables of a tuple that was given a name. -/
def delayedPair : String :=
  "(lazify (continuations (defn f () (let t (tuple 1 2)) t) (defn g () (capture (a b) (f)) b)))(g)"

/-- The same capture of the tuple itself. -/
def promptPair : String :=
  "(lazify (continuations (defn f () (tuple 1 2)) (defn g () (capture (a b) (f)) b)))(g)"

/-- Whether a run ends because a continuation was resumed with one value for two variables. -/
def isMisfit : Except EvalError Value -> Bool
  | .error (.continuationArity 2 1) => true
  | _ => false

/-- A tuple is spread over the variables, but not where it is delayed. -/
theorem delayedPair_misfits :
    (∃ transformed outcome, (Program.ofText delayedPair).transform .default ["ec"] =
        .ok transformed ∧
      transformed.program.EndsOn (.start false) outcome ∧ isMisfit outcome.1 = true) ∧
    ∃ transformed last, (Program.ofText promptPair).transform .default ["ec"] = .ok transformed ∧
      transformed.program.EndsOn (.start false) (.ok (.int 2), last) ∧ last.output = "" := by
  have ⟨misfits, fits⟩ : Program.endsSo delayedPair isMisfit = true ∧
      Program.endsWith promptPair 2 "" = true := by
    rw [Program.endsSo, Program.ofText, delayedPair, Program.parse_ofList, Program.endsWith,
      Program.ofText, promptPair, Program.parse_ofList]
    decide +kernel
  exact ⟨Program.endsSo_endsOn misfits, Program.endsWith_endsOn fits⟩

end Trampoline
