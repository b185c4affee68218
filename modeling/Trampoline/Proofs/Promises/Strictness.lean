import Trampoline.Proofs.Evaluation.Stacks
import Trampoline.Proofs.Promises.Tasks
import Trampoline.Proofs.Rewriting.Origins

/-!
# Strict bodies see no promises

Only a function inside a lazy one could find a promise in its scope. If such functions are lazy too,
a strict body never looks one up, and no native gets one.
-/

namespace Trampoline

open Transform

/-- The blocks around the function or its decorators make it lazy. -/
def Signature.MarkedLazy (signature : Signature) : Prop :=
  signature.regions.lazy = true ∨
    ∃ written ∈ signature.decorators, written.1 = Decorator.lazy.name

instance (signature : Signature) : Decidable signature.MarkedLazy :=
  inferInstanceAs (Decidable (_ ∨ _))

namespace Signature

variable {signature dressed : Signature} {table : DecoratorTable}

/-- A function is lazy after the transformation if a block or a decorator marks it so. -/
theorem Dressed.isLazy (dresses : signature.Dressed table dressed)
    (plain : signature.kind = .plain) : dressed.isLazy = true ↔ signature.MarkedLazy := by
  obtain ⟨wrappers, resolves, rfl⟩ := dresses
  have implied : .lazy ∈ impliedWrappers signature ↔ signature.regions.lazy = true := by
    simp only [impliedWrappers, plain, List.mem_append]
    cases signature.regions.tco <;> cases signature.regions.cont <;>
      cases signature.regions.lazy <;> simp
  simp only [Signature.isLazy, Bool.or_eq_true, List.contains_iff_mem,
    mem_resolveWrappers resolves, implied, MarkedLazy]
  exact ⟨fun either => either.elim .inl Or.symm, fun either => .inr either.symm⟩

/-- Without tail calls there is a trampoline only where it is written. -/
theorem Dressed.untrampolined (dresses : signature.Dressed table dressed)
    (direct : signature.Direct)
    (unwritten : ∀ written ∈ signature.decorators, written.1 ≠ Decorator.trampolined.name) :
    .trampolined ∉ dressed.wrappers := by
  obtain ⟨wrappers, resolves, rfl⟩ := dresses
  intro member
  rcases (mem_resolveWrappers resolves).mp member with ⟨written, listed, same⟩ | implied
  · exact unwritten written listed same
  · unfold impliedWrappers at implied
    split at implied
    · cases implied
    · simp [direct.1, direct.2] at implied

end Signature

/-- Where functions inside lazy ones are lazy, promises are kept where they may be. -/
theorem Program.prompt_of_direct {program : Program} (isSource : program.IsSource)
    (without : program.WithoutJumps)
    (direct : ∀ function ∈ program.functions, function.signature.Direct)
    (unwritten : ∀ function ∈ program.functions, ∀ written ∈ function.signature.decorators,
      written.1 ≠ Decorator.trampolined.name)
    (nested : ∀ function ∈ program.functions, function.signature.MarkedLazy ->
      ∀ inner ∈ function.body.functions, inner.signature.MarkedLazy)
    {table : DecoratorTable} {escapes : List String} {transformed : Transformed}
    (succeeds : program.transform table escapes = .ok transformed) :
    transformed.program.Prompt where
  obey := Program.transform_obeys without isSource succeeds
  prompt := by
    intro dressed member
    obtain ⟨function, listed, dresses, inside⟩ :=
      Program.transform_direct succeeds direct (Program.mem_functions_iff.mpr member)
    have written : ∀ function ∈ program.functions, function.signature.kind = .plain := by
      intro function listed
      obtain ⟨mark, inProgram⟩ := Program.mem_functions.mp listed
      exact (isSource _ inProgram).1
    have plain := written function listed
    have bare := dresses.untrampolined (direct function listed) (unwritten function listed)
    refine ⟨⟨fun continues => ?_, fun outer inner split => ?_⟩, nofun,
      fun isLazy inner member => ?_⟩
    · obtain ⟨wrappers, -, same⟩ := dresses
      rw [same] at continues
      cases plain.symm.trans continues
    · rw [split] at bare
      exact absurd (List.mem_append_right _ List.mem_cons_self) bare
    · obtain ⟨source, within, dresses'⟩ := inside inner member
      have listed' := Program.mem_functions_inner listed within
      have marked := nested function listed ((dresses.isLazy plain).mp isLazy) source within
      exact (dresses'.isLazy (written source listed')).mpr marked

/-- Strict bodies see no promises. In a program without blocks for tail calls or continuations and
without written jumps, trampolines and handles, in which the functions inside lazy ones are lazy,
under any table of decorators: no name that a strict body evaluates stands for a promise, and no
native is applied to one. -/
theorem Program.strict_bodies_prompt {source : String} {path : Option String} {program : Program}
    (parsed : Program.parse source path = .ok program)
    (direct : ∀ function ∈ program.functions, function.signature.Direct)
    (noJumps : ∀ node ∈ program.nodes, node.isJump = false)
    (bare : ∀ function ∈ program.functions, ∀ written ∈ function.signature.decorators,
      written.1 ≠ Decorator.trampolined.name ∧ written.1 ≠ Decorator.looped.name)
    (nested : ∀ function ∈ program.functions, function.signature.MarkedLazy ->
      ∀ inner ∈ function.body.functions, inner.signature.MarkedLazy)
    {table : DecoratorTable} {escapes : List String} {transformed : Transformed}
    (succeeds : program.transform table escapes = .ok transformed)
    {errors : EvalError -> Bool} {closedOutput : Bool} {m : Machine}
    (runs : transformed.program.RunsFrom (.startLetting errors closedOutput) m)
    (n fuel : Nat) (later : Machine) (callers : List Call) :
    (∀ mark name frame,
      Entry.Stack (.program transformed.program) n m
        (⟨fuel, .eval (.var mark name) frame, later⟩ :: callers) ->
      frame.isLazy = false -> ∀ value next last,
        Call.Ends ⟨fuel, .eval (.var mark name) frame, later⟩ (.ok (value, next), last) ->
          value.isPromise = false) ∧
    ∀ op args kwargs,
      Entry.Stack (.program transformed.program) n m
        (⟨fuel, .apply (.native op) args kwargs, later⟩ :: callers) ->
      (∀ arg ∈ args, arg.isPromise = false) ∧ ∀ kwarg ∈ kwargs, kwarg.2.isPromise = false := by
  have without : program.WithoutJumps :=
    ⟨noJumps, fun function listed written member => (bare function listed written member).2⟩
  have unwritten := fun function listed written member => (bare function listed written member).1
  have prompt := Program.prompt_of_direct (Program.parse_isSource parsed) without direct unwritten
    nested succeeds
  have tidy := prompt.runs (Machine.tidy_startLetting errors closedOutput) runs
  refine ⟨fun mark name frame stack strict value next last ends => ?_,
    fun op args kwargs stack => ?_⟩
  · obtain ⟨returns, settles, -⟩ := (prompt.ends tidy stack ends).ends
    exact (returns.plain (settles trivial)).not_promise
  · obtain ⟨⟨-, fit, namedFit⟩, -⟩ := prompt.stack tidy stack
    exact ⟨fun arg member => ((fit arg member).plain id).not_promise,
      fun kwarg member => ((namedFit kwarg member).plain id).not_promise⟩

/-! ### Runs that get to natives -/

/-- The task applies a native to such arguments. -/
def Task.appliesNative (such : List Value -> Machine -> Bool) : Task -> Machine -> Bool
  | .apply (.native _) args _, m => such args m
  | _, _ => false

/-- The text is transformed, and a run of it gets to a native that is applied to such arguments. -/
def Program.appliesNative (source : String) (such : List Value -> Machine -> Bool) : Bool :=
  ((Program.ofText source).transform .default []).toOption.any fun transformed =>
    transformed.program.getsTo (Task.appliesNative such) 40 (.startLetting (fun _ => true) false)

/-- A native that is seen to be applied so is applied so on some stack of calls. -/
theorem Program.appliesNative_stack {source : String} {such : List Value -> Machine -> Bool}
    (applies : Program.appliesNative source such = true) :
    ∃ transformed fuel op args kwargs later callers,
      (Program.ofText source).transform .default [] = .ok transformed ∧
      Entry.Stack (.program transformed.program) 40 (.startLetting (fun _ => true) false)
        (⟨fuel, .apply (.native op) args kwargs, later⟩ :: callers) ∧
      such args later = true := by
  unfold Program.appliesNative at applies
  cases succeeds : (Program.ofText source).transform .default [] with
  | error error => simp [succeeds, Except.toOption] at applies
  | ok transformed =>
    simp only [succeeds, Except.toOption, Option.any_some] at applies
    obtain ⟨⟨fuel, task, later⟩, callers, stack, holds⟩ := Program.getsTo_stack applies
    change Task.appliesNative such task later = true at holds
    unfold Task.appliesNative at holds
    split at holds
    · exact ⟨transformed, _, _, _, _, _, callers, rfl, stack, holds⟩
    · cases holds

/-- Lazy functions of both kinds, a function inside one of them, and a strict function that calls
them. -/
def mixedBodies : String :=
  "(defn second (x y) :decorators (lazy) y)
  (lazify (defn keep (x) (let y (+ x 1)) (fn () (+ x y))))
  (defn main (n) (+ n ((keep n))))
  (main (second 1 2))"

/-- A program with bodies of all kinds is an instance: a native in it is applied to plain values. -/
theorem mixedBodies_prompt : ∃ transformed fuel op args kwargs later callers,
    (Program.ofText mixedBodies).transform .default [] = .ok transformed ∧
    Entry.Stack (.program transformed.program) 40 (.startLetting (fun _ => true) false)
      (⟨fuel, .apply (.native op) args kwargs, later⟩ :: callers) ∧
    0 < later.promises.size ∧ args ≠ [] ∧ ∀ arg ∈ args, arg.isPromise = false := by
  have ⟨reads, direct, noJumps, bare, nested, applies⟩ :
      (Program.parse mixedBodies none).toOption.isSome = true ∧
      (∀ function ∈ (Program.ofText mixedBodies).functions, function.signature.Direct) ∧
      (∀ node ∈ (Program.ofText mixedBodies).nodes, node.isJump = false) ∧
      (∀ function ∈ (Program.ofText mixedBodies).functions,
        ∀ written ∈ function.signature.decorators,
          written.1 ≠ Decorator.trampolined.name ∧ written.1 ≠ Decorator.looped.name) ∧
      (∀ function ∈ (Program.ofText mixedBodies).functions, function.signature.MarkedLazy ->
        ∀ inner ∈ function.body.functions, inner.signature.MarkedLazy) ∧
      Program.appliesNative mixedBodies (fun args m => 0 < m.promises.size && !args.isEmpty) =
        true := by
    rw [Program.appliesNative, Program.ofText, mixedBodies, Program.parse_ofList]
    decide +kernel
  obtain ⟨transformed, fuel, op, args, kwargs, later, callers, succeeds, stack, such⟩ :=
    Program.appliesNative_stack applies
  rw [Bool.and_eq_true, decide_eq_true_eq, Bool.not_eq_true', List.isEmpty_eq_false_iff] at such
  have runs : transformed.program.RunsFrom (.startLetting (fun _ => true) false) _ := .first
  have prompt := Program.strict_bodies_prompt (Program.parse_ofText reads) direct noJumps bare
    nested succeeds runs 40 fuel later callers
  exact ⟨transformed, fuel, op, args, kwargs, later, callers, succeeds, stack, such.1, such.2,
    (prompt.2 op args kwargs stack).1⟩

/-- A strict function inside one that is decorated as lazy, with its parameter in scope. -/
def escapedParameter : String :=
  "(defn f (x) :decorators (lazy) (fn () (type-of x)))
  (lazify (defn main () ((f (+ 1 2)))))
  (main)"

/-- The strict function looks up a promise, and passes it to a native. -/
theorem escapedParameter_reachesNative :
    (∀ function ∈ (Program.ofText escapedParameter).functions, function.signature.Direct) ∧
    (∀ node ∈ (Program.ofText escapedParameter).nodes, node.isJump = false) ∧
    (∀ function ∈ (Program.ofText escapedParameter).functions,
      ∀ written ∈ function.signature.decorators,
        written.1 ≠ Decorator.trampolined.name ∧ written.1 ≠ Decorator.looped.name) ∧
    ∃ transformed fuel op args kwargs later callers,
      (Program.ofText escapedParameter).transform .default [] = .ok transformed ∧
      Entry.Stack (.program transformed.program) 40 (.startLetting (fun _ => true) false)
        (⟨fuel, .apply (.native op) args kwargs, later⟩ :: callers) ∧
      ∃ arg ∈ args, arg.isPromise = true := by
  have ⟨direct, noJumps, bare, applies⟩ :
      (∀ function ∈ (Program.ofText escapedParameter).functions, function.signature.Direct) ∧
      (∀ node ∈ (Program.ofText escapedParameter).nodes, node.isJump = false) ∧
      (∀ function ∈ (Program.ofText escapedParameter).functions,
        ∀ written ∈ function.signature.decorators,
          written.1 ≠ Decorator.trampolined.name ∧ written.1 ≠ Decorator.looped.name) ∧
      Program.appliesNative escapedParameter (fun args _ => args.any Value.isPromise) = true := by
    rw [Program.appliesNative, Program.ofText, escapedParameter, Program.parse_ofList]
    decide +kernel
  obtain ⟨transformed, fuel, op, args, kwargs, later, callers, succeeds, stack, such⟩ :=
    Program.appliesNative_stack applies
  exact ⟨direct, noJumps, bare, transformed, fuel, op, args, kwargs, later, callers, succeeds,
    stack, List.any_eq_true.mp such⟩

end Trampoline
