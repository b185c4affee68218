import Trampoline.Proofs.Escapes.Tasks
import Trampoline.Proofs.Promises.Strictness
import Trampoline.Proofs.Rewriting.Loans

/-!
# Escapes inside their extents

If every function that takes an escape only calls it in its own body, then in no run of the program
is an escape called outside the extent of its point, whatever the wrappers of its functions and
whether or not their tail calls are deferred.
-/

namespace Trampoline

open Transform

/-- The function is decorated in its source with the decorator. -/
def Signature.Decorated (signature : Signature) (decorator : Decorator) : Prop :=
  ∃ written ∈ signature.decorators, written.1 = decorator.name

instance (signature : Signature) (decorator : Decorator) :
    Decidable (signature.Decorated decorator) :=
  inferInstanceAs (Decidable (∃ _ ∈ _, _))

/-- The first parameter of the function is one of the escape names, and there is nothing that the
function does with the name but to call it in its own body. -/
def Function.CallsOwnEscape (escapes : List String) (function : Function) : Prop :=
  match function.signature.params with
  | [] => False
  | name :: _ => name ∈ escapes ∧ function.body.Honours (· ≠ name) (· = name)

instance (escapes : List String) (function : Function) :
    Decidable (function.CallsOwnEscape escapes) := by
  unfold Function.CallsOwnEscape
  split
  · exact isFalse id
  · exact inferInstanceAs (Decidable (_ ∧ _))

namespace Signature

variable {signature dressed : Signature}

/-- Escape points come from decorators only. -/
theorem Dressed.callEc {table : DecoratorTable} (dresses : signature.Dressed table dressed)
    (listed : .callEc ∈ dressed.wrappers) : signature.Decorated .callEc := by
  obtain ⟨wrappers, resolves, rfl⟩ := dresses
  refine ((mem_resolveWrappers resolves).mp listed).resolve_right fun implied => ?_
  unfold impliedWrappers at implied
  split at implied
  · cases implied
  · simp at implied

/-- Of the wrappers further in than an escape point, only that for laziness and that for
continuations come behind it. -/
theorem Dressed.inside (dresses : signature.Dressed .default dressed)
    (strict : dressed.isLazy = false) {outer inner : List Decorator}
    (split : dressed.wrappers = outer ++ .callEc :: inner) :
    ∀ wrapper ∈ inner, wrapper = .continuations := by
  intro wrapper member
  have listed : wrapper ∈ dressed.wrappers := by
    rw [split]
    exact List.mem_append_right _ (List.mem_cons_of_mem _ member)
  obtain ⟨wrappers, resolves, rfl⟩ := dresses
  obtain ⟨decorators, -, nests⟩ := resolveWrappers_nests resolves
  have ordered := default_ordered nests
  simp only at split
  rw [split] at ordered
  have further := (List.pairwise_cons.mp (List.pairwise_append.mp ordered).2.1).1 wrapper member
  cases wrapper with
  | continuations => rfl
  | «lazy» =>
    have bare := (Bool.or_eq_false_iff.mp strict).2
    rw [List.contains_iff_mem.mpr listed] at bare
    cases bare
  | _ => exact absurd further (by decide)

end Signature

/-- The functions of a transformed program confine their escapes if those of the program only call
them. -/
theorem Program.allConfine_of_uncut {program : Program} (isSource : program.IsSource)
    (uncut : ∀ function ∈ program.functions, function.signature.regions.cont = false)
    {escapes : List String}
    (calls : ∀ function ∈ program.functions, function.signature.Decorated .callEc ->
      function.CallsOwnEscape escapes ∧ ¬function.signature.MarkedLazy)
    {transformed : Transformed} (succeeds : program.transform .default escapes = .ok transformed) :
    AllConfine transformed.program.functions := by
  intro dressed member
  obtain ⟨function, listed, dresses, honours⟩ := Program.transform_uncut succeeds uncut member
  obtain ⟨mark, inProgram⟩ := Program.mem_functions.mp listed
  have plain : function.signature.kind = .plain := (isSource _ inProgram).1
  have strict : .callEc ∈ dressed.signature.wrappers -> dressed.signature.isLazy = false := by
    intro escapes
    have unmarked := (calls function listed (dresses.callEc escapes)).2
    exact eq_false_of_ne_true fun isLazy => unmarked ((dresses.isLazy plain).mp isLazy)
  refine ⟨?_, fun escapes => ⟨strict escapes, ?_⟩, fun outer inner split => ?_⟩
  · obtain ⟨wrappers, -, same⟩ := dresses
    rw [same]
    exact plain
  · obtain ⟨own, -⟩ := calls function listed (dresses.callEc escapes)
    obtain ⟨wrappers, -, same⟩ := dresses
    unfold Function.CallsOwnEscape at own
    split at own
    · exact own.elim
    · rename_i name rest params
      refine ⟨name, rest, by rw [same]; exact params, honours ?_ own.2⟩
      rintro _ rfl
      exact own.1
  · have escapes : .callEc ∈ dressed.signature.wrappers := by
      rw [split]
      exact List.mem_append_right _ List.mem_cons_self
    exact dresses.inside (strict escapes) split

/-- An escape that is used in its own function runs inside its extent. Under the default table, in a
program without `continuations` blocks, let every function that is decorated with an escape point be
strict, take as its first parameter one of the escape names, and do nothing with the name but call
it in its own body. Then no run fails because an escape was called outside the extent of its point,
even where handlers let this error pass. -/
theorem Program.escapes_inside {source : String} {path : Option String} {program : Program}
    (parsed : Program.parse source path = .ok program)
    (uncut : ∀ function ∈ program.functions, function.signature.regions.cont = false)
    {escapes : List String}
    (calls : ∀ function ∈ program.functions, function.signature.Decorated .callEc ->
      function.CallsOwnEscape escapes ∧ ¬function.signature.MarkedLazy)
    {transformed : Transformed} (succeeds : program.transform .default escapes = .ok transformed)
    {errors : EvalError -> Bool} {closedOutput : Bool} {m : Machine}
    (runs : transformed.program.RunsFrom (.startLetting errors closedOutput) m)
    (outcome : Outcome Machine Value) (ends : transformed.program.EndsOn m outcome) :
    outcome.1 ≠ .error .escapeOutsideExtent := by
  have confine := Program.allConfine_of_uncut (Program.parse_isSource parsed) uncut calls succeeds
  have keeps := Program.runs_keep_free confine
    (Machine.keeps_free_startLetting errors closedOutput) runs
  have admits := (Program.run_lends confine keeps ends).ends
  intro outside
  simp only [outside] at admits
  exact admits

/-- An escape from a loop in a body with deferred tail calls, whose results are remembered. -/
def rememberedSearch : String :=
  "(tco (defn find (ec n) :decorators (memoize call-ec)
    (let i 0)
    (while #t (if (= (* i i) n) (ec i) nil) (set! i (+ i 1)))))
  (+ (find 9) (find 16) (find 9))"

/-- The search ends with what its escape was given, inside the extent. -/
theorem rememberedSearch_escapes : ∃ transformed last,
    (Program.ofText rememberedSearch).transform .default ["ec"] = .ok transformed ∧
    transformed.program.EndsOn (.start false) (.ok (.int 10), last) ∧
    ∀ outcome, transformed.program.EndsOn (.start false) outcome ->
      outcome.1 ≠ .error .escapeOutsideExtent := by
  have ⟨reads, uncut, calls, number⟩ :
      (Program.parse rememberedSearch none).toOption.isSome = true ∧
      (∀ function ∈ (Program.ofText rememberedSearch).functions,
        function.signature.regions.cont = false) ∧
      (∀ function ∈ (Program.ofText rememberedSearch).functions,
        function.signature.Decorated .callEc ->
          function.CallsOwnEscape ["ec"] ∧ ¬function.signature.MarkedLazy) ∧
      Program.endsWith rememberedSearch 10 "" = true := by
    rw [Program.endsWith, Program.ofText, rememberedSearch, Program.parse_ofList]
    decide +kernel
  obtain ⟨transformed, last, succeeds, ends, -⟩ := Program.endsWith_endsOn number
  exact ⟨transformed, last, succeeds, ends,
    Program.escapes_inside (Program.parse_ofText reads) uncut
    calls succeeds (.first : transformed.program.RunsFrom (.startLetting (fun _ => false) false) _)⟩

/-- A lazy function that calls its escape for the value of a name. -/
def delayedEscape : String :=
  "(defn f (ec) :decorators (call-ec lazy) (let x (ec 1)) (fn () x))
  (define g (f))
  (if (= (type-of g) \"int\") g (g))"

/-- Whether a run ends because an escape was called outside the extent of its point. -/
def isOutside : Except EvalError Value -> Bool
  | .error .escapeOutsideExtent => true
  | _ => false

/-- The escape is called when the value of the name is needed, after the function has returned. -/
theorem delayedEscape_outside :
    (Program.parse delayedEscape none).toOption.isSome = true ∧
    (∀ node ∈ (Program.ofText delayedEscape).nodes, node.isJump = false) ∧
    (∀ function ∈ (Program.ofText delayedEscape).functions,
      function.signature.regions.cont = false ∧ function.signature.regions.lazy = false ∧
      (function.signature.Decorated .callEc -> function.CallsOwnEscape ["ec"])) ∧
    ∃ transformed last,
      (Program.ofText delayedEscape).transform .default ["ec"] = .ok transformed ∧
      transformed.program.EndsOn (.start false) (.error .escapeOutsideExtent, last) := by
  have ⟨reads, noJumps, such, fails⟩ :
      (Program.parse delayedEscape none).toOption.isSome = true ∧
      (∀ node ∈ (Program.ofText delayedEscape).nodes, node.isJump = false) ∧
      (∀ function ∈ (Program.ofText delayedEscape).functions,
        function.signature.regions.cont = false ∧ function.signature.regions.lazy = false ∧
        (function.signature.Decorated .callEc -> function.CallsOwnEscape ["ec"])) ∧
      Program.endsSo delayedEscape isOutside = true := by
    rw [Program.endsSo, Program.ofText, delayedEscape, Program.parse_ofList]
    decide +kernel
  obtain ⟨transformed, ⟨result, last⟩, succeeds, ends, outside⟩ := Program.endsSo_endsOn fails
  unfold isOutside at outside
  split at outside
  · rename_i same
    simp only at same
    exact ⟨reads, noJumps, such, transformed, last, succeeds, same ▸ ends⟩
  · cases outside

end Trampoline
