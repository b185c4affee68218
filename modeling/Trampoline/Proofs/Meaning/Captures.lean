import Trampoline.Proofs.Transport.Programs
import Trampoline.Proofs.Rewriting.Forests
import Trampoline.Proofs.Rewriting.Placement
import Trampoline.Proofs.Spelling.Programs

/-!
# Where programs may capture

The transformation decides whether the captures of a program stand where they may: it succeeds if
they do, and names a misplaced capture if they do not. No capture is left in what it makes, so none
is ever evaluated.
-/

namespace Trampoline

variable {source : String} {path : Option String} {program : Program} {table : DecoratorTable}

/-- Whether an error is that a capture was evaluated. -/
def EvalError.isCapture : EvalError -> Bool
  | .captureOutsideBlock => true
  | _ => false

namespace Program

/-- A parsed program whose decorators are known is transformed if its captures stand where they may,
and rejected for a misplaced capture if they do not. No capture is left in a transformed program,
and no run of it raises the error of one. -/
theorem captures_decided (parsed : Program.parse source path = .ok program)
    (complete : ∀ decorator, (table.record? decorator).isSome = true)
    (known : ∀ function ∈ program.functions, ∀ name ∈ function.signature.decorators.map Prod.fst,
      ∃ decorator, table.lookup name = .ok decorator) (escapes : List String) :
    (program.PlacesCaptures ↔
      ∃ transformed, program.transform table escapes = .ok transformed) ∧
    (¬ program.PlacesCaptures -> ∃ owner fault,
      program.transform table escapes = .error (.capturePlacement owner fault)) ∧
    ∀ transformed, program.transform table escapes = .ok transformed ->
      (∀ e ∈ transformed.program.nodes, e.isCapture = false) ∧ ∀ closedOutput,
        ¬ transformed.program.Raises EvalError.isCapture closedOutput ∧
        ∀ last, ¬ transformed.program.EndsOn (.start closedOutput)
          (.error .captureOutsideBlock, last) := by
  have decides : Decides program.PlacesCaptures TransformError.IsPlacement
      (Transform.toplevels table escapes program.top) fun _ => True :=
    transform_decides_captures parsed complete known
  have succeeds (places : program.PlacesCaptures) :
      ∃ transformed, program.transform table escapes = .ok transformed := by
    obtain ⟨top, progress, ran, -⟩ := decides.succeeds places ⟨program.counters, []⟩
    exact ⟨_, congrArg (Except.map _) ran⟩
  have fails (misplaces : ¬ program.PlacesCaptures) : ∃ owner fault,
      program.transform table escapes = .error (.capturePlacement owner fault) := by
    obtain ⟨_, ran, owner, fault, rfl⟩ := decides.fails misplaces ⟨program.counters, []⟩
    exact ⟨owner, fault, congrArg (Except.map _) ran⟩
  refine ⟨⟨succeeds, ?_⟩, fails, fun transformed transforms => ?_⟩
  · rintro ⟨transformed, transforms⟩
    by_contra misplaces
    obtain ⟨owner, fault, rejects⟩ := fails misplaces
    cases transforms.symm.trans rejects
  · have free := transform_free transforms
    refine ⟨free, fun closedOutput => ⟨?_, fun last ends => ends.not_captures free rfl⟩⟩
    rintro ⟨error, last, captures, ends⟩
    cases error with
    | captureOutsideBlock => exact ends.not_captures free rfl
    | _ => cases captures

/-- Captures stand where they may, and none stands in the call of another, not even in the body of a
function there. -/
structure PlacesCapturesApart (program : Program) : Prop extends program.PlacesCaptures where
  apart : ∀ mark binders captured, .capture mark binders captured ∈ program.nodes ->
    ∀ e ∈ captured.nodes, e.isCapture = false

end Program

/-- Whether an expression is a capture of a call in which there are captures too. -/
def Expr.capturesWithin : Expr -> Bool
  | .capture _ _ captured => captured.nodes.any isCapture
  | _ => false

/-- A captured call with an argument that captures in a body of its own. -/
def capturesInArgument : String :=
  "(continuations
    (defn f (g) :decorators (memoize)
      (capture (a) (g (fn () (capture (b) (g 1)) b)))
      a))"

/-- That its captures do not stand apart does not keep a program from being transformed. -/
theorem capturesInArgument_accepted : ¬ ((Program.ofText capturesInArgument).PlacesCapturesApart ↔
    ∃ transformed, (Program.ofText capturesInArgument).transform .default ["ec", "brk"] =
      .ok transformed) := by
  obtain ⟨nests, transforms⟩ :
      (Program.ofText capturesInArgument).nodes.any Expr.capturesWithin = true ∧
      ((Program.ofText capturesInArgument).transform .default ["ec", "brk"]).toOption.isSome =
        true := by
    rw [Program.ofText, capturesInArgument, Program.parse_ofList]
    decide +kernel
  intro decides
  obtain ⟨transformed, succeeds⟩ : ∃ transformed,
      (Program.ofText capturesInArgument).transform .default ["ec", "brk"] = .ok transformed := by
    cases result : (Program.ofText capturesInArgument).transform .default ["ec", "brk"] with
    | error error => simp [result, Except.toOption] at transforms
    | ok transformed => exact ⟨transformed, rfl⟩
  have apart := (decides.mpr ⟨transformed, succeeds⟩).apart
  obtain ⟨e, inside, nests⟩ := List.any_eq_true.mp nests
  cases e with
  | capture mark binders captured =>
    obtain ⟨inner, nested, captures⟩ := List.any_eq_true.mp nests
    rw [apart mark binders captured inside inner nested] at captures
    cases captures
  | _ => cases nests

/-- The capture in a body of its own is an instance: the program is transformed and captures. -/
theorem capturesInArgument_placed : (Program.ofText capturesInArgument).PlacesCaptures ∧
    ∃ transformed, (Program.ofText capturesInArgument).transform .default [] = .ok transformed ∧
      ¬ transformed.program.Raises EvalError.isCapture false := by
  obtain ⟨reads, known, transforms⟩ :
      (Program.parse capturesInArgument none).toOption.isSome = true ∧
      (∀ function ∈ (Program.ofText capturesInArgument).functions,
        ∀ name ∈ function.signature.decorators.map Prod.fst,
          (DecoratorTable.default.lookup name).toOption.isSome = true) ∧
      ((Program.ofText capturesInArgument).transform .default []).toOption.isSome = true := by
    rw [Program.ofText, capturesInArgument, Program.parse_ofList]
    decide +kernel
  have complete : ∀ decorator, (DecoratorTable.default.record? decorator).isSome = true := by
    intro decorator
    cases decorator <;> rfl
  have known : ∀ function ∈ (Program.ofText capturesInArgument).functions,
      ∀ name ∈ function.signature.decorators.map Prod.fst,
        ∃ decorator, DecoratorTable.default.lookup name = .ok decorator := by
    intro function member name listed
    have known := known function member name listed
    cases found : DecoratorTable.default.lookup name with
    | error error => simp [found, Except.toOption] at known
    | ok decorator => exact ⟨decorator, rfl⟩
  obtain ⟨decides, -, keeps⟩ :=
    Program.captures_decided (Program.parse_ofText reads) complete known []
  cases succeeds : (Program.ofText capturesInArgument).transform .default [] with
  | error error => simp [succeeds, Except.toOption] at transforms
  | ok transformed =>
    exact ⟨decides.mpr ⟨transformed, succeeds⟩, transformed, rfl,
      ((keeps transformed succeeds).2 false).1⟩

end Trampoline
