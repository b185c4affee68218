import Trampoline.Proofs.Extents.Guards
import Trampoline.Proofs.Evaluation.Runs
import Trampoline.Proofs.Syntax.Source
import Trampoline.Transform.Program

/-!
# Failures invalidate

When a call fails, the continuations captured within a guarded operation of it that failed can not
be resumed any more. What was captured outside of all of them, before the first trampoline began,
waits for the guarded operation around the call: inside of one everything captured meanwhile becomes
invalid, and without one it can still be resumed.
-/

namespace Trampoline

open Exec

namespace Machine

/-- The extent was captured between one machine and the other. -/
def Captures (m m' : Machine) (extent : Nat) : Prop :=
  m.extents.size ≤ extent ∧ extent < m'.extents.size

/-- No continuation of the extent can be resumed, and trying to changes nothing. -/
structure Refuses (m : Machine) (extent : Nat) : Prop where
  apply : ∀ n ref function env isLazy args kwargs,
    Trampoline.apply (n + 1) (.continuation ref function env extent isLazy) args kwargs m =
      some (.error .continuationInvalidated, m)
  call : ∀ n ref function env isLazy variant args kwargs, Trampoline.call (n + 3)
    (.trampolined (.continuation ref function env extent isLazy) variant) args kwargs m =
      some (.error .continuationInvalidated, m)

/-- A continuation whose extent is out refuses every call. -/
theorem Refuses.of_invalid {m : Machine} {extent : Nat} (invalid : m.valid extent = false) :
    m.Refuses extent := by
  have refused (n ref : Nat) (function : Function) (env : Env) (isLazy : Bool) (args : List Value)
      (kwargs : Kwargs) : Trampoline.apply (n + 1) (.continuation ref function env extent isLazy)
        args kwargs m = some (.error .continuationInvalidated, m) := by
    rw [Trampoline.apply]
    show Exec.bind (Run.extentValid extent) _ m = _
    rw [Exec.bind]
    show (if !m.valid extent then Exec.fail .continuationInvalidated else _ : Run Value) m = _
    rw [invalid]
    rfl
  refine ⟨refused, fun n ref function env isLazy variant args kwargs => ?_⟩
  rw [Trampoline.call, Trampoline.apply]
  refine bind_eq_some.mpr (.inr ⟨_, m, bind_eq_some.mpr (.inr ⟨_, m, ?_, rfl⟩), rfl⟩)
  exact refused n ref function env isLazy args kwargs

end Machine

namespace Task

/-- The extent was captured inside of a guarded operation on the way of the task. -/
def Covers (n : Nat) (task : Task) (m : Machine) (extent : Nat) : Prop :=
  ∃ guard ∈ task.guards n m, guard.captures extent = true

/-- One such operation ended with a value or was left by an escape, and with it the activation that
captured. -/
def LetsGo (n : Nat) (task : Task) (m : Machine) (extent : Nat) : Prop :=
  ∃ guard ∈ task.guards n m, guard.captures extent = true ∧ guard.failed = false

variable {n : Nat} {task : Task} {m : Machine} {extent : Nat}

/-- What the task does not let go was captured inside a guarded operation that failed. -/
theorem failed_of_held (held : ¬task.LetsGo n m extent) (guard : Guard)
    (member : guard ∈ task.guards n m) (captured : guard.captures extent = true) :
    guard.failed = true := by
  rw [← Bool.not_eq_false]
  exact fun succeeded => held ⟨guard, member, captured, succeeded⟩

end Task

/-- When a task fails, such as a call or an application, what was captured meanwhile can not be
resumed, but for what a guarded operation on the way let go. Inside of a guarded operation, the
stack of extents is then as it was. On its own, the task leaves on the stack what was captured
outside of the guarded operations on the way, and that can still be resumed. -/
theorem Task.failure_invalidates (n : Nat) (task : Task) (m m' : Machine) (error : EvalError)
    (fails : task.run n m = some (.error error, m')) (failure : error.isEscape = false) :
    (∃ last, (task.run n).guarded m = some (.error error, last) ∧
      last.stack.toList = m.stack.toList ∧
      ∀ extent, m.Captures last extent -> ¬task.LetsGo n m extent -> last.Refuses extent) ∧
    (∀ extent, task.Covers n m extent -> ¬task.LetsGo n m extent -> m'.Refuses extent) ∧
    ∃ loose, m'.stack.toList = m.stack.toList ++ loose ∧
      ∀ extent, extent ∈ loose ↔ m.Captures m' extent ∧ ¬task.Covers n m extent ∧
        m'.valid extent = true := by
  have disposes := Task.disposes n task m _ m' fails
  constructor
  · have whole := disposes.guarded (.error error : Except EvalError task.Answer)
    have size := Machine.Disposes.size_guardedState m.stack.size
      (.error error : Except EvalError task.Answer) m'
    obtain ⟨loose, stacked, isLoose⟩ := whole.stack
    have own (extent : Nat) (captured : m.Captures m' extent) :
        (Guard.ofEnd m (.error error : Except EvalError task.Answer) m').captures extent = true :=
      Guard.captures_iff.mpr captured
    refine ⟨_, guarded_eq_some.mpr ⟨m', fails, rfl⟩, ?_, fun extent captured held => ?_⟩
    · have none : loose = [] := by
        refine List.eq_nil_iff_forall_not_mem.mpr fun extent member => ?_
        obtain ⟨new, inside, free⟩ := (isLoose extent).mp member
        have captured := own extent ⟨new, size ▸ inside⟩
        cases captured.symm.trans (free _ (List.mem_append_right _ (List.mem_singleton_self _)))
      rw [stacked, none, List.append_nil]
    · have captured := own extent ⟨captured.1, size ▸ captured.2⟩
      refine .of_invalid (whole.invalid ⟨_, List.mem_append_right _ (List.mem_singleton_self _),
        captured⟩ fun guard member within => ?_)
      rcases List.mem_append.mp member with member | member
      · exact Task.failed_of_held held guard member within
      · rw [List.mem_singleton.mp member]
        simp [Guard.ofEnd, isFailure, failure]
  constructor
  · exact fun extent covers held =>
      .of_invalid (disposes.invalid covers (Task.failed_of_held held))
  · obtain ⟨loose, stacked, isLoose⟩ := disposes.stack
    refine ⟨loose, stacked, fun extent => (isLoose extent).trans ⟨?_, ?_⟩⟩
    · rintro ⟨new, inside, free⟩
      refine ⟨⟨new, inside⟩, ?_, disposes.valid_of_loose new inside free⟩
      rintro ⟨guard, member, captured⟩
      cases (free guard member).symm.trans captured
    · rintro ⟨⟨new, inside⟩, bare, -⟩
      refine ⟨new, inside, fun guard member => ?_⟩
      rw [← Bool.not_eq_true]
      exact fun captured => bare ⟨guard, member, captured⟩

/-! ## A call that fails -/

/-- A function that captures and calls another, which captures and calls one that fails. -/
def failedCapture : String :=
  "(define outer nil)
  (define inner nil)
  (continuations
    (defn h () (set! inner cc) (raise \"x\"))
    (defn g () (set! outer cc) (capture (s) (h)) s)
    (defn f () (capture (r) (g)) (print r) r))"

/-- The text is run and its function called, which fails; what is asked then. -/
def Program.failsThen (source : String)
    (asked : Machine -> Callable -> EvalError -> Machine -> Bool) : Bool :=
  ((Program.ofText source).transform .default ["ec"]).toOption.any fun transformed =>
    match transformed.program.run 60 (.start false) with
    | some (.ok .nil, m) =>
      match m.global? "f" with
      | some (.func f) =>
        match Trampoline.call 60 f [] [] m with
        | some (.error error, m') => asked m f error m'
        | _ => false
      | _ => false
    | _ => false

/-- A checked run is one that defines `f`, whose call then fails. -/
theorem Program.failsThen_fails {source : String}
    {asked : Machine -> Callable -> EvalError -> Machine -> Bool}
    (holds : Program.failsThen source asked = true) : ∃ transformed m f error m',
      (Program.ofText source).transform .default ["ec"] = .ok transformed ∧
        transformed.program.EndsOn (.start false) (.ok .nil, m) ∧
        m.global? "f" = some (.func f) ∧
        (Task.call f [] []).run 60 m = some (.error error, m') ∧ asked m f error m' = true := by
  unfold Program.failsThen at holds
  cases succeeds : (Program.ofText source).transform .default ["ec"] with
  | error error => simp [succeeds, Except.toOption] at holds
  | ok transformed =>
    simp only [succeeds, Except.toOption, Option.any_some] at holds
    split at holds
    · rename_i m ran
      split at holds
      · rename_i f known
        split at holds
        · rename_i error m' fails
          exact ⟨transformed, m, f, error, m', rfl, ⟨60, ran⟩, known, fails, holds⟩
        · cases holds
      · cases holds
    · cases holds

/-- The continuation that the inner function captured can not be resumed any more. -/
theorem failedCapture_invalidates : ∃ transformed m f error m',
    (Program.ofText failedCapture).transform .default ["ec"] = .ok transformed ∧
      transformed.program.EndsOn (.start false) (.ok .nil, m) ∧ m.global? "f" = some (.func f) ∧
      (Task.call f [] []).run 60 m = some (.error error, m') ∧ error.isEscape = false ∧
      m.Captures m' 1 ∧ m'.Refuses 1 := by
  have holds : Program.failsThen failedCapture (fun m f error m' => !error.isEscape &&
      decide (m.extents.size ≤ 1 ∧ 1 < m'.extents.size) &&
      (Task.guards 60 (.call f [] []) m).any (·.captures 1) &&
      (Task.guards 60 (.call f [] []) m).all Guard.failed) = true := by
    rw [Program.failsThen, Program.ofText, failedCapture, Program.parse_ofList]
    decide +kernel
  obtain ⟨transformed, m, f, error, m', succeeds, ends, known, fails, asked⟩ :=
    Program.failsThen_fails holds
  simp only [Bool.and_eq_true, Bool.not_eq_true', decide_eq_true_eq, List.any_eq_true,
    List.all_eq_true] at asked
  obtain ⟨⟨⟨failure, captured⟩, covers⟩, failed⟩ := asked
  obtain ⟨-, invalidates, -⟩ := Task.failure_invalidates 60 (.call f [] []) m m' error fails failure
  refine ⟨transformed, m, f, error, m', succeeds, ends, known, fails, failure, captured,
    invalidates 1 covers ?_⟩
  rintro ⟨guard, member, -, succeeded⟩
  cases succeeded.symm.trans (failed guard member)

/-- The continuation that the program keeps can be resumed, and the program prints a line then. -/
def Machine.resumesOuter (m : Machine) : Bool :=
  match m.global? "outer" with
  | some (.func rest) =>
    match call 60 rest [.int 1] [] m with
    | some (.ok _, last) => last.output == "1\n"
    | _ => false
  | _ => false

/-- A checked resumption is one that succeeds and prints. -/
theorem Machine.resumesOuter_resumes {m : Machine} (resumes : m.resumesOuter = true) :
    ∃ rest value last, m.global? "outer" = some (.func rest) ∧
      call 60 rest [.int 1] [] m = some (.ok value, last) ∧ last.output = "1\n" := by
  unfold Machine.resumesOuter at resumes
  split at resumes
  · rename_i rest kept
    split at resumes
    · rename_i value last ran
      exact ⟨rest, value, last, kept, ran, eq_of_beq resumes⟩
    · cases resumes
  · cases resumes

/-- The extent of the outer function is left on the stack, and its continuation can be resumed. -/
theorem failedCapture_resumes : ∃ transformed m f error m',
    (Program.ofText failedCapture).transform .default ["ec"] = .ok transformed ∧
      transformed.program.EndsOn (.start false) (.ok .nil, m) ∧ m.global? "f" = some (.func f) ∧
      (Task.call f [] []).run 60 m = some (.error error, m') ∧ error.isEscape = false ∧
      m.stack.size < m'.stack.size ∧ ∃ rest value last, m'.global? "outer" = some (.func rest) ∧
        Trampoline.call 60 rest [.int 1] [] m' = some (.ok value, last) ∧
        last.output = "1\n" := by
  have holds : Program.failsThen failedCapture (fun m _ error m' => !error.isEscape &&
      decide (m.stack.size < m'.stack.size) && m'.resumesOuter) = true := by
    rw [Program.failsThen, Program.ofText, failedCapture, Program.parse_ofList]
    decide +kernel
  obtain ⟨transformed, m, f, error, m', succeeds, ends, known, fails, asked⟩ :=
    Program.failsThen_fails holds
  simp only [Bool.and_eq_true, Bool.not_eq_true', decide_eq_true_eq] at asked
  obtain ⟨⟨failure, grown⟩, resumes⟩ := asked
  exact ⟨transformed, m, f, error, m', succeeds, ends, known, fails, failure, grown,
    m'.resumesOuter_resumes resumes⟩

end Trampoline
