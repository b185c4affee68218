import Trampoline.Proofs.Escapes.Returns
import Trampoline.Proofs.Evaluation.Runs

/-!
# What builtins deliver

A jump to a builtin with a continuation goes on by resuming the continuation with what the builtin
returns. The one builtin for which this is not so is `identity`, which is a continuation itself: a
jump to it leaves the continuation of the jump behind.
-/

namespace Trampoline

open Exec

/-- The machine after the jump was taken. -/
def Machine.taking (m : Machine) (ref : Nat) : Machine :=
  { m with jumps := m.jumps.setIfInBounds ref .consumed }

namespace Callable

/-- A trampoline calls the target of a jump and waits for its result. If the trampoline knows of
promises and the target does not, it forces the arguments first. -/
noncomputable def calledBy (target : Callable) (variant : Variant) (args : List Value)
    (kwargs : Kwargs) : Run Value := do
  let forced ← (Task.forceForStrict variant target.underTrampoline args kwargs).full
  Run.tell (.jumped target.underTrampoline)
  (Task.call target forced.1 forced.2).full

/-- A trampoline applies the target of a jump in its place. -/
noncomputable def appliedBy (target : Callable) (variant : Variant) (args : List Value)
    (kwargs : Kwargs) : Run Value := do
  let forced ← (Task.forceForStrict variant target.underTrampoline args kwargs).full
  Run.tell (.jumped target.underTrampoline)
  (Task.apply target.underTrampoline forced.1 forced.2).full

end Callable

/-- A trampoline goes on with the callable applied to the value. -/
noncomputable def Callable.resumedBy (next : Callable) (variant : Variant) (value : Value) :
    Run Value := do
  let current ← next.appliedBy variant [value] []
  (Task.runJumps variant current).full

/-- A record that was made last is consumed and leaves the others. -/
theorem Machine.taking_push (m : Machine) (record : JumpRecord) :
    Machine.taking { m with jumps := m.jumps.push record } m.jumps.size =
      { m with jumps := m.jumps.push .consumed } := by
  have same : (m.jumps.push record).setIfInBounds m.jumps.size .consumed =
      m.jumps.push .consumed := by
    ext i bound other
    · simp
    · simp [Array.getElem_push] at *
      grind
  simp only [taking, same]

section Steps

variable {variant : Variant} {ref : Nat} {m : Machine} {jump : Jump}

theorem full_runJumps_jump : (Task.runJumps variant (.jump ref)).full =
    (Task.takeStep variant ref).full >>= fun next => (Task.runJumps variant next).full := by
  rw [Task.full_eq]
  simp only [Task.plan, Plan.run_bind, Plan.run_ask, Plan.run_done, bind_pure]

/-- What a trampoline does with a jump that waits. -/
theorem full_takeStep (pending : m.jump ref = .pending jump) :
    (Task.takeStep variant ref).full m =
      (match jump.cc with
      | none => jump.target.appliedBy variant jump.args jump.kwargs
      | some cc =>
        if jump.target.underTrampoline.acceptsCc then do
          let forced ← (Task.forceForStrict variant jump.target.underTrampoline jump.args
            jump.kwargs).full
          Run.tell (.jumped jump.target.underTrampoline)
          (Task.apply jump.target.underTrampoline forced.1 (replaceCc forced.2 cc)).full
        else if jump.target.underTrampoline.isContinuation then
          jump.target.appliedBy variant jump.args jump.kwargs
        else do
          let result ← jump.target.calledBy variant jump.args jump.kwargs
          let next ← cc.callable
          Run.newJump ⟨next, [result], [], none⟩ : Run Value) (m.taking ref) := by
  have takes : Run.takeJump ref m = some (.ok jump, m.taking ref) := by
    simp only [Run.takeJump, pending]
    rfl
  rw [Task.full_eq]
  refine (Plan.run_lift_bind takes).trans ?_
  cases continuation : jump.cc with
  | none =>
    simp only [Plan.run_bind, Plan.run_ask, Plan.run_done, bind_pure, Plan.run_lift,
      Callable.appliedBy]
  | some cc =>
    simp only [Plan.run_bind, Plan.run_ask, Plan.run_done, bind_pure, Plan.run_lift, Plan.run_ite,
      Callable.appliedBy, Callable.calledBy]
    split
    · rfl
    · split
      · rfl
      · simp only [bind_assoc]

end Steps

/-! ## Results and continuations -/

/-- After a jump to the target, a trampoline goes on by resuming the continuation of the jump with
what the target returns. -/
def Callable.Delivers (target : Callable) : Prop :=
  ∀ variant ref m args kwargs next value m',
    m.jump ref = .pending ⟨target, args, kwargs, some (.func next)⟩ ->
    target.calledBy variant args kwargs (m.taking ref) = some (.ok value, m') ->
    (Task.runJumps variant (.jump ref)).full m =
      next.resumedBy variant value { m' with jumps := m'.jumps.push .consumed }

/-- After a jump to the target, a trampoline goes on with what comes of the target itself, whatever
the continuation of the jump. -/
def Callable.Abandons (target : Callable) : Prop :=
  ∀ variant ref m args kwargs cc, m.jump ref = .pending ⟨target, args, kwargs, some cc⟩ ->
    (Task.runJumps variant (.jump ref)).full m =
      (target.appliedBy variant args kwargs >>= fun current =>
        (Task.runJumps variant current).full) (m.taking ref)

namespace Callable

variable {target : Callable}

/-- What neither takes the continuation of a jump nor is one delivers its results. -/
theorem delivers (returns : target.takesOver = false) : target.Delivers := by
  intro variant ref m args kwargs next value m' pending called
  obtain ⟨takesNone, isNone⟩ := Bool.or_eq_false_iff.mp returns
  have step : (Task.takeStep variant ref).full m = some (.ok (.jump m'.jumps.size),
      { m' with jumps := m'.jumps.push (.pending ⟨next, [value], [], none⟩) }) := by
    rw [full_takeStep pending]
    simp only [takesNone, isNone, Bool.false_eq_true, if_false]
    exact (bind_apply called _).trans rfl
  -- the jump that hands the result over is taken next
  rw [full_runJumps_jump, bind_apply step, full_runJumps_jump]
  have waits : Machine.jump
      { m' with jumps := m'.jumps.push (.pending ⟨next, [value], [], none⟩) } m'.jumps.size =
        .pending ⟨next, [value], [], none⟩ := by
    simp [Machine.jump, Array.getD_eq_getD_getElem?]
  show Exec.bind _ _ _ = Exec.bind _ _ _
  simp only [Exec.bind]
  rw [full_takeStep waits, Machine.taking_push]

/-- A jump to a continuation leaves that of the jump behind. -/
theorem abandons (takesNone : target.underTrampoline.acceptsCc = false)
    (isOne : target.underTrampoline.isContinuation = true) : target.Abandons := by
  intro variant ref m args kwargs cc pending
  rw [full_runJumps_jump]
  show Exec.bind _ _ _ = Exec.bind _ _ _
  simp only [Exec.bind]
  rw [full_takeStep pending]
  simp only [takesNone, isOne, Bool.false_eq_true, if_false, if_true]

end Callable

/-- Builtins deliver their results. Of all that a new machine has defined, a jump to anything but
`identity` goes on by resuming the continuation of the jump with the value that the builtin returns
for its arguments; a jump to `identity`, which is a continuation, abandons that of the jump and
returns the arguments. -/
theorem Machine.builtins_deliver {closedOutput : Bool} {name : String} {builtin : Callable}
    (installed : (name, .func builtin) ∈ (Machine.start closedOutput).globals) :
    (name ≠ "identity" -> builtin.Delivers) ∧
    (name = "identity" -> builtin.Abandons ∧ ∀ args m,
      (Task.apply builtin args []).full m = some (.ok (.pack args), m)) := by
  rcases List.mem_append.mp installed with native | identity
  · obtain ⟨op, listed, same⟩ := List.mem_map.mp native
    cases same
    refine ⟨fun _ => Callable.delivers rfl, fun same => absurd same ?_⟩
    cases op <;> decide
  · cases List.mem_singleton.mp identity
    refine ⟨fun other => absurd rfl other, fun _ => ⟨Callable.abandons rfl rfl, fun args m => ?_⟩⟩
    rw [Task.full_eq]
    rfl

/-- A captured continuation of two variables, whose rest is the second of them. -/
def secondOfTwo : Callable :=
  .continuation 0
    ⟨⟨0, none, ["a", "b"], [], ⟨false, true, false⟩, .continuation, []⟩, .var default "b"⟩
      [] 0 false

/-- A machine on which a jump to `values` waits, with a continuation. -/
def Machine.passingValues : Machine :=
  { Machine.start false with
    jumps := #[.pending ⟨.native .values, [.int 1, .int 2], [], some (.func secondOfTwo)⟩]
    extents := #[true] }

/-- The jump to `values` hands the pair to the continuation, which takes it apart. -/
theorem passingValues_resumes :
    ("values", .func (.native .values)) ∈ (Machine.start false).globals ∧
    (Task.runJumps .strict (.jump 0)).full Machine.passingValues =
      secondOfTwo.resumedBy .strict (.tuple [.int 1, .int 2])
        { Machine.passingValues with
          jumps := #[.consumed, .consumed], trace := [.jumped (.native .values)] } := by
  have installed : ("values", .func (.native .values)) ∈ (Machine.start false).globals :=
    List.mem_append_left _ (List.mem_map.mpr ⟨.values, by decide, rfl⟩)
  have called : (Callable.native .values).calledBy .strict [.int 1, .int 2] []
      (Machine.passingValues.taking 0) = some (.ok (.tuple [.int 1, .int 2]),
        { Machine.passingValues.taking 0 with trace := [.jumped (.native .values)] }) := by
    have forced : (Task.forceForStrict .strict (.native .values) [.int 1, .int 2] []).full
        (Machine.passingValues.taking 0) =
          some (.ok ([.int 1, .int 2], []), Machine.passingValues.taking 0) :=
      Task.full_eq_some.mpr ⟨1, rfl⟩
    exact (bind_apply forced _).trans (Task.full_eq_some.mpr ⟨5, rfl⟩)
  exact ⟨installed, (Machine.builtins_deliver installed).1 (by decide) _ _ _ _ _ _ _ _ rfl called⟩

/-- A capture of what a jump to `identity` gives. -/
def capturedIdentity : String :=
  "(continuations (defn main () (capture (r) (identity 1)) (print \"resumed\") (+ r 1))) (main)"

/-- The same capture of what a jump to `values` gives. -/
def capturedValues : String :=
  "(continuations (defn main () (capture (r) (values 1)) (print \"resumed\") (+ r 1))) (main)"

/-- The jump to `values` resumes the capture, and that to `identity` abandons it. -/
theorem capturedIdentity_skips :
    (∃ transformed last, (Program.ofText capturedIdentity).transform .default ["ec"] =
        .ok transformed ∧
      transformed.program.EndsOn (.start false) (.ok (.int 1), last) ∧ last.output = "") ∧
    ∃ transformed last,
      (Program.ofText capturedValues).transform .default ["ec"] = .ok transformed ∧
      transformed.program.EndsOn (.start false) (.ok (.int 2), last) ∧
      last.output = "resumed\n" := by
  have ⟨skips, resumes⟩ : Program.endsWith capturedIdentity 1 "" = true ∧
      Program.endsWith capturedValues 2 "resumed\n" = true := by
    rw [Program.endsWith, Program.ofText, capturedIdentity, Program.parse_ofList, Program.endsWith,
      Program.ofText, capturedValues, Program.parse_ofList]
    decide +kernel
  exact ⟨Program.endsWith_endsOn skips, Program.endsWith_endsOn resumes⟩

end Trampoline
