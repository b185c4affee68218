import Trampoline.Proofs.Evaluation.Runs
import Trampoline.Proofs.Simulation.Applications

/-!
# Programs and their rewritten forms

A program whose toplevel forms are rewritten one by one ends as its rewritten form does, unless it
ends with a lost error.
-/

namespace Trampoline

variable {mode : Rewriting} {world : World} {source target : Machine} {n : Nat}

/-- Toplevel forms, one by one. -/
inductive TopRel (mode : Rewriting) : List Toplevel -> List Toplevel -> Prop where
  | nil : TopRel mode [] []
  | define {name e e' rest rest'} : ExprRel mode e e' -> TopRel mode rest rest' ->
      TopRel mode (.define name e :: rest) (.define name e' :: rest')
  | exec {e e' rest rest'} : ExprRel mode e e' -> TopRel mode rest rest' ->
      TopRel mode (.exec e :: rest) (.exec e' :: rest')

/-! ## New machines -/

/-- The world of two new machines. -/
def World.start : World := ⟨fun _ _ => False, fun _ _ => False, #[], #[]⟩

/-- The builtins are related to themselves. -/
theorem GlobalsRel.builtins {cells : Pairing} :
    GlobalsRel mode cells Machine.builtins Machine.builtins := by
  have identity : GlobalsRel mode cells [("identity", .func (.identity 0))]
      [("identity", .func (.identity 0))] := by
    refine .cons (fun seen => .func (.identity ?_)) .nil
    exact Bool.eq_false_iff.mpr fun total => seen.2 total rfl
  rw [Machine.builtins]
  induction Native.all with
  | nil => exact identity
  | cons op rest ih => exact .cons (fun _ => .func .native) ih

/-- New machines are related. -/
theorem MachineRel.start (mode : Rewriting) (closedOutput : Bool) :
    MachineRel mode World.start (Machine.startLetting mode.lost closedOutput)
      (Machine.start closedOutput) where
  globals := .builtins
  cells := fun _ _ => False.elim
  paired := fun _ _ _ _ => False.elim
  conts := fun _ _ => False.elim
  lists := rfl
  items := fun _ => .nil
  closures := rfl
  output := rfl
  closedOutput := rfl
  unguarded := rfl
  extents := rfl
  stack := rfl
  lost := rfl
  caught := rfl
  exact := fun _ => ⟨rfl, fun _ _ => ⟨False.elim, fun same => absurd same.2 (Nat.not_lt_zero _)⟩⟩

/-! ## Toplevel forms -/

namespace Agree

/-- Related toplevel expressions evaluate alike. -/
theorem evalToplevel (dressed : mode.dressed = true) {e e' : Expr} (related : ExprRel mode e e')
    (machines : MachineRel mode world source target) :
    Agree mode world ((Chain.evalToplevel e).cut n) ((Chain.evalToplevel e').cut n) source target
      (Gives mode (ValueRel mode)) := by
  have frames : FrameRel mode none world.cells Frame.toplevel Frame.toplevel :=
    ⟨.nil, ⟨rfl, rfl⟩, rfl, fun _ => rfl⟩
  rw [Chain.cut_evalToplevel, Chain.cut_evalToplevel]
  refine Agree.guarded machines (Agree.bodyRun
    ((related.evaluates (levels dressed n).1).agree frames machines) ?_)
  intro later value value' source target holds
  exact ⟨holds.1, holds.2.2⟩

theorem defineToplevel (name : String) {value value' : Value}
    (same : ValueRel mode world.cells value value')
    (machines : MachineRel mode world source target) :
    Agree mode world (.lift (defineToplevel name value)) (.lift (defineToplevel name value')) source
      target (Gives mode Equal) :=
  Agree.ends (World.le_refl world) rfl rfl ⟨rfl, { machines.define name same with }⟩

/-- Rewritten forms agree with their sources. -/
theorem runToplevels (dressed : mode.dressed = true) {top top' : List Toplevel}
    (related : TopRel mode top top') {last last' : Value}
    (before : ValueRel mode world.cells last last')
    (machines : MachineRel mode world source target) :
    Agree mode world ((Chain.runToplevels top last).cut n) ((Chain.runToplevels top' last').cut n)
      source target (Gives mode (ValueRel mode)) := by
  induction related generalizing world last last' source target with
  | nil =>
    rw [Chain.runToplevels_nil, Chain.runToplevels_nil]
    exact Agree.pure ⟨before, machines⟩
  | define same _ ih =>
    rw [Chain.runToplevels_define, Chain.runToplevels_define]
    simp only [Chain.cut_bind, Chain.cut_lift]
    refine Agree.bind (Agree.evalToplevel dressed same machines) ?_
    rintro later value value' source target grown ⟨same, machines⟩
    refine Agree.bind (Agree.defineToplevel _ same machines) ?_
    rintro latest _ _ source target grown' ⟨_, machines⟩
    exact ih (before.mono (World.le_trans grown grown').cells) machines
  | exec same _ ih =>
    rw [Chain.runToplevels_exec, Chain.runToplevels_exec]
    simp only [Chain.cut_bind]
    refine Agree.bind (Agree.evalToplevel dressed same machines) ?_
    rintro later value value' source target _ ⟨same, machines⟩
    refine Agree.bind (Agree.force same machines) ?_
    rintro latest value value' source target _ ⟨same, machines⟩
    exact ih same machines

end Agree

/-! ## Programs -/

/-- Outcomes of a program and its rewritten form. -/
def EndRel (mode : Rewriting) : Outcome Machine Value -> Outcome Machine Value -> Prop :=
  OutcomeRel mode World.start (Gives mode (ValueRel mode))

/-- A program whose handlers let lost errors pass ends when its rewritten form does. -/
structure Simulates (mode : Rewriting) (program program' : Program) (closedOutput : Bool) :
    Prop where
  forth : ∀ outcome, program.EndsOn (Machine.startLetting mode.lost closedOutput) outcome ->
    IsLost mode outcome ∨
      ∃ other, program'.EndsOn (Machine.start closedOutput) other ∧ EndRel mode outcome other
  back : ∀ other, program'.EndsOn (Machine.start closedOutput) other ->
    ∃ outcome, program.EndsOn (Machine.startLetting mode.lost closedOutput) outcome ∧
      (IsLost mode outcome ∨ EndRel mode outcome other)

/-- A program is simulated by one with related toplevel forms. -/
theorem TopRel.simulates (dressed : mode.dressed = true) {program program' : Program}
    (related : TopRel mode program.top program'.top) (closedOutput : Bool) :
    Simulates mode program program' closedOutput where
  forth := by
    rintro outcome ⟨fuel, ends⟩
    refine ((Agree.runToplevels dressed related .nil (.start mode closedOutput)).forth outcome
      ends).imp_right ?_
    rintro ⟨other, ends', holds⟩
    exact ⟨other, (program'.endsOn_iff _ _).mpr ends', holds⟩
  back := by
    rintro other ⟨fuel, ends'⟩
    obtain ⟨outcome, ends, holds⟩ :=
      (Agree.runToplevels dressed related .nil (.start mode closedOutput)).back other ends'
    exact ⟨outcome, (program.endsOn_iff _ _).mpr ends, holds⟩

/-- Related ends are the same but for the callables in them. -/
theorem EndRel.sameEnd {outcome other : Outcome Machine Value}
    (related : EndRel mode outcome other) : SameEnd outcome other := by
  obtain ⟨result, machine⟩ := outcome
  obtain ⟨result', machine'⟩ := other
  cases result with
  | ok value =>
    cases result' with
    | ok value' =>
      obtain ⟨later, _, same, machines⟩ := related
      exact ⟨machines.repr_eq same, machines.output⟩
    | error _ => exact related.elim
  | error error =>
    cases result' with
    | ok _ => exact related.elim
    | error error' =>
      obtain ⟨rfl, later, _, machines⟩ := related
      exact ⟨rfl, machines.output⟩

/-- A program that does not raise the lost errors ends with none of them. -/
theorem Program.Raises.of_lost {program : Program} {closedOutput : Bool}
    {outcome : Outcome Machine Value}
    (ends : program.EndsOn (Machine.startLetting mode.lost closedOutput) outcome)
    (lost : IsLost mode outcome) : program.Raises mode.lost closedOutput := by
  obtain ⟨_ | error, last⟩ := outcome
  · exact ⟨_, _, lost.1, ends⟩
  · exact lost.elim

end Trampoline
