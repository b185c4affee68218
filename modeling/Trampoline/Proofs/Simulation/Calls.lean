import Trampoline.Proofs.Simulation.Natives
import Trampoline.Proofs.Simulation.Expressions

/-!
# Natives and calls

Natives agree on related arguments, if the calls do that some of them make. Forcing finds no
promises here, but it goes through what values hold and replaces the items of lists.
-/

namespace Trampoline

variable {mode : Rewriting} {n : Nat} {world : World} {source target : Machine}

/-- Forcing values and all that they hold agrees with this much fuel. -/
structure ForcesDeep (mode : Rewriting) (n : Nat) : Prop where
  value : ∀ {world : World} {value value' : Value} {source target : Machine},
    ValueRel mode world.cells value value' -> MachineRel mode world source target ->
    Agree mode world ((Chain.forceDeep value).cut n) ((Chain.forceDeep value').cut n) source target
      (Gives mode (ValueRel mode))
  values : ∀ {world : World} {values values' : List Value} {source target : Machine},
    ValuesRel mode world.cells values values' -> MachineRel mode world source target ->
    Agree mode world ((Chain.forceAll values).cut n) ((Chain.forceAll values').cut n) source target
      (Gives mode (ValuesRel mode))

namespace Agree

protected theorem setItems (ref : Nat) {items items' : List Value}
    (same : ValuesRel mode world.cells items items')
    (machines : MachineRel mode world source target) :
    Agree mode world (.lift (Run.setItems ref items)) (.lift (Run.setItems ref items')) source
      target (Gives mode Equal) :=
  Agree.ends (World.le_refl world) rfl rfl ⟨rfl, machines.setItems ref same⟩

/-- Nothing is printed once the output is closed. -/
protected theorem write (text : String) (machines : MachineRel mode world source target) :
    Agree mode world (.lift (Run.write text)) (.lift (Run.write text)) source target
      (Gives mode Equal) := by
  by_cases closed : source.closedOutput = true
  · have closed' : target.closedOutput = true := machines.closedOutput.trans closed
    have fails : Run.write text source = some (.error (.output "closed"), source) := by
      simp only [Run.write, closed, if_true]
    have fails' : Run.write text target = some (.error (.output "closed"), target) := by
      simp only [Run.write, closed', if_true]
    exact Agree.fails fails fails' machines
  · have closed' : ¬ target.closedOutput = true := machines.closedOutput ▸ closed
    have ends : Run.write text source =
        some (.ok (), { source with output := source.output ++ text }) := by
      simp only [Run.write, if_neg closed]
    have ends' : Run.write text target =
        some (.ok (), { target with output := target.output ++ text }) := by
      simp only [Run.write, if_neg closed']
    exact Agree.ends (World.le_refl world) ends ends' ⟨rfl, machines.write text⟩

end Agree

theorem ForcesDeep.zero : ForcesDeep mode 0 :=
  ⟨fun _ _ => Agree.zero rfl rfl, fun _ _ => Agree.zero rfl rfl⟩

theorem ForcesDeep.succ (forces : ForcesDeep mode n) : ForcesDeep mode (n + 1) where
  value := by
    intro world value value' source target same machines
    rw [Chain.forceDeep_eq, Chain.forceDeep_eq, Chain.cut_bind, Chain.cut_bind]
    refine Agree.bind (Agree.force same machines) ?_
    rintro later value value' source target _ ⟨same, machines⟩
    cases same with
    | @list ref =>
      simp only [Chain.cut_bind, Chain.cut_lift, Chain.cut_pure]
      refine Agree.bind (Agree.items ref machines) ?_
      rintro later items items' source target _ ⟨same, machines⟩
      refine Agree.bind (forces.values same machines) ?_
      rintro later items items' source target _ ⟨same, machines⟩
      refine Agree.bind (Agree.setItems ref same machines) ?_
      rintro later _ _ source target _ ⟨_, machines⟩
      exact Agree.pure ⟨.list, machines⟩
    | tuple same =>
      simp only [Chain.cut_bind, Chain.cut_pure]
      refine Agree.bind (forces.values same machines) ?_
      rintro later items items' source target _ ⟨same, machines⟩
      exact Agree.pure ⟨.tuple same, machines⟩
    | func same => simpa only [Chain.cut_pure] using Agree.pure ⟨.func same, machines⟩
    | nil => simpa only [Chain.cut_pure] using Agree.pure ⟨.nil, machines⟩
    | bool => simpa only [Chain.cut_pure] using Agree.pure ⟨.bool, machines⟩
    | int => simpa only [Chain.cut_pure] using Agree.pure ⟨.int, machines⟩
    | str => simpa only [Chain.cut_pure] using Agree.pure ⟨.str, machines⟩
  values := by
    intro world values values' source target same machines
    cases same with
    | nil =>
      rw [Chain.forceAll_nil]
      exact Agree.pure ⟨.nil, machines⟩
    | cons first rest =>
      rw [Chain.forceAll_cons, Chain.forceAll_cons]
      simp only [Chain.cut_bind, Chain.cut_pure]
      refine Agree.bind (forces.value first machines) ?_
      rintro later value value' source target grown ⟨first, machines⟩
      refine Agree.bind (forces.values (rest.mono grown.cells) machines) ?_
      rintro later values values' source target grown ⟨rest, machines⟩
      exact Agree.pure ⟨.cons (first.mono grown.cells) rest, machines⟩

/-- Deep forces agree, by induction on the fuel. -/
theorem forcesDeep (mode : Rewriting) (n : Nat) : ForcesDeep mode n := by
  induction n with
  | zero => exact .zero
  | succ n ih => exact ih.succ

namespace Agree

/-- Values are shown alike. -/
theorem shownDeep {values values' : List Value} (same : ValuesRel mode world.cells values values')
    (machines : MachineRel mode world source target) :
    Agree mode world ((Chain.shownDeep values).cut n) ((Chain.shownDeep values').cut n) source
      target (Gives mode Equal) := by
  induction values generalizing values' world source target with
  | nil =>
    cases same
    exact Agree.mono (Agree.pure ⟨rfl, machines⟩) (Chain.cut_le_of_eq (Chain.shownDeep_nil n))
      (Chain.cut_le_of_eq (Chain.shownDeep_nil n))
  | cons value rest ih =>
    cases same with
    | @cons _ value' _ rest' first others =>
      refine Agree.mono ?_ (Chain.cut_le_of_eq (Chain.shownDeep_cons value rest n))
        (Chain.cut_le_of_eq (Chain.shownDeep_cons value' rest' n))
      simp only [Chain.cut_bind, Chain.cut_lift, Chain.cut_pure]
      refine Agree.bind ((forcesDeep mode n).value first machines) ?_
      rintro later value value' source target grown ⟨first, machines⟩
      refine Agree.step_left rfl (Agree.step_right rfl ?_)
      refine Agree.bind (ih (others.mono grown.cells) machines) ?_
      rintro latest shown _ source' target' _ ⟨rfl, machines'⟩
      simp only [machines.display_eq first]
      exact Agree.pure ⟨rfl, machines'⟩

variable {callable callable' : Callable} {args args' : List Value} {kwargs kwargs' : Kwargs}

/-- Calling a callable of the rewritten program agrees with applying its source: no jump is left. -/
theorem call_right (applies : Applies mode n)
    (callees : CallableRel mode world.cells callable callable')
    (values : ValuesRel mode world.cells args args')
    (named : KwargsRel mode world.cells kwargs kwargs')
    (machines : MachineRel mode world source target) :
    Agree mode world ((Chain.apply callable args kwargs).cut n)
      ((Chain.call callable' args' kwargs').cut n) source target (Gives mode (ValueRel mode)) := by
  refine Agree.mono ?_ (Bounded.le_refl _)
    (Chain.cut_le_of_eq (Chain.call_eq callable' args' kwargs' n))
  rw [Chain.cut_bind, ← bind_pure ((Chain.apply callable args kwargs).cut n)]
  refine Agree.bind (applies.agree callees values named machines) ?_
  rintro later value value' source target _ ⟨same, machines⟩
  have ends : Agree mode later (pure value) (pure value') source target
      (Gives mode (ValueRel mode)) := Agree.pure ⟨same, machines⟩
  cases same <;> simpa only [Chain.cut_pure] using ends

/-- Calls agree as applications do. -/
protected theorem call (applies : Applies mode n)
    (callees : CallableRel mode world.cells callable callable')
    (values : ValuesRel mode world.cells args args')
    (named : KwargsRel mode world.cells kwargs kwargs')
    (machines : MachineRel mode world source target) :
    Agree mode world ((Chain.call callable args kwargs).cut n)
      ((Chain.call callable' args' kwargs').cut n) source target (Gives mode (ValueRel mode)) := by
  refine Agree.mono ?_ (Chain.cut_le_of_eq (Chain.call_eq callable args kwargs n))
    (Bounded.le_of_eq (bind_pure ((Chain.call callable' args' kwargs').cut n)).symm)
  rw [Chain.cut_bind]
  refine Agree.bind (Agree.call_right applies callees values named machines) ?_
  rintro later value value' source target _ ⟨same, machines⟩
  have ends : Agree mode later (pure value) (pure value') source target
      (Gives mode (ValueRel mode)) := Agree.pure ⟨same, machines⟩
  cases same <;> simpa only [Chain.cut_pure] using ends

/-- A handler gets the same errors, but for those that the machine of the source program lets
pass, after which nothing is claimed. -/
theorem attempt (applies : Applies mode n) (same : ValuesRel mode world.cells args args')
    (machines : MachineRel mode world source target) :
    Agree mode world ((Chain.applyNative .attempt args).cut n)
      ((Chain.applyNative .attempt args').cut n) source target (Gives mode (ValueRel mode)) := by
  obtain ⟨left, right⟩ := ValueRel.two same
  refine Agree.mono ?_ (Chain.cut_le_of_eq (Chain.applyNative_attempt args n))
    (Chain.cut_le_of_eq (Chain.applyNative_attempt args' n))
  simp only [Chain.cut_bind, Chain.cut_lift, Chain.cut_settle, Chain.cut_guarded]
  refine Agree.bind (Agree.callable left machines) ?_
  rintro later thunk thunk' source target grown ⟨thunks, machines⟩
  refine Agree.bind (Agree.callable (right.mono grown.cells) machines) ?_
  rintro later handler handler' source target grown ⟨handlers, machines⟩
  refine Agree.settle (Agree.guarded machines
    (Agree.call applies (thunks.mono grown.cells) .nil .nil machines)) ?_ ?_ ?_
  · intro error state lost passed
    have passes : (error.isEscape || state.passed error) = true := by
      rw [show state.passed = mode.lost from passed, lost, Bool.or_true]
    simp only [Chain.cut_bind, Chain.cut_lift, Chain.cut_ite]
    constructor <;> simp only [Bounded.lift, bind, Exec.bind, Exec.read, passes, if_true] <;> rfl
  · rintro latest value value' source target _ ⟨same, machines⟩
    simp only [Chain.cut_pure]
    exact Agree.pure ⟨same, machines⟩
  · intro latest error source target grown' machines
    simp only [Chain.cut_bind, Chain.cut_lift, Chain.cut_ite]
    refine Agree.step_left rfl (Agree.step_right rfl ?_)
    have lets : source.passed = mode.lost := machines.lost
    have lets' : target.passed = fun _ => false := machines.caught
    simp only [lets, lets', Bool.or_false]
    by_cases escapes : error.isEscape = true
    · simp only [escapes, Bool.true_or, if_true]
      exact Agree.fail error machines
    · by_cases lost : mode.lost error = true
      · refine Agree.lost lost machines ?_ ?_ <;> simp only [lost, Bool.or_true, if_true] <;> rfl
      · simp only [escapes, lost, Bool.or_false, Bool.false_eq_true, if_false]
        refine Agree.step_left rfl (Agree.step_right rfl ?_)
        have order := World.le_trans grown grown'
        refine Agree.call applies (handlers.mono grown'.cells) (.cons .str .nil) .nil ?_
        exact { machines with }

/-- Natives agree on related arguments. -/
protected theorem applyNative (applies : Applies mode n) (op : Native)
    (same : ValuesRel mode world.cells args args')
    (machines : MachineRel mode world source target) :
    Agree mode world ((Chain.applyNative op args).cut n) ((Chain.applyNative op args').cut n)
      source target (Gives mode (ValueRel mode)) := by
  cases computes : op.compute? args with
  | some run =>
    obtain ⟨run', computes', agree⟩ := Agree.compute op same machines computes
    exact agree.mono (Chain.cut_le_of_eq (Chain.applyNative_compute op args run computes n))
      (Chain.cut_le_of_eq (Chain.applyNative_compute op args' run' computes' n))
  | none =>
    cases op with
    | print =>
      refine Agree.mono ?_ (Chain.cut_le_of_eq (Chain.applyNative_print args n))
        (Chain.cut_le_of_eq (Chain.applyNative_print args' n))
      simp only [Chain.cut_bind, Chain.cut_lift, Chain.cut_pure]
      refine Agree.bind (Agree.shownDeep same machines) ?_
      rintro later parts _ source target _ ⟨rfl, machines⟩
      refine Agree.bind (Agree.write _ machines) ?_
      rintro later _ _ source target _ ⟨_, machines⟩
      exact Agree.pure ⟨.nil, machines⟩
    | str =>
      refine Agree.mono ?_ (Chain.cut_le_of_eq (Chain.applyNative_str args n))
        (Chain.cut_le_of_eq (Chain.applyNative_str args' n))
      simp only [Chain.cut_bind, Chain.cut_pure]
      refine Agree.bind (Agree.shownDeep same machines) ?_
      rintro later parts _ source target _ ⟨rfl, machines⟩
      exact Agree.pure ⟨.str, machines⟩
    | raise =>
      refine Agree.mono ?_ (Chain.cut_le_of_eq (Chain.applyNative_raise args n))
        (Chain.cut_le_of_eq (Chain.applyNative_raise args' n))
      simp only [Chain.cut_bind, Chain.cut_lift]
      refine Agree.bind (Agree.shownDeep same machines) ?_
      rintro later parts _ source target _ ⟨rfl, machines⟩
      exact Agree.fail _ machines
    | assertEq =>
      obtain ⟨left, right⟩ := ValueRel.two same
      refine Agree.mono ?_ (Chain.cut_le_of_eq (Chain.applyNative_assertEq args n))
        (Chain.cut_le_of_eq (Chain.applyNative_assertEq args' n))
      simp only [Chain.cut_bind, Chain.cut_lift]
      refine Agree.bind ((forcesDeep mode n).value left machines) ?_
      rintro later first first' source target grown ⟨left, machines⟩
      refine Agree.bind ((forcesDeep mode n).value (right.mono grown.cells) machines) ?_
      rintro later second second' source target grown ⟨right, machines⟩
      have left := left.mono grown.cells
      simp only [Bounded.lift_bind]
      refine Agree.step_left rfl (Agree.step_right rfl ?_)
      simp only [machines.equal_eq left right]
      by_cases equal : source.equal first second = true
      · simp only [equal, if_true]
        exact Agree.pure ⟨.nil, machines⟩
      · simp only [equal, Bool.false_eq_true, if_false, Bounded.lift_bind]
        refine Agree.step_left rfl (Agree.step_right rfl ?_)
        simp only [machines.repr_eq left, machines.repr_eq right]
        exact Agree.fail _ machines
    | force =>
      exact Agree.mono (Agree.force (.one same) machines)
        (Chain.cut_le_of_eq (Chain.applyNative_force args n))
        (Chain.cut_le_of_eq (Chain.applyNative_force args' n))
    | forceDeep =>
      exact Agree.mono ((forcesDeep mode n).value (.one same) machines)
        (Chain.cut_le_of_eq (Chain.applyNative_forceDeep args n))
        (Chain.cut_le_of_eq (Chain.applyNative_forceDeep args' n))
    | attempt => exact Agree.attempt applies same machines
    | _ => cases computes

end Agree

end Trampoline
