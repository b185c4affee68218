import Trampoline.Proofs.Evaluation.Chain
import Trampoline.Proofs.Simulation.World

/-!
# Agreement of two computations

Two computations agree in two states if each ends when the other does, with the same error or with
results that belong together. To make this provable by induction on fuel, each direction starts
from an answer that a limited amount of fuel gives and finds one of the full computation. An error
of the first computation that is lost to the comparison ends all claims.
-/

namespace Trampoline

/-- States with a machine in them. -/
class HasMachine (σ : Type) where
  machine : σ -> Machine

instance : HasMachine Machine := ⟨id⟩

instance : HasMachine Activation := ⟨Activation.machine⟩

/-- A condition on two results and the states they come with. -/
abbrev Post (σ τ α β : Type) := World -> α -> β -> σ -> τ -> Prop

section Definitions

variable {σ τ α β : Type} [HasMachine σ] [HasMachine τ] (mode : Rewriting)

/-- The outcome is an error after which nothing is claimed, and which no handler will catch. -/
def IsLost : Outcome σ α -> Prop
  | (.error error, state) =>
    mode.lost error = true ∧ (HasMachine.machine state).passed = mode.lost
  | (.ok _, _) => False

/-- Outcomes that belong together: results as asked, or the same error. -/
def OutcomeRel (world : World) (post : Post σ τ α β) : Outcome σ α -> Outcome τ β -> Prop
  | (.ok value, state), (.ok value', state') =>
    ∃ later, world ≤ later ∧ post later value value' state state'
  | (.error error, state), (.error error', state') =>
    error' = error ∧ ∃ later, world ≤ later ∧
      MachineRel mode later (HasMachine.machine state) (HasMachine.machine state')
  | _, _ => False

/-- Each computation ends when the other does, and in the same way. -/
structure Agree (world : World) (first : Bounded σ α) (second : Bounded τ β) (state : σ)
    (state' : τ) (post : Post σ τ α β) : Prop where
  forth : ∀ outcome, first.limited state = some outcome -> IsLost mode outcome ∨
    ∃ other, second.full state' = some other ∧ OutcomeRel mode world post outcome other
  back : ∀ other, second.limited state' = some other -> ∃ outcome,
    first.full state = some outcome ∧
      (IsLost mode outcome ∨ OutcomeRel mode world post outcome other)

end Definitions

namespace OutcomeRel

variable {σ τ α β : Type} [HasMachine σ] [HasMachine τ] {mode : Rewriting}
  {world later : World} {post weaker : Post σ τ α β} {outcome : Outcome σ α} {other : Outcome τ β}

/-- What holds of a later world holds of an earlier one, and may be weakened. -/
theorem weaken (related : OutcomeRel mode later post outcome other) (after : world ≤ later)
    (implies : ∀ latest value value' state state', later ≤ latest ->
      post latest value value' state state' -> weaker latest value value' state state') :
    OutcomeRel mode world weaker outcome other := by
  obtain ⟨result, state⟩ := outcome
  obtain ⟨result', state'⟩ := other
  cases result with
  | ok value =>
    cases result' with
    | ok value' =>
      obtain ⟨latest, order, holds⟩ := related
      exact ⟨latest, World.le_trans after order, implies _ _ _ _ _ order holds⟩
    | error _ => exact related.elim
  | error error =>
    cases result' with
    | ok _ => exact related.elim
    | error error' =>
      obtain ⟨same, latest, order, machines⟩ := related
      exact ⟨same, latest, World.le_trans after order, machines⟩

end OutcomeRel

namespace Agree

variable {σ τ υ φ α β γ δ : Type} [HasMachine σ] [HasMachine τ] {mode : Rewriting}
  {world later : World} {first first' : Bounded σ α} {second second' : Bounded τ β}
  {state : σ} {state' : τ} {post weaker : Post σ τ α β}

/-- Computations below agreeing ones agree. -/
protected theorem mono (agree : Agree mode world first' second' state state' post)
    (lower : first ≤ first')
    (lower' : second ≤ second') : Agree mode world first second state state' post where
  forth := fun outcome ended => lower'.full ▸ agree.forth outcome (lower.limited _ _ ended)
  back := fun other ended => lower.full ▸ agree.back other (lower'.limited _ _ ended)

/-- Agreement in a later world, with a stronger condition. -/
theorem weaken (agree : Agree mode later first second state state' post) (after : world ≤ later)
    (implies : ∀ latest value value' state state', later ≤ latest ->
      post latest value value' state state' -> weaker latest value value' state state') :
    Agree mode world first second state state' weaker where
  forth := fun outcome ended => (agree.forth outcome ended).imp_right
    fun ⟨other, ends, related⟩ => ⟨other, ends, related.weaken after implies⟩
  back := fun other ended =>
    let ⟨outcome, ends, related⟩ := agree.back other ended
    ⟨outcome, ends, related.imp_right fun related => related.weaken after implies⟩

theorem earlier (agree : Agree mode later first second state state' post) (after : world ≤ later) :
    Agree mode world first second state state' post :=
  agree.weaken after fun _ _ _ _ _ _ holds => holds

/-- Without fuel there is nothing to show. -/
protected theorem zero (stuck : first.limited state = none)
    (stuck' : second.limited state' = none) :
    Agree mode world first second state state' post where
  forth := by
    intro outcome ended
    rw [stuck] at ended
    cases ended
  back := by
    intro other ended
    rw [stuck'] at ended
    cases ended

variable {run' : Exec τ β} {value' : β} {last : σ} {last' middle : τ} {error : EvalError}
  {mid : Post σ τ α β} {value : γ} {run : Exec τ γ} {next : γ -> Bounded τ β}

/-- Computations that take no fuel and end with results. -/
theorem ends {run : Exec σ α} {value : α}
    (order : world ≤ later) (ends : run state = some (.ok value, last))
    (ends' : run' state' = some (.ok value', last'))
    (holds : post later value value' last last') :
    Agree mode world (.lift run) (.lift run') state state' post where
  forth := by
    intro outcome ended
    cases ends.symm.trans ended
    exact .inr ⟨_, ends', later, order, holds⟩
  back := by
    intro other ended
    cases ends'.symm.trans ended
    exact ⟨_, ends, .inr ⟨later, order, holds⟩⟩

protected theorem pure {value : α} (holds : post world value value' state state') :
    Agree mode world (pure value : Bounded σ α) (pure value' : Bounded τ β) state state' post :=
  ends (World.le_refl world) rfl rfl holds

/-- Computations that take no fuel and end with the same error. -/
theorem fails {run : Exec σ α} (ends : run state = some (.error error, last))
    (ends' : run' state' = some (.error error, last'))
    (machines : MachineRel mode world (HasMachine.machine last) (HasMachine.machine last')) :
    Agree mode world (.lift run) (.lift run') state state' post where
  forth := by
    intro outcome ended
    cases ends.symm.trans ended
    exact .inr ⟨_, ends', rfl, world, World.le_refl world, machines⟩
  back := by
    intro other ended
    cases ends'.symm.trans ended
    exact ⟨_, ends, .inr ⟨rfl, world, World.le_refl world, machines⟩⟩

protected theorem fail (error : EvalError)
    (machines : MachineRel mode world (HasMachine.machine state) (HasMachine.machine state')) :
    Agree mode world (.lift (Exec.fail error) : Bounded σ α) (.lift (Exec.fail error) : Bounded τ β)
      state state' post :=
  fails rfl rfl machines

/-- A lost error agrees with everything. -/
theorem lost (lost : mode.lost error = true)
    (machines : MachineRel mode world (HasMachine.machine state) (HasMachine.machine state'))
    (fails : first.limited state = some (.error error, state))
    (fails' : first.full state = some (.error error, state)) :
    Agree mode world first second state state' post where
  forth := by
    intro outcome ended
    rw [fails] at ended
    cases ended
    exact .inl ⟨lost, machines.lost⟩
  back := fun _ _ => ⟨_, fails', .inl ⟨lost, machines.lost⟩⟩

/-- Go on after computations that agree. -/
protected theorem bind {next : α -> Bounded σ γ} {next' : β -> Bounded τ δ}
    {post : Post σ τ γ δ} (agree : Agree mode world first second state state' mid)
    (after : ∀ later value value' state state', world ≤ later ->
      mid later value value' state state' ->
      Agree mode later (next value) (next' value') state state' post) :
    Agree mode world (first >>= next) (second >>= next') state state' post where
  forth := by
    intro outcome ended
    rcases Exec.bind_eq_some.mp ended with ⟨value, middle, ends, rest⟩ | ⟨error, last, ends, rfl⟩
    · rcases agree.forth _ ends with lost | ⟨⟨_ | value', middle'⟩, ends', related⟩
      · exact lost.elim
      · exact related.elim
      · obtain ⟨later, order, holds⟩ := related
        refine ((after later value value' middle middle' order holds).forth _ rest).imp_right ?_
        rintro ⟨other, rest', related⟩
        exact ⟨other, Exec.bind_eq_some.mpr (.inl ⟨_, _, ends', rest'⟩),
          related.weaken order fun _ _ _ _ _ _ holds => holds⟩
    · refine (agree.forth _ ends).imp id ?_
      rintro ⟨⟨error' | _, last'⟩, ends', related⟩
      · exact ⟨_, Exec.bind_eq_some.mpr (.inr ⟨_, _, ends', rfl⟩), related⟩
      · exact related.elim
  back := by
    intro other ended
    rcases Exec.bind_eq_some.mp ended with
      ⟨value', middle', ends', rest'⟩ | ⟨error', last', ends', rfl⟩
    · obtain ⟨⟨error | value, middle⟩, ends, lost | related⟩ := agree.back _ ends'
      · exact ⟨_, Exec.bind_eq_some.mpr (.inr ⟨_, _, ends, rfl⟩), .inl lost⟩
      · exact related.elim
      · exact lost.elim
      · obtain ⟨later, order, holds⟩ := related
        obtain ⟨outcome, rest, related⟩ :=
          (after later value value' middle middle' order holds).back _ rest'
        exact ⟨outcome, Exec.bind_eq_some.mpr (.inl ⟨_, _, ends, rest⟩),
          related.imp_right fun related => related.weaken order fun _ _ _ _ _ _ holds => holds⟩
    · obtain ⟨⟨error | value, middle⟩, ends, lost | related⟩ := agree.back _ ends'
      · exact ⟨_, Exec.bind_eq_some.mpr (.inr ⟨_, _, ends, rfl⟩), .inl lost⟩
      · exact ⟨_, Exec.bind_eq_some.mpr (.inr ⟨_, _, ends, rfl⟩), .inr related⟩
      · exact lost.elim
      · exact related.elim

/-- Agreement sees only what computations do in their states. -/
protected theorem congr {start : σ} {start' : τ}
    (agree : Agree mode world first' second' start start' post)
    (limited : first.limited state = first'.limited start)
    (full : first.full state = first'.full start)
    (limited' : second.limited state' = second'.limited start')
    (full' : second.full state' = second'.full start') :
    Agree mode world first second state state' post where
  forth := fun outcome ended => full' ▸ agree.forth outcome (limited ▸ ended)
  back := fun other ended => full ▸ agree.back other (limited' ▸ ended)

/-- A step of the first side that takes no fuel. -/
theorem step_left {run : Exec σ γ} {middle : σ} {next : γ -> Bounded σ α}
    (ends : run state = some (.ok value, middle))
    (agree : Agree mode world (next value) second middle state' post) :
    Agree mode world (.lift run >>= next) second state state' post :=
  agree.congr (Exec.bind_apply ends _) (Exec.bind_apply ends _) rfl rfl

/-- A step of the second side that takes no fuel. -/
theorem step_right (ends : run state' = some (.ok value, middle))
    (agree : Agree mode world first (next value) state middle post) :
    Agree mode world first (.lift run >>= next) state state' post :=
  agree.congr rfl rfl (Exec.bind_apply ends _) (Exec.bind_apply ends _)

/-- What agrees with a step of the second side agrees with what comes after it. -/
theorem of_step_right (agree : Agree mode world first (.lift run >>= next) state state' post)
    (ends : run state' = some (.ok value, middle)) :
    Agree mode world first (next value) state middle post :=
  agree.congr rfl rfl (Exec.bind_apply ends fun value => (next value).limited).symm
    (Exec.bind_apply ends fun value => (next value).full).symm

/-- Go on with outcomes that belong together. -/
theorem settle {next : Except EvalError α -> Bounded σ γ}
    {next' : Except EvalError β -> Bounded τ δ} {post : Post σ τ γ δ}
    (agree : Agree mode world first second state state' mid)
    (stays : ∀ error state, mode.lost error = true ->
      (HasMachine.machine state).passed = mode.lost ->
      (next (.error error)).limited state = some (.error error, state) ∧
        (next (.error error)).full state = some (.error error, state))
    (afterValue : ∀ later value value' state state', world ≤ later ->
      mid later value value' state state' ->
      Agree mode later (next (.ok value)) (next' (.ok value')) state state' post)
    (afterError : ∀ later error state state', world ≤ later ->
      MachineRel mode later (HasMachine.machine state) (HasMachine.machine state') ->
      Agree mode later (next (.error error)) (next' (.error error)) state state' post) :
    Agree mode world (first.settle next) (second.settle next') state state' post where
  forth := by
    intro outcome ended
    obtain ⟨result, middle, ends, rest⟩ := Exec.settle_eq_some.mp ended
    rcases agree.forth _ ends with lost | ⟨⟨result', middle'⟩, ends', related⟩
    · cases result with
      | ok _ => exact lost.elim
      | error error =>
        rw [(stays error middle lost.1 lost.2).1] at rest
        cases rest
        exact .inl lost
    · suffices goal : IsLost mode outcome ∨ ∃ other, (next' result').full middle' = some other ∧
          OutcomeRel mode world post outcome other by
        refine goal.imp_right ?_
        rintro ⟨other, rest', related⟩
        exact ⟨other, Exec.settle_eq_some.mpr ⟨_, _, ends', rest'⟩, related⟩
      cases result with
      | ok value =>
        cases result' with
        | error _ => exact related.elim
        | ok value' =>
          obtain ⟨later, order, holds⟩ := related
          exact ((afterValue later value value' _ _ order holds).earlier order).forth _ rest
      | error error =>
        cases result' with
        | ok _ => exact related.elim
        | error error' =>
          obtain ⟨rfl, later, order, machines⟩ := related
          exact ((afterError later error' _ _ order machines).earlier order).forth _ rest
  back := by
    intro other ended
    obtain ⟨result', middle', ends', rest'⟩ := Exec.settle_eq_some.mp ended
    obtain ⟨⟨result, middle⟩, ends, lost | related⟩ := agree.back _ ends'
    · cases result with
      | ok _ => exact lost.elim
      | error error =>
        exact ⟨(.error error, middle), Exec.settle_eq_some.mpr ⟨_, _, ends,
          (stays error middle lost.1 lost.2).2⟩, .inl lost⟩
    · suffices goal : ∃ outcome, (next result).full middle = some outcome ∧
          (IsLost mode outcome ∨ OutcomeRel mode world post outcome other) by
        obtain ⟨outcome, rest, related⟩ := goal
        exact ⟨outcome, Exec.settle_eq_some.mpr ⟨_, _, ends, rest⟩, related⟩
      cases result with
      | ok value =>
        cases result' with
        | error _ => exact related.elim
        | ok value' =>
          obtain ⟨later, order, holds⟩ := related
          exact ((afterValue later value value' _ _ order holds).earlier order).back _ rest'
      | error error =>
        cases result' with
        | ok _ => exact related.elim
        | error error' =>
          obtain ⟨rfl, later, order, machines⟩ := related
          exact ((afterError later error' _ _ order machines).earlier order).back _ rest'

end Agree

end Trampoline
