import Trampoline.Proofs.Simulation.Agreement

/-!
# Agreement of bodies, blocks and guarded operations

How agreement passes through what changes states on the way in and outcomes on the way out. Two
running bodies have related frames; the second frame may know a continuation besides.
-/

namespace Trampoline

/-- The frames of a body and of its rewritten form. The second has its continuation in `cc`. -/
structure FrameRel (mode : Rewriting) (cc : Option Nat) (cells : Pairing)
    (source target : Frame) : Prop where
  env : EnvRel mode cells source.env target.env
  strict : source.isLazy = false ∧ target.isLazy = false
  /-- A body that captures ends with the capture. -/
  extent : target.extent = none
  cc : mode.passing = true -> target.env.lookup continuationParam = cc

/-- Related results, and machines that belong together. -/
def Gives {α β : Type} (mode : Rewriting) (rel : Pairing -> α -> β -> Prop) :
    Post Machine Machine α β :=
  fun world value value' source target =>
    rel world.cells value value' ∧ MachineRel mode world source target

/-- Related results, and activations that belong together. -/
def Yields {α β : Type} (mode : Rewriting) (cc : Option Nat) (rel : Pairing -> α -> β -> Prop) :
    Post Activation Activation α β :=
  fun world value value' source target =>
    rel world.cells value value' ∧ FrameRel mode cc world.cells source.frame target.frame ∧
      MachineRel mode world source.machine target.machine

/-- Results that are equal. -/
def Equal {α : Type} : Pairing -> α -> α -> Prop := fun _ value value' => value' = value

variable {mode : Rewriting} {cc : Option Nat} {world later : World}

theorem FrameRel.mono {cells more : Pairing} (grown : cells.Within more) {source target : Frame}
    (related : FrameRel mode cc cells source target) : FrameRel mode cc more source target :=
  { related with env := related.env.mono grown }

namespace Agree

section Around

variable {σ τ υ φ α β γ δ : Type}

/-- A computation goes around nothing. -/
theorem around_nothing (run : Bounded σ α) :
    run = ⟨Exec.around id (fun _ outcome => outcome) run.limited,
      Exec.around id (fun _ outcome => outcome) run.full⟩ := by
  refine Bounded.ext (funext fun state => ?_) (funext fun state => ?_)
  · exact (Option.map_id' (x := run.limited state)).symm
  · exact (Option.map_id' (x := run.full state)).symm

variable [HasMachine σ] [HasMachine τ] [HasMachine υ] [HasMachine φ]

/-- Agreement passes through changes of states and outcomes that keep what belongs together. -/
theorem around {run : Bounded σ α} {run' : Bounded τ β} {changed : Bounded υ γ}
    {changed' : Bounded φ δ} {enter : υ -> σ} {leave : υ -> Outcome σ α -> Outcome υ γ}
    {enter' : φ -> τ} {leave' : φ -> Outcome τ β -> Outcome φ δ} {mid : Post σ τ α β}
    {post : Post υ φ γ δ} {state : υ} {state' : φ}
    (shape : changed = ⟨Exec.around enter leave run.limited, Exec.around enter leave run.full⟩)
    (shape' : changed' =
      ⟨Exec.around enter' leave' run'.limited, Exec.around enter' leave' run'.full⟩)
    (agree : Agree mode world run run' (enter state) (enter' state') mid)
    (lost : ∀ outcome, IsLost mode outcome -> IsLost mode (leave state outcome))
    (related : ∀ outcome other, OutcomeRel mode world mid outcome other ->
      OutcomeRel mode world post (leave state outcome) (leave' state' other)) :
    Agree mode world changed changed' state state' post := by
  subst shape shape'
  constructor
  · intro outcome ended
    obtain ⟨inner, ends, rfl⟩ := Option.map_eq_some_iff.mp ended
    refine (agree.forth _ ends).imp (lost _) ?_
    rintro ⟨other, ends', holds⟩
    exact ⟨_, Option.map_eq_some_iff.mpr ⟨_, ends', rfl⟩, related _ _ holds⟩
  · intro other ended
    obtain ⟨inner', ends', rfl⟩ := Option.map_eq_some_iff.mp ended
    obtain ⟨inner, ends, holds⟩ := agree.back _ ends'
    exact ⟨_, Option.map_eq_some_iff.mpr ⟨_, ends, rfl⟩, holds.imp (lost _) (related _ _)⟩

end Around

variable {α β γ δ : Type} {rel : Pairing -> α -> β -> Prop}

variable {value : γ} {frame last frame' : Frame} {middle source target : Machine}
  {run : Bounded Machine α} {run' : Bounded Machine β} {body : Bounded Activation α}
  {body' : Bounded Activation β} {mid : Post Activation Activation α β} {φ ψ : Type}
  {post : Post Machine Machine φ ψ}

/-- After a step on the frame, the rest of the body goes on with the frame it left. -/
theorem bodyRun_step_eq {run : Body γ} {machine : Machine}
    (ends : run ⟨frame, machine⟩ = some (.ok value, ⟨last, middle⟩)) (part : γ -> Body α)
    (next : α -> Run β) :
    (Body.run (run >>= part) frame >>= next) machine =
      (Body.run (part value) last >>= next) middle := by
  have first : Body.run (run >>= part) frame machine = Body.run (part value) last middle := by
    simp only [Body.run, Exec.bind_apply ends]
  show Exec.bind _ next machine = Exec.bind _ next middle
  unfold Exec.bind
  rw [first]

/-- Computations on the machine as parts of bodies. -/
theorem within {source target : Activation}
    (frames : FrameRel mode cc world.cells source.frame target.frame)
    (agree : Agree mode world run run' source.machine target.machine (Gives mode rel)) :
    Agree mode world run.within run'.within source target (Yields mode cc rel) := by
  refine agree.around (Bounded.ext (Exec.within_eq_around _) (Exec.within_eq_around _))
    (Bounded.ext (Exec.within_eq_around _) (Exec.within_eq_around _)) ?_ ?_
  · rintro ⟨_ | _, _⟩ lost
    · exact lost
    · exact lost.elim
  · rintro ⟨_ | _, _⟩ ⟨_ | _, _⟩ related
    · exact related
    · exact related.elim
    · exact related.elim
    · obtain ⟨later, order, holds, machines⟩ := related
      exact ⟨later, order, holds, frames.mono order.cells, machines⟩

/-- Bodies in frames of their own. -/
theorem bodyRun (agree : Agree mode world body body' ⟨frame, source⟩ ⟨frame', target⟩ mid)
    (implies : ∀ later value value' source target, mid later value value' source target ->
      Gives mode rel later value value' source.machine target.machine) :
    Agree mode world (body.bodyRun frame) (body'.bodyRun frame') source target
      (Gives mode rel) := by
  refine agree.around
    (Bounded.ext (Exec.bodyRun_eq_around _ _) (Exec.bodyRun_eq_around _ _))
    (Bounded.ext (Exec.bodyRun_eq_around _ _) (Exec.bodyRun_eq_around _ _)) ?_ ?_
  · rintro ⟨_ | _, _⟩ lost
    · exact lost
    · exact lost.elim
  · rintro ⟨_ | _, _⟩ ⟨_ | _, _⟩ related
    · exact related
    · exact related.elim
    · exact related.elim
    · obtain ⟨later, order, holds⟩ := related
      exact ⟨later, order, implies _ _ _ _ _ holds⟩

/-- Bodies of two parts in frames of their own, and what comes after them. -/
theorem bodyRun_bind {φ' ψ' : Type}
    {part : α -> Bounded Activation φ} {part' : β -> Bounded Activation φ'}
    {next : φ -> Bounded Machine ψ} {next' : φ' -> Bounded Machine ψ'}
    {post : Post Machine Machine ψ ψ'}
    (agree : Agree mode world body body' ⟨frame, source⟩ ⟨frame', target⟩ mid)
    (after : ∀ later value value' source target, world ≤ later ->
      mid later value value' source target ->
      Agree mode later ((part value).bodyRun source.frame >>= next)
        ((part' value').bodyRun target.frame >>= next') source.machine target.machine post) :
    Agree mode world ((body >>= part).bodyRun frame >>= next)
      ((body' >>= part').bodyRun frame' >>= next') source target post := by
  rw [Bounded.bodyRun_bind, Bounded.bodyRun_bind, bind_assoc, bind_assoc]
  have exposed : Agree mode world (body.expose frame) (body'.expose frame') source target
      fun later result result' source target =>
        mid later result.1 result'.1 ⟨result.2, source⟩ ⟨result'.2, target⟩ := by
    refine agree.around rfl rfl ?_ ?_
    · rintro ⟨_ | _, _⟩ lost
      · exact lost
      · exact lost.elim
    · rintro ⟨_ | _, _⟩ ⟨_ | _, _⟩ related
      · exact related
      · exact related.elim
      · exact related.elim
      · exact related
  exact Agree.bind exposed fun later _ _ _ _ order holds => after later _ _ _ _ order holds

/-- A part of the second body to which nothing corresponds in the first. -/
theorem bodyRun_bind_right {first : Bounded Machine φ}
    {part' : β -> Bounded Activation γ} {next' : γ -> Bounded Machine ψ}
    {mid : Post Activation Activation Unit β}
    (agree : Agree mode world (pure ()) body' ⟨frame, source⟩ ⟨frame', target⟩ mid)
    (after : ∀ later value' source target, world ≤ later -> mid later () value' source target ->
      Agree mode later first ((part' value').bodyRun target.frame >>= next') source.machine
        target.machine post) :
    Agree mode world first ((body' >>= part').bodyRun frame' >>= next') source target post := by
  have same : ((pure () >>= fun _ => first.within).bodyRun frame >>= pure) = first := by
    rw [pure_bind, Bounded.bodyRun_within, bind_pure]
  rw [← same]
  refine Agree.bodyRun_bind agree ?_
  intro later _ value' source target order holds
  rw [Bounded.bodyRun_within, bind_pure]
  exact after later value' source target order holds

/-- A step of the first body that takes no fuel. -/
theorem bodyRun_step_left {run : Body γ}
    {part : γ -> Bounded Activation α} {next : α -> Bounded Machine φ}
    {second : Bounded Machine ψ} (ends : run ⟨frame, source⟩ = some (.ok value, ⟨last, middle⟩))
    (agree : Agree mode world ((part value).bodyRun last >>= next) second middle target post) :
    Agree mode world ((Bounded.lift run >>= part).bodyRun frame >>= next) second source
      target post :=
  agree.congr (bodyRun_step_eq ends _ _) (bodyRun_step_eq ends _ _) rfl rfl

/-- Bodies as blocks, which forget the names bound in them. -/
theorem inBlock {source target : Activation}
    (frames : FrameRel mode cc world.cells source.frame target.frame)
    (agree : Agree mode world body body' source target (Yields mode cc rel)) :
    Agree mode world body.inBlock body'.inBlock source target (Yields mode cc rel) := by
  refine agree.around (Bounded.ext (Exec.inBlock_eq_around _) (Exec.inBlock_eq_around _))
    (Bounded.ext (Exec.inBlock_eq_around _) (Exec.inBlock_eq_around _)) ?_ ?_
  · rintro ⟨_ | _, _⟩ lost
    · exact lost
    · exact lost.elim
  · rintro ⟨_ | _, _⟩ ⟨_ | _, _⟩ related
    · exact related
    · exact related.elim
    · exact related.elim
    · obtain ⟨later, order, holds, inner, machines⟩ := related
      exact ⟨later, order, holds,
        { inner with env := frames.env.mono order.cells, cc := frames.cc }, machines⟩

/-- A guarded operation of the rewritten program. What it invalidates is new. -/
theorem guarded_right (machines : MachineRel mode world source target)
    (agree : Agree mode world run run' source target (Gives mode rel)) :
    Agree mode world run run'.guarded source target (Gives mode rel) := by
  refine agree.around (around_nothing run)
    (Bounded.ext (Exec.guarded_eq_around _) (Exec.guarded_eq_around _))
    (fun _ lost => lost) ?_
  rw [machines.stack]
  rintro ⟨_ | _, _⟩ ⟨_ | _, _⟩ related
  · obtain ⟨rfl, later, order, ends⟩ := related
    obtain ⟨latest, order', _, left⟩ := ends.leave order (.error _ : Except EvalError β)
    exact ⟨rfl, latest, order', left⟩
  · exact related.elim
  · exact related.elim
  · obtain ⟨later, order, holds, ends⟩ := related
    obtain ⟨latest, order', cells, left⟩ := ends.leave order (.ok _ : Except EvalError β)
    exact ⟨latest, order', cells ▸ holds, left⟩

/-- Guarded operations. The one of the source program has nothing to invalidate. -/
theorem guarded (machines : MachineRel mode world source target)
    (agree : Agree mode world run run' source target (Gives mode rel)) :
    Agree mode world run.guarded run'.guarded source target (Gives mode rel) := by
  refine (agree.guarded_right machines).around
    (Bounded.ext (Exec.guarded_eq_around _) (Exec.guarded_eq_around _)) (around_nothing _) ?_ ?_
  · rintro ⟨error | _, state⟩ lost
    · refine ⟨lost.1, Eq.trans ?_ lost.2⟩
      exact Exec.guardedState_passed source.stack.size (.error error : Except EvalError α) state
    · exact lost.elim
  · rw [machines.unguarded]
    rintro ⟨error | value, source'⟩ ⟨_ | _, target'⟩ related
    · obtain ⟨equal, later, order, ends⟩ := related
      have same := MachineRel.guardedState_source ends (.error error : Except EvalError α)
      exact ⟨equal, later, order, same.symm ▸ ends⟩
    · exact related.elim
    · exact related.elim
    · obtain ⟨later, order, holds, ends⟩ := related
      have same := MachineRel.guardedState_source ends (.ok value : Except EvalError α)
      exact ⟨later, order, holds, same.symm ▸ ends⟩

end Agree

end Trampoline
