import Trampoline.Proofs.Need.Calls

/-!
# Forcing promises

A promise that waits is forced at its own path, once. While it is being forced it is blocked: by
name its value needs more fuel than there is for what is evaluated meanwhile. So a promise that has
a value by name is never needed for its own value.
-/

namespace Trampoline.ByName

open Exec

variable {dressed : Bool} {globals : List (String × Val)} {blocked blocked' : Entry -> Prop}
  {reading more : Reading} {m m' : Machine} {path : Path} {frame : Frame} {scope : Scope}
  {perform : (task : Task) -> Run task.Answer} {refer : (query : Query) -> Option query.Answer}
  {ref : Nat} {e : Expr} {names : Bindings}

/-! ## Promises -/

theorem read_promise {state : Promise} (found : m.promise ref = state) :
    (Exec.read fun m : Machine => m.promise ref) m = some (.ok state, m) := by
  rw [← found]
  rfl

/-- The machine as it begins to force a promise. -/
def beginning (m : Machine) (ref : Nat) : Machine :=
  { withPromise m ref .forcing with trace := .forcing :: m.trace }

variable {thunk : Thunk}

/-- A promise that begins to be forced leaves the machine as it is read. -/
theorem Agrees.beginning (agrees : Agrees dressed globals reading m)
    (found : reading.promises[ref]? = some (.thunk e names path))
    (pending : m.promise ref = .pending thunk) :
    Agrees dressed globals reading (beginning m ref) ∧
      Moves (fun _ => True) reading (ByName.withPromise m ref .forcing) reading (beginning m ref) :=
  (agrees.begin_force found pending).1.of_heap rfl rfl rfl rfl rfl

/-- A promise that waits can begin to be forced, if it is blocked from then on. -/
theorem Rests.beginning (rests : Rests dressed globals blocked reading m)
    (found : reading.promises[ref]? = some (.thunk e names path))
    (pending : m.promise ref = .pending thunk) (blocks : blocked (.thunk e names path)) :
    Opens dressed globals blocked reading (beginning m ref) path := by
  obtain ⟨agrees, moves⟩ := rests.agrees.beginning found pending
  refine ⟨⟨agrees, ?_⟩, moves.free path trivial (rests.agrees.begin_force found pending).2.1⟩
  intro other entry known forcing
  by_cases same : ref = other
  · subst same
    cases found.symm.trans known
    exact blocks
  · refine rests.ready other entry known ?_
    exact (promise_withPromise_of_ne same .forcing).symm.trans forcing

/-- A promise that waits gets the value of its thunk. -/
theorem Setting.pending_follows (setting : Setting dressed globals perform refer)
    (agrees : Agrees dressed globals reading m)
    (found : reading.promises[ref]? = some (.thunk e names path))
    (pending : m.promise ref = .pending thunk) {answer : Option Val}
    (evaluates : ∀ val, answer = some val -> Entry.Evaluates globals (.thunk e names path) val)
    (follows : Follows dressed (beginning m ref) (perform (.runThunk thunk)) answer
      (Gives dressed globals (Apart path) reading (beginning m ref) (Means dressed))) :
    Follows dressed m ((Task.force (.promise ref)).plan.run perform) answer
      (Gives dressed globals (fun _ => True) reading m (Means dressed)) := by
  rw [← bind_pure answer]
  refine .step (read_promise pending) ?_
  have forced : Follows dressed m ((do
      Plan.lift (Run.setPromise ref .forcing)
      Plan.lift (Run.tell .forcing)
      let value ← Plan.sub (.runThunk thunk)
      Plan.sub (.force value) : Plan Value).run perform) answer
      (Gives dressed globals (Apart path) reading (beginning m ref) (Means dressed)) := by
    refine .step rfl (.step rfl ?_)
    rw [← bind_pure answer]
    refine follows.bind ?_
    rintro value val m' ⟨more, moves, agrees, means⟩
    exact setting.forced means (.pure ⟨more, moves, agrees, means⟩)
  refine forced.answered.settle ?_ fun _ _ _ _ => nofun
  rintro value val m' ⟨⟨more, moves, agrees', means⟩, answered⟩
  obtain ⟨_, begun⟩ := agrees.beginning found pending
  obtain ⟨agrees', moves'⟩ := agrees.end_force found pending
    ((begun.trans moves).weaken fun _ apart => ⟨trivial, apart⟩) agrees' means
      (evaluates val answered)
  exact .step rfl (.pure ⟨more, moves', agrees', means⟩)

/-- A task and a query are done by what they lead to. -/
theorem Setting.step (setting : Setting dressed globals perform refer) :
    Setting dressed globals (fun task => task.plan.run perform)
      (fun query => (query.course globals).run refer) where
  lower task := by
    rw [Task.full_eq]
    exact Plan.run_le setting.lower task.plan
  full total := by
    funext task
    rw [setting.full total, ← Task.full_eq]
  within query answer ends := by
    rw [refer_eq]
    exact Course.run_within setting.within ends
  all raw := by
    funext query
    rw [setting.all raw, ← refer_eq]

/-- Values are forced alike, if promises that wait are, and those that are being forced have no
value by name. -/
theorem Setting.force_step (setting : Setting dressed globals perform refer)
    (rests : Rests dressed globals blocked reading m) {value : Value} {entry : Entry}
    (holds : Holds dressed globals reading value entry)
    (waits : ∀ ref e names path thunk, reading.promises[ref]? = some (.thunk e names path) ->
      m.promise ref = .pending thunk ->
        Follows dressed (beginning m ref) (perform (.runThunk thunk))
          (((Query.need (.thunk e names path)).course globals).run refer)
          (Gives dressed globals (Apart path) reading (beginning m ref) (Means dressed)))
    (stuck : dressed = true -> ∀ entry, blocked entry ->
      ((Query.need entry).course globals).run refer = none) :
    Follows dressed m ((Task.force value).plan.run perform)
      (((Query.need entry).course globals).run refer)
      (Gives dressed globals (fun _ => True) reading m (Means dressed)) := by
  cases holds with
  | value means evaluates =>
    have plan : (Task.force value).plan = pure value := by
      rw [Task.plan]
      exact means.ne_promise
    rw [plan]
    exact setting.step.evaluated evaluates rfl (.same rests.agrees means)
  | @promise ref e names path found =>
    have keeps := rests.agrees.promise ref _ found
    cases state : m.promise ref with
    | pending thunk =>
      exact setting.pending_follows rests.agrees found state
        (fun val answered => setting.step.within _ _ answered)
          (waits ref e names path thunk found state)
    | forcing =>
      refine .never ?_ fun total val answered => ?_
      · intro value m' ran
        cases (Plan.run_lift_bind (read_promise state)).symm.trans ran
      · rw [stuck total _ (rests.ready ref _ found state)] at answered
        cases answered
    | forced value =>
      rw [state] at keeps
      cases keeps with
      | forced means evaluates =>
        refine setting.step.evaluated evaluates ?_ (.same rests.agrees means)
        exact Plan.run_lift_bind (read_promise state)

/-! ## All tasks -/

/-- The same expression once more, where the machine has done a step less. -/
theorem Simulates.eval_again (sim : Simulates dressed globals blocked perform refer)
    (setting : Setting dressed globals perform refer)
    (opens : Opens dressed globals blocked reading m path) {other : Expr}
    (mapping : Mapping (Wears dressed) e other) (suits : e.All (Suits scope.isLazy))
    (plain : e.isBind = false) (frames : Frames reading frame scope) :
    Follows dressed m (perform (.eval other frame))
      (((Query.eval e scope path).course globals).run refer)
      (Gives dressed globals (Apart path) reading m (Valued dressed frame)) := by
  cases dressed with
  | true =>
    rw [setting.full rfl, Task.full_eq, ← setting.full rfl]
    exact sim.eval_step setting opens mapping suits plain frames
  | false =>
    have follows := sim.eval opens mapping suits plain frames
    rw [setting.all rfl] at follows ⊢
    rwa [← refer_eq]

/-- From tasks and queries that follow each other to those that lead to them. -/
theorem Simulates.step (sim : Simulates dressed globals blocked perform refer)
    (setting : Setting dressed globals perform refer)
    (implies : ∀ entry, blocked' entry -> blocked entry)
    (force : ∀ {reading m value entry}, Rests dressed globals blocked' reading m ->
      Holds dressed globals reading value entry ->
        Follows dressed m ((Task.force value).plan.run perform)
          (((Query.need entry).course globals).run refer)
          (Gives dressed globals (fun _ => True) reading m (Means dressed))) :
    Simulates dressed globals blocked' (fun task => task.plan.run perform)
      (fun query => (query.course globals).run refer) where
  eval opens mapping suits plain frames :=
    sim.eval_step setting (opens.imp implies) mapping suits plain frames
  evalForced opens mapping suits plain frames := setting.evalForced_follows
    (sim.eval_again setting (opens.imp implies) mapping suits plain frames)
  runThunk opens mapping suits plain stands := runThunk_follows
    (sim.eval_again setting (opens.imp implies) mapping suits plain ⟨stands, rfl, nofun⟩)
  binding opens mapping suits plain frames :=
    sim.binding_step setting (opens.imp implies) mapping suits plain frames
  operand opens mapping suits plain frames chooses :=
    sim.operand_step setting (opens.imp implies) mapping suits plain frames chooses
  operands opens mapping suits none frames chooses :=
    sim.operands_step (opens.imp implies) mapping suits none frames chooses
  keywords opens mapping suits none frames chooses :=
    sim.keywords_step (opens.imp implies) mapping suits none frames chooses
  arms opens mapping mapping' suits suits' none frames :=
    sim.arms_step (opens.imp implies) mapping mapping' suits suits' none frames
  short opens mapping suits none frames means :=
    sim.short_step (opens.imp implies) mapping suits none frames means
  items opens mapping suits frames means :=
    sim.items_step (opens.imp implies) mapping suits frames means
  loop opens tests bodies ofTest ofBody none frames :=
    sim.loop_step (opens.imp implies) tests bodies ofTest ofBody none frames
  apply opens means hold hold' strict :=
    sim.apply_step setting (opens.imp implies) means hold hold' strict
  force := force

/-- Where nothing ends or nothing is answered, everything follows. -/
theorem Simulates.base (idle : dressed = false -> ∀ task m outcome, perform task m ≠ some outcome)
    (mute : dressed = true -> ∀ query, refer query = none) :
    Simulates dressed globals blocked perform refer := by
  have vacuous : ∀ {m : Machine} {task : Task} {query : Query}
      {post : task.Answer -> query.Answer -> Machine -> Prop},
      Follows dressed m (perform task) (refer query) post := by
    intro m task query post
    cases dressed with
    | true => exact mute rfl query ▸ nofun
    | false => exact fun value m' ran => absurd ran (idle rfl task m _)
  constructor <;> intros <;> exact vacuous

/-- What a promise delays that waits. -/
theorem Agrees.pending (agrees : Agrees dressed globals reading m)
    (found : reading.promises[ref]? = some (.thunk e names path))
    (pending : m.promise ref = .pending thunk) :
    ∃ other env, thunk = .expr other env ∧ Mapping (Wears dressed) e other ∧
      e.All (Suits true) ∧ e.isBind = false ∧ Stands reading env names := by
  have keeps := agrees.promise ref _ found
  rw [pending] at keeps
  cases keeps with
  | pending mapping suits plain stands => exact ⟨_, _, rfl, mapping, suits, plain, stands⟩

theorem need_thunk (refer : (query : Query) -> Option query.Answer) :
    ((Query.need (.thunk e names path)).course globals).run refer =
      refer (.eval e ⟨names, true⟩ path) :=
  Course.run_sub _

/-- What ends with a value on the machine has that value by name. -/
theorem simulates_run (n : Nat) :
    Simulates false globals (fun _ => True) (fun task => task.run n) (ByName.refer globals) := by
  induction n with
  | zero => exact .base (fun _ task _ _ => by cases task <;> exact nofun) nofun
  | succ n ih =>
    have setting : Setting false globals (fun task => task.run n) (ByName.refer globals) :=
      ⟨Task.run_le_full n, nofun, fun _ _ => id, fun _ => rfl⟩
    have same : (fun task : Task => task.run (n + 1)) = fun task => task.plan.run (Task.run n) :=
      funext (Task.run_succ n)
    have step := ih.step setting (fun _ => id) fun rests holds =>
      setting.force_step rests holds (fun ref e names path thunk found pending => by
        obtain ⟨other, env, rfl, mapping, suits, plain, stands⟩ :=
          rests.agrees.pending found pending
        rw [need_thunk]
        exact ih.runThunk (rests.beginning found pending trivial) mapping suits plain stands) nofun
    rw [same]
    convert step using 1
    exact funext refer_eq

/-- With so much fuel an entry has no value by name. -/
def Blocked (globals : List (String × Val)) (n : Nat) (entry : Entry) : Prop :=
  referAt globals n (.need entry) = none

/-- What is blocked at some fuel is blocked at less. -/
theorem Blocked.lower {n k : Nat} (less : k ≤ n) (entry : Entry)
    (blocked : Blocked globals n entry) :
    Blocked globals k entry := by
  cases found : referAt globals k (.need entry) with
  | none => exact found
  | some val => cases (referAt_le less _ val found).symm.trans blocked

/-- What has a value by name ends with that value on the machine. -/
theorem simulates_refer (n : Nat) :
    Simulates true globals (Blocked globals n) Task.full (referAt globals n) := by
  induction n using Nat.strongRecOn with
  | ind n ih =>
    cases n with
    | zero => exact .base nofun fun _ _ => rfl
    | succ n =>
      have setting : Setting true globals Task.full (referAt globals n) :=
        ⟨fun _ => le_refl _, fun _ => rfl, referAt_within_refer n, nofun⟩
      have same : Task.full = fun task => task.plan.run Task.full := funext Task.full_eq
      rw [same]
      refine (ih n n.lt_succ_self).step setting (fun _ => Blocked.lower n.le_succ _) ?_
      intro reading m value entry rests holds
      refine setting.force_step rests holds ?_ fun _ _ blocked => blocked
      intro ref e names path thunk found pending val answered
      obtain ⟨other, env, rfl, mapping, suits, plain, stands⟩ := rests.agrees.pending found pending
      -- with less fuel than it takes, the thunk is blocked while it is being forced
      have answered : referAt globals (n + 1) (.need (.thunk e names path)) = some val := answered
      obtain ⟨k, less, blocked, answered⟩ := first_answer answered
      have opens := (rests.imp (Blocked.lower (Nat.le_of_lt less))).beginning found pending blocked
      rw [referAt, need_thunk] at answered
      exact (ih k less).runThunk opens mapping suits plain stands val answered

end Trampoline.ByName
