import Trampoline.Proofs.Lists.Contents
import Trampoline.Proofs.Promises.Sessions

/-!
# Deep forces and pushes

When a task is over, a list holds what it held before, with promises in it replaced, and then what
was pushed onto it outside of its own deep forces. What was pushed onto it during one of them is
gone: the deep force writes back the items that it found, each forced.
-/

namespace Trampoline

open Exec

/-! ## How a deep force goes -/

/-- How the deep force of a value ends. -/
inductive DeepForce (perform : (task : Task) -> Run task.Answer) (value : Value) (m : Machine) :
    Except EvalError Value -> Machine -> Prop where
  | fails {error : EvalError} {last : Machine}
      (force : perform (.force value) m = some (.error error, last)) :
      DeepForce perform value m (.error error) last
  | plain {forced : Value} {last : Machine}
      (force : perform (.force value) m = some (.ok forced, last))
      (list : ∀ ref, forced ≠ .list ref) (tuple : ∀ items, forced ≠ .tuple items) :
      DeepForce perform value m (.ok forced) last
  /-- The items that the list holds then are forced, and written back. -/
  | list {ref : Nat} {items : List Value} {middle last : Machine}
      (force : perform (.force value) m = some (.ok (.list ref), middle))
      (each : perform (.forceAll (middle.items ref).toList) middle = some (.ok items, last)) :
      DeepForce perform value m (.ok (.list ref)) ((Effect.setItems ref items).on last)
  | listFails {ref : Nat} {error : EvalError} {middle last : Machine}
      (force : perform (.force value) m = some (.ok (.list ref), middle))
      (each : perform (.forceAll (middle.items ref).toList) middle = some (.error error, last)) :
      DeepForce perform value m (.error error) last
  | tuple {items after : List Value} {middle last : Machine}
      (force : perform (.force value) m = some (.ok (.tuple items), middle))
      (each : perform (.forceAll items) middle = some (.ok after, last)) :
      DeepForce perform value m (.ok (.tuple after)) last
  | tupleFails {items : List Value} {error : EvalError} {middle last : Machine}
      (force : perform (.force value) m = some (.ok (.tuple items), middle))
      (each : perform (.forceAll items) middle = some (.error error, last)) :
      DeepForce perform value m (.error error) last

section Plans

variable {perform : (task : Task) -> Run task.Answer} {inside : Task -> Machine -> List Call}
  {m m' : Machine} {value : Value}

/-- What a deep force does is to force the value, and then the items that it holds. -/
theorem Plan.run_forceDeep {result : Except EvalError Value}
    (ends : (Task.forceDeep value).plan.run perform m = some (result, m')) :
    DeepForce perform value m result m' := by
  change Plan.run perform (Plan.ask (.force value) _) m = _ at ends
  rcases bind_eq_some.mp ends with ⟨forced, middle, force, rest⟩ | ⟨error, last, force, equal⟩
  case inr =>
    cases equal
    exact .fails force
  case inl =>
    clear ends
    cases forced with
    | list ref =>
      obtain ⟨_, _, ⟨⟩, rest⟩ | ⟨_, _, ⟨⟩, -⟩ := bind_eq_some.mp rest
      rcases bind_eq_some.mp rest with ⟨items, last, each, rest⟩ | ⟨error, last, each, equal⟩
      · cases rest
        exact .list force each
      · cases equal
        exact .listFails force each
    | tuple items =>
      rcases bind_eq_some.mp rest with ⟨after, last, each, rest⟩ | ⟨error, last, each, equal⟩
      · cases rest
        exact .tuple force each
      · cases equal
        exact .tupleFails force each
    | _ =>
      cases rest
      exact .plain force nofun nofun

/-- The calls of a deep force are those of the force and then those of the items. -/
theorem Plan.calls_forceDeep : (Task.forceDeep value).plan.calls perform inside m =
    inside (.force value) m ++
      match perform (.force value) m with
      | some (.ok (.list ref), middle) => inside (.forceAll (middle.items ref).toList) middle
      | some (.ok (.tuple items), middle) => inside (.forceAll items) middle
      | _ => [] := by
  change Plan.calls perform inside (Plan.ask (.force value) _) m = _
  rw [calls]
  congr 1
  rcases perform (.force value) m with _ | ⟨_ | forced, middle⟩
  · rfl
  · rfl
  · cases forced with
    | list ref =>
      change Plan.calls perform inside (Plan.ask (.forceAll (middle.items ref).toList) fun items =>
        Plan.step (Run.setItems ref items) fun _ => Plan.done _) middle = _
      rw [calls]
      split
      · exact List.append_nil _
      · exact List.append_nil _
    | tuple items =>
      change Plan.calls perform inside
        (Plan.ask (.forceAll items) fun after => Plan.done _) middle = _
      rw [calls]
      split
      · exact List.append_nil _
      · exact List.append_nil _
    | _ => rfl

theorem Plan.calls_lift {α : Type} (run : Run α) : (lift run).calls perform inside m = [] := by
  rw [lift, calls]
  split <;> rfl

/-- The force of a promise that does not wait makes no calls. -/
theorem Plan.calls_idle {ref : Nat} (idle : ∀ thunk, m.promise ref ≠ .pending thunk) :
    (Task.force (.promise ref)).plan.calls perform inside m = [] := by
  rw [force_eq]
  change (forcing ref (m.promise ref)).calls perform inside m = []
  cases state : m.promise ref with
  | pending thunk => exact absurd state (idle thunk)
  | _ => rfl

end Plans

/-! ## What deep forces answer -/

section Answers

variable {n : Nat} {m m' : Machine}

theorem settles_run {task : Task} {result : Except EvalError task.Answer}
    (ends : task.run n m = some (result, m')) : m.Settles m' :=
  (Unfolding.tasks n).settles task m result m' ends

/-- What a value is forced to replaces it. -/
theorem force_replaces {value forced : Value}
    (ends : (Task.force value).run n m = some (.ok forced, m')) : m'.Replaces value forced := by
  cases n with
  | zero => cases ends
  | succ n =>
    cases value with
    | promise ref =>
      cases state : m.promise ref with
      | pending thunk =>
        rw [Task.run_succ] at ends
        obtain ⟨last, -, -, -, settled⟩ := (Unfolding.tasks n).settles_force state ends
        exact .promise settled (.same forced)
      | forcing => cases (force_forcing state).symm.trans ends
      | forced value =>
        cases (force_forced state).symm.trans ends
        exact .promise state (.same forced)
    | _ =>
      cases ends
      exact .same _

/-- Deep forces answer the value with all promises replaced. -/
theorem forces_replace (n : Nat) :
    (∀ value m after m', (Task.forceDeep value).run n m = some (.ok after, m') ->
      m'.Replaces value after ∧ (m.Resolved -> after.PromiseFree)) ∧
    ∀ values m after m', (Task.forceAll values).run n m = some (.ok after, m') ->
      m'.ReplacesAll values after ∧ (m.Resolved -> AllPromiseFree after) := by
  induction n with
  | zero => exact ⟨nofun, nofun⟩
  | succ n ih =>
    obtain ⟨deep, all⟩ := ih
    constructor
    · intro value m after m' ends
      rw [Task.run_succ] at ends
      cases Plan.run_forceDeep ends with
      | plain force list tuple =>
        refine ⟨force_replaces force, fun resolved => ?_⟩
        have settled := (Unfolding.tasks n).resolves value m after m' resolved force
        cases after with
        | promise => cases settled
        | tuple items => exact absurd rfl (tuple items)
        | _ => trivial
      | @list ref items middle last force each =>
        have remembers : middle.Remembers ((Effect.setItems ref items).on last) :=
          (settles_run each).sustains.remembers
        exact ⟨(force_replaces force).mono remembers, fun _ => trivial⟩
      | tuple force each =>
        have remembers := (settles_run each).sustains.remembers
        have replaced := all _ _ _ _ each
        exact ⟨((force_replaces force).mono remembers).trans (.tuple replaced.1),
          fun resolved => replaced.2 ((settles_run force).resolved resolved)⟩
    · intro values m after m' ends
      rw [Task.run_succ] at ends
      cases values with
      | nil =>
        cases ends
        exact ⟨.nil, fun _ => trivial⟩
      | cons value rest =>
        obtain ⟨first, middle, force, ends⟩ := bind_eq_ok.mp ends
        obtain ⟨others, last, each, ⟨⟩⟩ := bind_eq_ok.mp ends
        have head := deep _ _ _ _ force
        have tail := all _ _ _ _ each
        refine ⟨.cons (head.1.mono (settles_run each).sustains.remembers) tail.1,
          fun resolved => ?_⟩
        exact ⟨head.2 resolved, tail.2 ((settles_run force).resolved resolved)⟩

end Answers

/-! ## Tasks -/

section Tasks

variable {n ref : Nat} {m m' : Machine}

/-- A list that exists holds what is written to it. -/
theorem Machine.items_setItems (last : Machine) (items : List Value)
    (known : ref < last.lists.size) :
    ((Effect.setItems ref items).on last).items ref = items.toArray := by
  simp [Effect.on, Machine.items, known]

theorem Machine.Updates.setItems {other : Nat} (different : other ≠ ref) (items : List Value)
    (last : Machine) : last.Updates ref [] ((Effect.setItems other items).on last) where
  remembers _ _ := id
  known known := by simpa [Effect.on] using known
  holds _ := by
    have same : ((Effect.setItems other items).on last).items ref = last.items ref := by
      simp [Effect.on, Machine.items, Array.getD_eq_getD_getElem?,
        Array.getElem?_setIfInBounds_ne different]
    rw [same, List.append_nil]
    exact .refl _

section Fuel

variable (updating : Updating ref (Task.run n) (Task.outside ref n))
include updating

variable {result : Except EvalError Value} {value : Value}

/-- Forcing a promise pushes what the thunk behind it pushes. -/
theorem Updating.force_succ {promise : Nat}
    (ends : (Task.force (.promise promise)).plan.run (Task.run n) m = some (result, m')) :
    m.Updates ref (((Task.force (.promise promise)).plan.calls (Task.run n) (Task.outside ref n)
      m).filterMap (Call.pushed? ref)) m' := by
  by_cases waits : ∃ thunk, m.promise promise = .pending thunk
  · obtain ⟨thunk, pending⟩ := waits
    rw [Plan.calls_force pending]
    obtain ⟨last, computes, -, remembers, -⟩ := (Unfolding.tasks n).settles_force pending ends
    have begins : m.Updates ref [] (m.beginForce promise) :=
      .of_eq (Machine.sustains_beginForce pending).remembers rfl
    have does : (Plan.computing thunk).Does Effect.Aside := fun _ _ => trivial
    have computed := updating.plan does computes
    have lists : m'.lists = last.lists := by
      rw [Plan.run_force pending, computes] at ends
      cases result <;> cases ends <;> rfl
    exact (begins.trans computed).later (.of_eq remembers lists)
  · have idle : ∀ thunk, m.promise promise ≠ .pending thunk := fun thunk state =>
      waits ⟨thunk, state⟩
    have same : m = m' := Plan.run_idle idle ends
    rw [Plan.calls_idle idle, same]
    exact .refl m'

/-- A deep force of another value keeps what is pushed meanwhile. -/
theorem Updating.deep_other (goes : DeepForce (Task.run n) value m result m')
    (other : result ≠ .ok (.list ref)) :
    m.Updates ref (((Task.forceDeep value).plan.calls (Task.run n) (Task.outside ref n)
      m).filterMap (Call.pushed? ref)) m' := by
  rw [Plan.calls_forceDeep]
  cases goes with
  | fails force =>
    simpa only [force, List.append_nil] using updating _ _ _ _ force
  | plain force list tuple =>
    have first := updating _ _ _ _ force
    rw [force]
    split
    · rename_i same
      cases same
      exact absurd rfl (list _)
    · rename_i same
      cases same
      exact absurd rfl (tuple _)
    · rwa [List.append_nil]
  | list force each =>
    have different : ∀ {list : Nat},
      (.ok (.list list) : Except EvalError Value) ≠ .ok (.list ref) ->
        list ≠ ref := fun differ same => differ (by rw [same])
    simp only [force, List.filterMap_append]
    exact ((updating _ _ _ _ force).trans (updating _ _ _ _ each)).later
      (.setItems (different other) _ _)
  | listFails force each | tuple force each | tupleFails force each =>
    simp only [force, List.filterMap_append]
    exact (updating _ _ _ _ force).trans (updating _ _ _ _ each)

/-- A deep force of the list itself keeps what was pushed before it got at the items. -/
theorem Updating.deep_self (goes : DeepForce (Task.run n) value m (.ok (.list ref)) m') :
    m.Updates ref (Task.kept ref n (.force value) m) m' := by
  cases goes with
  | plain _ list => exact absurd rfl (list ref)
  | @list _ items _ last force each =>
    have first := updating _ _ _ _ force
    have second := settles_run each
    have replaced := ((forces_replace n).2 _ _ _ _ each).1
    have known := (updating _ _ _ _ each).known
    refine ⟨first.remembers.trans second.sustains.remembers, fun inside => ?_, fun inside => ?_⟩
    · simpa [Effect.on] using known (first.known inside)
    · rw [Machine.items_setItems _ _ (known (first.known inside)), List.toList_toArray]
      have before := (first.holds inside).mono second.sustains.remembers
      have later : last.Remembers ((Effect.setItems ref items).on last) := fun _ _ => id
      exact (before.trans replaced).mono later

omit updating in
/-- The native that pushes is the one task that pushes by itself. -/
theorem updates_push {args : List Value}
    (ends : (Task.applyNative .push args).run (n + 1) m = some (result, m')) :
    m.Updates ref ([⟨n + 1, .applyNative .push args, m⟩].filterMap (Call.pushed? ref)) m' := by
  have computes : (Native.compute? .push args).getD (pure .nil) m = some (result, m') := ends
  simp only [Native.compute?, Option.getD_some] at computes
  simp only [List.filterMap_cons, List.filterMap_nil, Call.pushed?]
  generalize Native.two args = both at computes ⊢
  obtain ⟨target, value⟩ := both
  cases target with
  | list list =>
    cases computes
    by_cases same : list = ref
    · subst same
      refine ⟨fun _ _ => id, fun known => by simpa using known, fun known => ?_⟩
      have pushed : ({ m with lists := m.lists.modify list fun items => items.push value } :
          Machine).items list = (m.items list).push value := by
        simp [Machine.items, known, Array.getElem_modify]
      simp only [if_true, pushed, Array.toList_push]
      exact .refl _
    · have kept : ({ m with lists := m.lists.modify list fun items => items.push value } :
          Machine).items ref = m.items ref := by
        simp [Machine.items, Array.getD_eq_getD_getElem?, Array.getElem?_modify, same]
      refine ⟨fun _ _ => id, fun known => by simpa using known, fun known => ?_⟩
      simp only [if_neg same, List.append_nil, kept]
      exact .refl _
  | _ =>
    cases computes
    exact .refl m

theorem Updating.succ : Updating ref (Task.run (n + 1)) (Task.outside ref (n + 1)) := by
  intro task m result m' ends
  by_cases deep : ∃ value, task = .forceDeep value
  · obtain ⟨value, rfl⟩ := deep
    have outcome : Trampoline.forceDeep (n + 1) value m = some (result, m') := ends
    rw [Task.run_succ] at ends
    have goes := Plan.run_forceDeep ends
    rw [Task.outside]
    by_cases self : result = .ok (.list ref)
    · subst self
      have overwrites : Call.overwrites ref ⟨n + 1, .forceDeep value, m⟩ = true := by
        simp [Call.overwrites, outcome]
      rw [if_pos overwrites]
      exact updating.deep_self goes
    · have overwrites : Call.overwrites ref ⟨n + 1, .forceDeep value, m⟩ = false := by
        simp only [Call.overwrites, outcome]
        split
        · rename_i list _ same
          cases same
          exact decide_eq_false fun same => self (by rw [same])
        · rfl
      rw [if_neg (by simp [overwrites])]
      exact updating.deep_other goes self
  · rw [Task.outside_succ ref fun value same => deep ⟨value, same⟩]
    by_cases forces : ∃ promise, task = .force (.promise promise)
    · obtain ⟨promise, rfl⟩ := forces
      rw [Task.run_succ] at ends
      exact updating.force_succ ends
    · by_cases pushes : ∃ args, task = .applyNative .push args
      · obtain ⟨args, rfl⟩ := pushes
        have none :
          (Task.applyNative .push args).plan.calls (Task.run n) (Task.outside ref n) m = [] :=
          Plan.calls_lift _
        rw [none]
        exact updates_push ends
      · have idle : Call.pushed? ref ⟨n + 1, task, m⟩ = none := by
          unfold Call.pushed?
          split
          · rename_i args same
            exact absurd ⟨args, same⟩ pushes
          · rfl
        rw [Task.run_succ] at ends
        rw [List.filterMap_cons_none idle]
        refine updating.plan (task.plan_does.imp fun effect allowed => ?_) ends
        cases effect with
        | setItems => exact deep allowed
        | pushItem => exact pushes allowed
        | setPromise promise => exact forces ⟨promise, allowed⟩
        | _ => trivial

end Fuel

/-- Every task pushes what its calls outside of deep forces push. -/
theorem Updating.tasks (ref n : Nat) : Updating ref (Task.run n) (Task.outside ref n) := by
  induction n with
  | zero =>
    intro task m result m' ends
    cases task <;> cases ends
  | succ n ih => exact ih.succ

end Tasks

/-! ## What is in the list afterwards -/

/-- The values are among the items, in this order, with promises in them replaced. -/
def Machine.Retains (m : Machine) (values items : List Value) : Prop :=
  ∃ kept, m.ReplacesAll values kept ∧ kept.Sublist items

section Afterwards

variable {n ref : Nat} {m m' : Machine}

/-- When a task is over, the list holds what it held and what was pushed onto it outside of its own
deep forces. So all that was pushed is there exactly if nothing was pushed during one of them. -/
theorem Task.list_holds {task : Task} {result : Except EvalError task.Answer}
    (known : ref < m.lists.size) (ends : task.run n m = some (result, m')) :
    m'.ReplacesAll ((m.items ref).toList ++ task.kept ref n m) (m'.items ref).toList ∧
      (m'.Retains ((m.items ref).toList ++ task.pushes ref n m) (m'.items ref).toList ↔
        task.pushes ref n m = task.kept ref n m) := by
  have held : m'.ReplacesAll ((m.items ref).toList ++ task.kept ref n m) (m'.items ref).toList :=
    (Updating.tasks ref n task m result m' ends).holds known
  refine ⟨held, fun ⟨items, replaced, among⟩ => ?_, fun same => ⟨_, same ▸ held, .refl _⟩⟩
  have fewer := task.kept_sublist ref n m
  have all := replaced.length_eq
  have some := held.length_eq
  have most := among.length_le
  rw [List.length_append] at all some
  exact (fewer.eq_of_length_le (by omega)).symm

/-- A list is forced as itself, and nothing happens. -/
theorem run_force_list {forced : Value}
    (ends : (Task.force (.list ref)).run n m = some (.ok forced, m')) :
    forced = .list ref ∧ m' = m := by
  cases n with
  | zero => cases ends
  | succ n =>
    cases ends
    exact ⟨rfl, rfl⟩

/-- A deep force of a list answers the list, with the items that it had, forced. -/
theorem forceDeep_list {after : Value} (known : ref < m.lists.size)
    (ends : (Task.forceDeep (.list ref)).run n m = some (.ok after, m')) :
    after = .list ref ∧ (m.Resolved -> AllPromiseFree (m'.items ref).toList) := by
  cases n with
  | zero => cases ends
  | succ n =>
    rw [Task.run_succ] at ends
    cases Plan.run_forceDeep ends with
    | plain force list =>
      obtain ⟨rfl, rfl⟩ := run_force_list force
      exact absurd rfl (list ref)
    | tuple force => cases (run_force_list force).1
    | list force each =>
      obtain ⟨⟨⟩, rfl⟩ := run_force_list force
      refine ⟨rfl, fun resolved => ?_⟩
      have size := (Updating.tasks ref n _ _ _ _ each).known known
      rw [Machine.items_setItems _ _ size, List.toList_toArray]
      exact ((forces_replace n).2 _ _ _ _ each).2 resolved

/-- What is pushed onto a list while it is being forced is not kept. -/
theorem Task.kept_forceDeep
    (ends : (forceDeep (.list ref)).run n m = some (.ok (.list ref), m')) :
    kept ref n (forceDeep (.list ref)) m = [] := by
  cases n with
  | zero => cases ends
  | succ n =>
    have outcome : Trampoline.forceDeep (n + 1) (.list ref) m = some (.ok (.list ref), m') := ends
    have overwrites : Call.overwrites ref ⟨n + 1, forceDeep (.list ref), m⟩ = true := by
      simp [Call.overwrites, outcome]
    rw [kept, outside, if_pos overwrites]
    cases n <;> rfl

/-- A deep force of a list that succeeds leaves in it exactly the items that it had, forced: what
was pushed onto it meanwhile is lost, so that nothing is lost exactly if nothing was pushed. During
any task, a deep force or one that prints, shows or compares among them, a list loses what is pushed
onto it while it is being forced, and nothing else. -/
theorem Machine.list_updates (known : ref < m.lists.size) (resolved : m.Resolved) :
    (∀ after m', Trampoline.forceDeep n (.list ref) m = some (.ok after, m') ->
      after = .list ref ∧
      m'.ReplacesAll (m.items ref).toList (m'.items ref).toList ∧
      AllPromiseFree (m'.items ref).toList ∧
      (m'.Retains ((m.items ref).toList ++ Task.pushes ref n (.forceDeep (.list ref)) m)
          (m'.items ref).toList ↔
        Task.pushes ref n (.forceDeep (.list ref)) m = [])) ∧
    ∀ task result m', Task.run n task m = some (result, m') ->
      m'.ReplacesAll ((m.items ref).toList ++ task.kept ref n m) (m'.items ref).toList ∧
      (m'.Retains ((m.items ref).toList ++ task.pushes ref n m) (m'.items ref).toList ↔
        task.pushes ref n m = task.kept ref n m) := by
  refine ⟨fun after m' ends => ?_, fun task result m' ends => Task.list_holds known ends⟩
  change (Task.forceDeep (.list ref)).run n m = _ at ends
  obtain ⟨rfl, free⟩ := forceDeep_list known ends
  have holds := Task.list_holds known ends
  rw [Task.kept_forceDeep ends, List.append_nil] at holds
  exact ⟨rfl, holds.1, free resolved, holds.2⟩

/-- A machine with a list that holds a promise. -/
def promisedList : Machine :=
  { Machine.start false with
    globals := [("x", .int 1)]
    promises := #[.pending (.global "x")]
    lists := #[#[.promise 0]] }

/-- A deep force replaces the promise; nothing is pushed meanwhile, so nothing is lost. -/
theorem promisedList_updates : 0 < promisedList.lists.size ∧ promisedList.Resolved ∧
    ∃ after m', Trampoline.forceDeep 6 (.list 0) promisedList = some (.ok after, m') ∧
      after = .list 0 ∧ (m'.items 0).toList.length = 1 ∧ AllPromiseFree (m'.items 0).toList ∧
      m'.Retains [.promise 0] (m'.items 0).toList := by
  have known : 0 < promisedList.lists.size := by decide
  have resolved : promisedList.Resolved := by
    intro ref value forced
    rcases ref with _ | ref
    · cases forced
    · cases (Machine.promise_eq_of_le (by simp [promisedList])).symm.trans forced
  obtain ⟨after, m', ends⟩ : ∃ after m',
      Trampoline.forceDeep 6 (.list 0) promisedList = some (.ok after, m') := ⟨_, _, rfl⟩
  have updates := (Machine.list_updates known resolved).1 after m' ends
  have none : Task.pushes 0 6 (.forceDeep (.list 0)) promisedList = [] := by rfl
  refine ⟨known, resolved, after, m', ends, updates.1, updates.2.1.length_eq.symm,
    updates.2.2.1, ?_⟩
  have retains := updates.2.2.2.mpr none
  rw [none, List.append_nil] at retains
  exact retains

/-! ### A push that is lost -/

/-- How many items a list had before its deep force, how many were pushed onto it meanwhile, and how
many it has afterwards. -/
def Call.counts? (call : Call) : Option (Nat × Nat × Nat) :=
  match call.task with
  | .forceDeep (.list ref) =>
    match Trampoline.forceDeep call.fuel (.list ref) call.machine with
    | some (.ok _, last) => some ((call.machine.items ref).size,
        (Task.pushes ref call.fuel (.forceDeep (.list ref)) call.machine).length,
        (last.items ref).size)
    | _ => none
  | _ => none

/-- A delayed item that, when it is forced, pushes onto the list that holds it. -/
def overwrittenPush : String :=
  "(define xs nil)
  (tco (lazify (defn f () (list (begin (push! xs 2) 1)))) (defn g () (f)))
  (set! xs (g)) (force-deep xs) (len xs)"

/-- The push is lost. -/
theorem overwrittenPush_lost : ∃ transformed,
    (Program.ofText overwrittenPush).transform .default [] = .ok transformed ∧
      ∃ call ∈ history 20 [.run transformed.program] (.start false), ∃ ref after last,
        call.task = .forceDeep (.list ref) ∧
        Trampoline.forceDeep call.fuel (.list ref) call.machine = some (.ok after, last) ∧
        ¬ last.Retains ((call.machine.items ref).toList ++
          Task.pushes ref call.fuel (.forceDeep (.list ref)) call.machine)
          (last.items ref).toList := by
  have counts : ((Program.ofText overwrittenPush).transform .default []).toOption.map
      (fun transformed => (history 20 [.run transformed.program] (.start false)).filterMap
        Call.counts?) = some [(1, 1, 1)] := by
    rw [Program.ofText, overwrittenPush, Program.parse_ofList]
    decide +kernel
  cases succeeds : (Program.ofText overwrittenPush).transform .default [] with
  | error error => simp [succeeds, Except.toOption] at counts
  | ok transformed =>
    simp only [succeeds, Except.toOption, Option.map_some, Option.some.injEq] at counts
    refine ⟨transformed, rfl, ?_⟩
    have found : (1, 1, 1) ∈ (history 20 [.run transformed.program] (.start false)).filterMap
        Call.counts? := by
      rw [counts]
      exact List.mem_singleton_self _
    obtain ⟨call, member, counted⟩ := List.mem_filterMap.mp found
    unfold Call.counts? at counted
    split at counted
    · rename_i ref task
      split at counted
      · rename_i after last ends
        refine ⟨call, member, ref, after, last, task, ends, ?_⟩
        rintro ⟨kept, replaced, among⟩
        simp only [Option.some.injEq, Prod.mk.injEq] at counted
        have all := replaced.length_eq
        have most := among.length_le
        simp only [List.length_append, Array.length_toList] at all most
        omega
      · cases counted
    · cases counted

end Afterwards

end Trampoline
