import Trampoline.Proofs.Extents.Guards
import Trampoline.Proofs.Promises.Data

/-!
# What becomes of the items of a list

Items come to a list by pushes, and a deep force replaces the promises in it. While a task is done
the list keeps what it holds and takes what is pushed onto it, except by the deep forces of the list
itself: each writes back what it found at its beginning.
-/

namespace Trampoline

open Exec

/-! ## Values with promises replaced -/

mutual

/-- The value with promises replaced by what they were forced to; some may be left. -/
inductive Machine.Replaces (m : Machine) : Value -> Value -> Prop where
  | same (value : Value) : Replaces m value value
  | promise {ref : Nat} {value after : Value} (forced : m.promise ref = .forced value)
      (inside : Replaces m value after) : Replaces m (.promise ref) after
  | tuple {items after : List Value} (each : ReplacesAll m items after) :
      Replaces m (.tuple items) (.tuple after)

/-- The values with promises in each replaced. -/
inductive Machine.ReplacesAll (m : Machine) : List Value -> List Value -> Prop where
  | nil : ReplacesAll m [] []
  | cons {value after : Value} {rest others : List Value} (first : Replaces m value after)
      (each : ReplacesAll m rest others) : ReplacesAll m (value :: rest) (after :: others)

end

namespace Machine

variable {m middle m' : Machine}

/-- Every value replaces itself. -/
theorem ReplacesAll.refl : ∀ values, m.ReplacesAll values values
  | [] => .nil
  | value :: rest => .cons (.same value) (refl rest)

theorem ReplacesAll.append {others others' : List Value} (second : m.ReplacesAll others others') :
    ∀ {values values' : List Value}, m.ReplacesAll values values' ->
      m.ReplacesAll (values ++ others) (values' ++ others')
  | [], _, .nil => second
  | _ :: _, _, .cons first each => .cons first (append second each)

theorem ReplacesAll.length_eq :
    ∀ {values values' : List Value}, m.ReplacesAll values values' -> values.length = values'.length
  | [], _, .nil => rfl
  | _ :: _, _, .cons _ each => congrArg Nat.succ each.length_eq

mutual

theorem Replaces.mono (remembers : m.Remembers m') :
    ∀ {value after : Value}, m.Replaces value after -> m'.Replaces value after
  | _, _, .same value => .same value
  | _, _, .promise forced inside =>
    .promise (remembers _ _ forced) (Replaces.mono remembers inside)
  | _, _, .tuple each => .tuple (ReplacesAll.mono remembers each)

theorem ReplacesAll.mono (remembers : m.Remembers m') :
    ∀ {values after : List Value}, m.ReplacesAll values after -> m'.ReplacesAll values after
  | _, _, .nil => .nil
  | _, _, .cons first each => .cons (first.mono remembers) (ReplacesAll.mono remembers each)

end

mutual

theorem Replaces.trans :
    ∀ {value between after : Value}, m.Replaces value between -> m.Replaces between after ->
      m.Replaces value after
  | _, _, _, .same _, second => second
  | _, _, _, .promise forced inside, second => .promise forced (inside.trans second)
  | _, _, _, .tuple each, .same _ => .tuple each
  | _, _, _, .tuple each, .tuple each' => .tuple (each.trans each')

theorem ReplacesAll.trans :
    ∀ {values between after : List Value}, m.ReplacesAll values between ->
      m.ReplacesAll between after -> m.ReplacesAll values after
  | _, _, _, .nil, .nil => .nil
  | _, _, _, .cons first each, .cons first' each' => .cons (first.trans first') (each.trans each')

end

end Machine

/-! ## Pushes -/

/-- What the call pushes onto the list. -/
def Call.pushed? (ref : Nat) (call : Call) : Option Value :=
  match call.task with
  | .applyNative .push args =>
    match Native.two args with
    | (.list other, value) => if other = ref then some value else none
    | _ => none
  | _ => none

/-- The call is a deep force that comes to the list, and so replaces its items. -/
def Call.overwrites (ref : Nat) (call : Call) : Bool :=
  match call.task with
  | .forceDeep value =>
    match Trampoline.forceDeep call.fuel value call.machine with
    | some (.ok (.list other), _) => other = ref
    | _ => false
  | _ => false

/-- The calls of a task, but for those between the beginning of a deep force of the list and its
end. -/
def Task.outside (ref : Nat) : Nat -> Task -> Machine -> List Call
  | 0, task, m => [⟨0, task, m⟩]
  | n + 1, .forceDeep value, m =>
    ⟨n + 1, .forceDeep value, m⟩ ::
      if Call.overwrites ref ⟨n + 1, .forceDeep value, m⟩ then outside ref n (.force value) m
      else (forceDeep value).plan.calls (Task.run n) (outside ref n) m
  | n + 1, task, m => ⟨n + 1, task, m⟩ :: task.plan.calls (Task.run n) (outside ref n) m

/-- What is pushed onto a list while a task is done, in the order of time. -/
def Task.pushes (ref n : Nat) (task : Task) (m : Machine) : List Value :=
  (task.calls n m).filterMap (Call.pushed? ref)

/-- What is pushed onto a list while a task is done, but not while the list is being forced. -/
def Task.kept (ref n : Nat) (task : Task) (m : Machine) : List Value :=
  (task.outside ref n m).filterMap (Call.pushed? ref)

section Pushes

variable (ref : Nat) {perform : (task : Task) -> Run task.Answer}

/-- Only deep forces leave calls out: of any other task all that it asks for is listed. -/
theorem Task.outside_succ {n : Nat} {task : Task} {m : Machine}
    (shallow : ∀ value, task ≠ .forceDeep value) :
    task.outside ref (n + 1) m =
      ⟨n + 1, task, m⟩ :: task.plan.calls (Task.run n) (Task.outside ref n) m := by
  rw [outside]
  exact fun value same => shallow value same

/-- A plan that lists fewer calls for each of its tasks lists fewer calls. -/
theorem Plan.calls_sublist {α : Type} {fewer more : Task -> Machine -> List Call}
    (inside : ∀ task m, (fewer task m).Sublist (more task m)) (plan : Plan α) (m : Machine) :
    (plan.calls perform fewer m).Sublist (plan.calls perform more m) := by
  induction plan generalizing m with
  | done value => exact .slnil
  | step run next ih =>
    simp only [calls]
    split
    · exact ih _ _
    · exact .slnil
  | ask task next ih =>
    rw [calls, calls]
    refine (inside task m).append ?_
    split
    · exact ih _ _
    · exact .slnil
  | guarded inner next ihInner ih =>
    rw [calls, calls]
    refine (ihInner m).append ?_
    split
    · exact ih _ _
    · exact .slnil
  | settle inner next ihInner ih =>
    rw [calls, calls]
    refine (ihInner m).append ?_
    split
    · exact ih _ _
    · exact .slnil

/-- The calls outside of deep forces are among all calls. -/
theorem Task.outside_sublist (n : Nat) (task : Task) (m : Machine) :
    (task.outside ref n m).Sublist (task.calls n m) := by
  induction n generalizing task m with
  | zero => exact List.Sublist.refl _
  | succ n ih =>
    by_cases deep : ∃ value, task = .forceDeep value
    · obtain ⟨value, rfl⟩ := deep
      rw [outside, calls]
      refine .cons_cons _ ?_
      split
      · have first : (Task.calls n (.force value) m).Sublist
            ((forceDeep value).plan.calls (Task.run n) (Task.calls n) m) := by
          change List.Sublist _ (Plan.calls _ _ (Plan.ask (.force value) _) m)
          rw [Plan.calls]
          exact List.sublist_append_left _ _
        exact (ih (.force value) m).trans first
      · exact Plan.calls_sublist ih _ m
    · rw [outside_succ ref fun value same => deep ⟨value, same⟩, calls]
      exact .cons_cons _ (Plan.calls_sublist ih _ m)

/-- What is kept is among what is pushed. -/
theorem Task.kept_sublist (n : Nat) (task : Task) (m : Machine) :
    (task.kept ref n m).Sublist (task.pushes ref n m) :=
  (task.outside_sublist ref n m).filterMap _

end Pushes

/-! ## Lists along tasks -/

/-- The effect leaves the lists and promises that there are as they are. -/
def Effect.Aside : Effect -> Prop
  | setItems .. | pushItem .. | setPromise .. => False
  | _ => True

/-- From one machine to a later one, the list kept what it held, with promises replaced, and these
values were pushed onto it. -/
structure Machine.Updates (m : Machine) (ref : Nat) (pushes : List Value) (m' : Machine) :
    Prop where
  remembers : m.Remembers m'
  known : ref < m.lists.size -> ref < m'.lists.size
  holds : ref < m.lists.size ->
    m'.ReplacesAll ((m.items ref).toList ++ pushes) (m'.items ref).toList

namespace Machine.Updates

variable {m middle m' : Machine} {ref : Nat} {pushes more : List Value}

theorem of_eq (remembers : m.Remembers m') (same : m'.lists = m.lists) :
    m.Updates ref [] m' where
  remembers := remembers
  known known := same ▸ known
  holds _ := by
    rw [List.append_nil, items, items, same]
    exact .refl _

/-- Without a step nothing is pushed. -/
theorem refl (m : Machine) : m.Updates ref [] m := .of_eq (fun _ _ forced => forced) rfl

/-- Pushes of two stretches of time come one after the other. -/
theorem trans (first : m.Updates ref pushes middle) (second : middle.Updates ref more m') :
    m.Updates ref (pushes ++ more) m' where
  remembers := first.remembers.trans second.remembers
  known known := second.known (first.known known)
  holds known := by
    have before := (first.holds known).mono second.remembers
    have after := second.holds (first.known known)
    rw [← List.append_assoc]
    exact (ReplacesAll.append (.refl more) before).trans after

/-- An effect that sets no items pushes nothing. -/
theorem aside {effect : Effect} (aside : effect.Aside) (m : Machine) :
    m.Updates ref [] (effect.on m) := by
  have settles : ∀ ref state, effect ≠ .setPromise ref state := by
    rintro _ _ rfl
    exact aside
  have remembers := (Settles.changes (effect.changes settles m)).sustains.remembers
  cases effect with
  | setItems | pushItem | setPromise => exact aside.elim
  | newList items =>
    refine ⟨remembers, fun known => ?_, fun known => ?_⟩
    · exact Nat.lt_of_lt_of_le known (by simp [Effect.on])
    · have same : (Effect.on (.newList items) m).items ref = m.items ref := by
        simp [Effect.on, Machine.items, Array.getD_eq_getD_getElem?, Array.getElem?_push,
          Nat.ne_of_lt known]
      rw [same, List.append_nil]
      exact .refl _
  | _ => exact .of_eq remembers rfl

/-- A later stretch without pushes leaves those there were. -/
theorem later (updates : m.Updates ref pushes middle) (idle : middle.Updates ref [] m') :
    m.Updates ref pushes m' :=
  pushes.append_nil ▸ updates.trans idle

theorem guarded {α : Type} {last : Machine} (updates : m.Updates ref pushes last)
    (result : Except EvalError α) :
    m.Updates ref pushes (guardedState m.stack.size (result, last)) :=
  holds_guardedState
    (fun _ _ _ updates => updates.later (.of_eq (fun _ _ forced => forced) rfl)) _ result updates

/-- A list outlasts any run of effects that set no items. -/
theorem preserved : Preserved Effect.Aside fun m m' => m.Updates ref [] m' where
  refl := refl
  trans first second := first.trans second
  effect m allowed := aside allowed m
  guarded result updates := updates.guarded result

end Machine.Updates

/-- What tasks push and list as calls is what lists get. -/
def Updating (ref : Nat) (perform : (task : Task) -> Run task.Answer)
    (inside : Task -> Machine -> List Call) : Prop :=
  ∀ task m result m', perform task m = some (result, m') ->
    m.Updates ref ((inside task m).filterMap (Call.pushed? ref)) m'

section Plans

variable {ref : Nat} {perform : (task : Task) -> Run task.Answer}
  {inside : Task -> Machine -> List Call}

/-- A plan pushes what its calls push. -/
theorem Updating.plan (updating : Updating ref perform inside) {α : Type} {plan : Plan α}
    (does : plan.Does Effect.Aside) {m m' : Machine} {result : Except EvalError α}
    (ends : plan.run perform m = some (result, m')) :
    m.Updates ref ((plan.calls perform inside m).filterMap (Call.pushed? ref)) m' := by
  have preserved : Machine.Preserved Effect.Aside fun m m' => m.Updates ref [] m' :=
    Machine.Updates.preserved
  induction plan generalizing m m' with
  | done value =>
    cases ends
    exact .refl m
  | step act next ih =>
    rcases bind_eq_some.mp ends with ⟨value, middle, ran, rest⟩ | ⟨error, last, ran, equal⟩
    · rw [Plan.calls, ran]
      exact (preserved.undergoes (does.1 _ _ _ ran)).trans (ih value (does.2 value) rest)
    · cases equal
      rw [Plan.calls, ran]
      exact preserved.undergoes (does.1 _ _ _ ran)
  | ask task next ih =>
    rcases bind_eq_some.mp ends with ⟨answer, middle, ran, rest⟩ | ⟨error, last, ran, equal⟩
    · rw [Plan.calls, ran, List.filterMap_append]
      exact (updating task m _ _ ran).trans (ih answer (does answer) rest)
    · cases equal
      rw [Plan.calls, ran, List.append_nil]
      exact updating task m _ _ ran
  | guarded inner next ihInner ih =>
    rcases bind_eq_some.mp ends with ⟨value, middle, ran, rest⟩ | ⟨error, last, ran, equal⟩
    · rw [Plan.calls, ran, List.filterMap_append]
      obtain ⟨last, within, rfl⟩ := guarded_eq_some.mp ran
      exact ((ihInner does.1 within).guarded _).trans (ih value (does.2 value) rest)
    · cases equal
      rw [Plan.calls, ran, List.append_nil]
      obtain ⟨last, within, rfl⟩ := guarded_eq_some.mp ran
      exact (ihInner does.1 within).guarded _
  | settle inner next ihInner ih =>
    obtain ⟨result', middle, ran, rest⟩ := settle_eq_some.mp ends
    rw [Plan.calls, ran, List.filterMap_append]
    exact (ihInner does.1 ran).trans (ih result' (does.2 result') rest)

end Plans

end Trampoline
