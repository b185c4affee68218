import Mathlib.Data.Set.Card
import Mathlib.Data.Set.Finite.Lattice
import Mathlib.Data.Set.Finite.List
import Mathlib.Logic.Relation
import Mathlib.Order.CompletePartialOrder
import Trampoline.Proofs.Evaluation.Runs
import Trampoline.Proofs.Lists.Updates

/-!
# How deep a deep force goes

A deep force comes from a value to those inside it, one after another: from a list or tuple to its
items, each when those before it are forced, and from a promise to its value. If no list that it
comes to is inside itself, it ends exactly if it comes to values on finitely many ways through
promises. It goes on for ever in a stream without an end, and in a promise whose value holds the
promise again.
-/

namespace Trampoline

open Exec

/-! ## What is inside a value -/

namespace Machine

/-- What the value holds: the items of a list or tuple, or the value of a promise that has one. -/
def contents (m : Machine) : Value -> List Value
  | .list ref => (m.items ref).toList
  | .tuple items => items
  | .promise ref =>
    match m.promise ref with
    | .forced value => [value]
    | _ => []
  | _ => []

/-- One value includes the other. -/
def Includes (m : Machine) (value inner : Value) : Prop := inner ∈ m.contents value

/-- On its way, a deep force of the value comes to one inside: to the value of a promise when it is
forced, or to an item when those before it are forced deep. The way names the promise. -/
inductive Opens (m : Machine) : Value -> List Nat -> Value -> Machine -> Prop where
  | promise {ref : Nat} {value : Value} {m' : Machine}
      (forces : (Task.force (.promise ref)).full m = some (.ok value, m')) :
      Opens m (.promise ref) [ref] value m'
  | item {value item : Value} {before after done : List Value} {m' : Machine}
      (plain : value.isPromise = false) (holds : m.contents value = before ++ item :: after)
      (forces : (Task.forceAll before).full m = some (.ok done, m')) :
      Opens m value [] item m'

/-- A deep force of the value comes to the other one, which is it or is inside it. The way names the
promises that have been passed. -/
inductive Meets : Machine -> Value -> List Nat -> Value -> Machine -> Prop where
  | itself (m : Machine) (value : Value) : Meets m value [] value m
  | inside {m middle m' : Machine} {value inner last : Value} {way more : List Nat}
      (opens : m.Opens value way inner middle) (meets : Meets middle inner more last m') :
      Meets m value (way ++ more) last m'

/-- The ways through promises on which a deep force of the value comes to others. -/
def ways (m : Machine) (value : Value) : Set (List Nat) :=
  {way | ∃ inner m', m.Meets value way inner m'}

/-- What a deep force of the value comes to is in order. -/
structure Orderly (m : Machine) (value : Value) : Prop where
  /-- Lists exist. -/
  known : ∀ way ref m', m.Meets value way (.list ref) m' -> ref < m'.lists.size
  /-- No promise is being forced. -/
  idle : ∀ way ref m', m.Meets value way (.promise ref) m' -> m'.promise ref ≠ .forcing
  /-- Thunks end without error, and leave the lists that there are as they are. -/
  ends : ∀ way ref thunk m', m.Meets value way (.promise ref) m' ->
    m'.promise ref = .pending thunk ->
      ∃ value last, (Task.force (.promise ref)).full m' = some (.ok value, last) ∧
        ∀ list < m'.lists.size, last.items list = m'.items list
  /-- No list is inside itself, be it through the values of promises. -/
  acyclic : ∀ way ref m', m.Meets value way (.list ref) m' ->
    ∀ first inner middle, m'.Opens (.list ref) first inner middle ->
      ∀ more last, ¬ middle.Meets inner more (.list ref) last

/-! ## Deep forces that succeed -/

mutual

/-- How a deep force succeeds. -/
inductive Deepens : Machine -> Value -> Value -> Machine -> Prop where
  | promise {m middle m' : Machine} {ref : Nat} {value after : Value}
      (forces : (Task.force (.promise ref)).full m = some (.ok value, middle))
      (plain : value.isPromise = false) (inside : Deepens middle value after m') :
      Deepens m (.promise ref) after m'
  | list {m last : Machine} {ref : Nat} {items : List Value}
      (each : DeepensAll m (m.items ref).toList items last) :
      Deepens m (.list ref) (.list ref) ((Effect.setItems ref items).on last)
  | tuple {m m' : Machine} {items after : List Value} (each : DeepensAll m items after m') :
      Deepens m (.tuple items) (.tuple after) m'
  | atom {m : Machine} {value : Value} (promise : value.isPromise = false)
      (list : ∀ ref, value ≠ .list ref) (tuple : ∀ items, value ≠ .tuple items) :
      Deepens m value value m

/-- How deep forces of values, one after another, succeed. -/
inductive DeepensAll : Machine -> List Value -> List Value -> Machine -> Prop where
  | nil (m : Machine) : DeepensAll m [] [] m
  | cons {m middle m' : Machine} {value after : Value} {rest others : List Value}
      (first : Deepens m value after middle) (each : DeepensAll middle rest others m') :
      DeepensAll m (value :: rest) (after :: others) m'

end

end Machine

section Full

variable {m middle m' : Machine} {value forced : Value}

variable {task : Task} {ref : Nat} {after : Value} {rest : List Value}

/-- A task has at most one end. -/
theorem full_unique {m : Machine} {outcome outcome' : Outcome Machine task.Answer}
    (ends : task.full m = some outcome) (ends' : task.full m = some outcome') :
    outcome = outcome' :=
  Option.some.inj (ends.symm.trans ends')

theorem ne_promise (plain : value.isPromise = false) (ref : Nat) : value ≠ .promise ref := by
  rintro rfl
  cases plain

/-- The value of a promise is no promise. -/
theorem full_force_plain (resolved : m.Resolved)
    (forces : (Task.force value).full m = some (.ok forced, m')) : forced.isPromise = false := by
  obtain ⟨n, ends⟩ := Task.full_eq_some.mp forces
  exact (Unfolding.tasks n).resolves value m forced m' resolved ends

/-- A task settles promises and takes nothing back. -/
theorem full_settles {result : Except EvalError task.Answer}
    (ends : task.full m = some (result, m')) : m.Settles m' := by
  obtain ⟨n, ends⟩ := Task.full_eq_some.mp ends
  exact settles_run ends

/-- A promise that has been forced has the value that it answered. -/
theorem full_force_forced (forces : (Task.force (.promise ref)).full m = some (.ok forced, m')) :
    m'.promise ref = .forced forced := by
  obtain ⟨n, ends⟩ := Task.full_eq_some.mp forces
  cases n with
  | zero => cases ends
  | succ n =>
    cases state : m.promise ref with
    | pending thunk =>
      rw [Task.run_succ] at ends
      obtain ⟨-, -, -, -, settled⟩ := (Unfolding.tasks n).settles_force state ends
      exact settled
    | forcing => cases (force_forcing state).symm.trans ends
    | forced value =>
      cases (force_forced state).symm.trans ends
      exact state

theorem full_force_of_forced (state : m.promise ref = .forced value) :
    (Task.force (.promise ref)).full m = some (.ok value, m) :=
  Task.full_eq_some.mpr ⟨1, force_forced (n := 0) state⟩

/-- A deep force begins with a force. -/
theorem full_forceDeep (forces : (Task.force value).full m = some (.ok forced, middle))
    (plain : forced.isPromise = false) :
    (Task.forceDeep value).full m = (Task.forceDeep forced).full middle := by
  rw [Task.full_eq, Task.full_eq]
  have second : (Task.forceDeep forced).plan.run Task.full middle = _ :=
    bind_apply (full_force (ne_promise plain)) _
  refine (bind_apply forces _).trans (Eq.trans ?_ second.symm)
  cases forced <;> rfl

/-- A list is forced deep by forcing its items deep and writing them back. -/
theorem full_forceDeep_list {items : List Value}
    (each : (Task.forceAll (m.items ref).toList).full m = some (.ok items, m')) :
    (Task.forceDeep (.list ref)).full m =
      some (.ok (.list ref), (Effect.setItems ref items).on m') := by
  rw [Task.full_eq, Task.plan, Plan.run_sub_bind (full_force (ne_promise rfl))]
  exact Plan.run_sub_bind each

/-- A tuple is forced deep by forcing its items deep, as a new tuple. -/
theorem full_forceDeep_tuple {items after : List Value}
    (each : (Task.forceAll items).full m = some (.ok after, m')) :
    (Task.forceDeep (.tuple items)).full m = some (.ok (.tuple after), m') := by
  rw [Task.full_eq, Task.plan, Plan.run_sub_bind (full_force (ne_promise rfl))]
  exact Plan.run_sub_bind each

/-- What holds nothing is forced deep to itself. -/
theorem full_forceDeep_atom (promise : value.isPromise = false) (list : ∀ ref, value ≠ .list ref)
    (tuple : ∀ items, value ≠ .tuple items) :
    (Task.forceDeep value).full m = some (.ok value, m) := by
  rw [Task.full_eq, Task.plan, Plan.run_sub_bind (full_force (ne_promise promise))]
  cases value with
  | promise ref => cases promise
  | list ref => exact absurd rfl (list ref)
  | tuple items => exact absurd rfl (tuple items)
  | _ => rfl

theorem full_forceAll_nil : (Task.forceAll []).full m = some (.ok [], m) :=
  Task.full_eq_some.mpr ⟨1, rfl⟩

/-- Values are forced deep from the first to the last. -/
theorem full_forceAll_cons {others : List Value}
    (first : (Task.forceDeep value).full m = some (.ok after, middle))
    (each : (Task.forceAll rest).full middle = some (.ok others, m')) :
    (Task.forceAll (value :: rest)).full m = some (.ok (after :: others), m') := by
  rw [Task.full_eq, Task.plan, Plan.run_sub_bind first, Plan.run_sub_bind each]
  rfl

/-- After the first value the others are forced deep. -/
theorem full_forceAll_tail {done : List Value}
    (first : (Task.forceDeep value).full m = some (.ok after, middle))
    (all : (Task.forceAll (value :: rest)).full m = some (.ok done, m')) :
    ∃ others, (Task.forceAll rest).full middle = some (.ok others, m') := by
  rw [Task.full_eq, Task.plan, Plan.run_sub_bind first] at all
  obtain ⟨others, last, each, ends⟩ := bind_eq_ok.mp all
  cases ends
  exact ⟨others, each⟩

end Full

namespace Machine

variable {m middle m' : Machine} {value after : Value} {values afters : List Value}

/-! ### Deep forces that succeed, and their tasks -/

/-- A value is forced deep as what it is forced to. -/
theorem Deepens.of_forced {forced : Value} (resolved : m.Resolved)
    (forces : (Task.force value).full m = some (.ok forced, middle))
    (deepens : middle.Deepens forced after m') : m.Deepens value after m' := by
  by_cases promise : value.isPromise = true
  · cases value with
    | promise ref => exact .promise forces (full_force_plain resolved forces) deepens
    | _ => cases promise
  · have same := full_force (m := m) (ne_promise (Bool.eq_false_of_not_eq_true promise))
    cases full_unique forces same
    exact deepens

mutual

/-- A deep force that is described to succeed does. -/
theorem Deepens.full {m m' : Machine} {value after : Value} :
    m.Deepens value after m' -> (Task.forceDeep value).full m = some (.ok after, m')
  | .promise forces plain inside => (full_forceDeep forces plain).trans inside.full
  | .list each => full_forceDeep_list each.full
  | .tuple each => full_forceDeep_tuple each.full
  | .atom promise list tuple => full_forceDeep_atom promise list tuple

theorem DeepensAll.full {m m' : Machine} {values afters : List Value} :
    m.DeepensAll values afters m' -> (Task.forceAll values).full m = some (.ok afters, m')
  | .nil _ => full_forceAll_nil
  | .cons first each => full_forceAll_cons first.full each.full

end

/-- A deep force that succeeds is described so: by induction on the fuel that it took. -/
theorem deepens_run (n : Nat) :
    (∀ value m after m', m.Resolved -> (Task.forceDeep value).run n m = some (.ok after, m') ->
      m.Deepens value after m') ∧
    ∀ values m afters m', m.Resolved -> (Task.forceAll values).run n m = some (.ok afters, m') ->
      m.DeepensAll values afters m' := by
  induction n with
  | zero => exact ⟨fun _ _ _ _ _ => nofun, fun _ _ _ _ _ => nofun⟩
  | succ n ih =>
    obtain ⟨deep, all⟩ := ih
    constructor
    · intro value m after m' resolved ends
      rw [Task.run_succ] at ends
      cases Plan.run_forceDeep ends with
      | plain force list tuple =>
        have forces := Task.run_le_full n _ _ _ force
        exact .of_forced resolved forces (.atom (full_force_plain resolved forces) list tuple)
      | list force each =>
        have rest := all _ _ _ _ ((settles_run force).resolved resolved) each
        exact .of_forced resolved (Task.run_le_full n _ _ _ force) (.list rest)
      | tuple force each =>
        have rest := all _ _ _ _ ((settles_run force).resolved resolved) each
        exact .of_forced resolved (Task.run_le_full n _ _ _ force) (.tuple rest)
    · intro values m afters m' resolved ends
      rw [Task.run_succ] at ends
      cases values with
      | nil =>
        cases ends
        exact .nil m
      | cons value rest =>
        obtain ⟨first, middle, force, ends⟩ := bind_eq_ok.mp ends
        obtain ⟨others, last, each, ⟨⟩⟩ := bind_eq_ok.mp ends
        exact .cons (deep _ _ _ _ resolved force)
          (all _ _ _ _ ((settles_run force).resolved resolved) each)

theorem Deepens.settles (deepens : m.Deepens value after m') : m.Settles m' :=
  full_settles deepens.full

theorem DeepensAll.settles (deepens : m.DeepensAll values afters m') : m.Settles m' :=
  full_settles deepens.full

/-- Values are forced deep one after another if each can be when those before it are. -/
theorem DeepensAll.of_each : ∀ {values : List Value} {m : Machine},
    (∀ before item rest, values = before ++ item :: rest ->
      ∀ done later, m.DeepensAll before done later ->
        ∃ after last, later.Deepens item after last) ->
      ∃ afters m', m.DeepensAll values afters m'
  | [], m, _ => ⟨[], m, .nil m⟩
  | value :: rest, m, each => by
    obtain ⟨after, middle, first⟩ := each [] value rest rfl [] m (.nil m)
    have later : ∃ afters m', middle.DeepensAll rest afters m' := by
      refine DeepensAll.of_each fun before item others split done later deepens => ?_
      exact each (value :: before) item others (congrArg _ split) _ later (.cons first deepens)
    obtain ⟨afters, m', others⟩ := later
    exact ⟨after :: afters, m', .cons first others⟩

/-- The deep forces of some values and of those behind them. -/
theorem DeepensAll.split : ∀ {before rest afters : List Value} {m m' : Machine},
    m.DeepensAll (before ++ rest) afters m' -> ∃ done others middle,
      m.DeepensAll before done middle ∧ middle.DeepensAll rest others m' ∧ afters = done ++ others
  | [], _, afters, m, _, all => ⟨[], afters, m, .nil m, all, rfl⟩
  | _ :: _, _, _, _, _, .cons first each => by
    obtain ⟨done, others, middle, front, back, rfl⟩ := each.split
    exact ⟨_, others, middle, .cons first front, back, rfl⟩

/-! ## Ways -/

variable {inner : Value} {way : List Nat} {ref : Nat}

theorem Opens.meets (opens : m.Opens value way inner m') : m.Meets value way inner m' :=
  way.append_nil ▸ .inside opens (.itself m' inner)

theorem Meets.trans {last : Value} {more : List Nat} (first : m.Meets value way inner middle)
    (second : middle.Meets inner more last m') : m.Meets value (way ++ more) last m' := by
  induction first with
  | itself => exact second
  | inside opens _ ih => exact List.append_assoc _ _ _ ▸ .inside opens (ih second)

/-- What a deep force comes to is in order if it begins with what is in order. -/
theorem Orderly.meets (orderly : m.Orderly value)
    (meets : m.Meets value way inner m') : m'.Orderly inner where
  known _ ref last later := orderly.known _ ref last (meets.trans later)
  idle _ ref last later := orderly.idle _ ref last (meets.trans later)
  ends _ ref thunk last later := orderly.ends _ ref thunk last (meets.trans later)
  acyclic _ ref last later := orderly.acyclic _ ref last (meets.trans later)

/-- Each of the values is in order when those before it are forced deep. -/
def OrderlyAll (m : Machine) (values : List Value) : Prop :=
  ∀ before item rest done m', values = before ++ item :: rest ->
    (Task.forceAll before).full m = some (.ok done, m') -> m'.Orderly item

theorem Orderly.all (orderly : m.Orderly value) (plain : value.isPromise = false) :
    m.OrderlyAll (m.contents value) :=
  fun _ _ _ _ _ holds forces => orderly.meets (Opens.item plain holds forces).meets

theorem OrderlyAll.head (orderly : m.OrderlyAll (value :: values)) : m.Orderly value :=
  orderly [] value values [] m rfl full_forceAll_nil

/-- When the first of values in order is forced deep, the others are in order. -/
theorem OrderlyAll.tail (orderly : m.OrderlyAll (value :: values))
    (first : m.Deepens value after middle) : middle.OrderlyAll values :=
  fun before item rest _ m' split forces =>
    orderly (value :: before) item rest _ m' (congrArg _ split)
      (full_forceAll_cons first.full forces)

/-- The ways on which deep forces of the values, one after another, come to others. -/
def waysAll (m : Machine) (values : List Value) : Set (List Nat) :=
  {way | ∃ before item rest done m', values = before ++ item :: rest ∧
    (Task.forceAll before).full m = some (.ok done, m') ∧ way ∈ m'.ways item}

/-- Ways of a promise pass it and are then ways of its value. -/
theorem ways_promise (forces : (Task.force (.promise ref)).full m = some (.ok value, m')) :
    m.ways (.promise ref) = insert [] ((ref :: ·) '' m'.ways value) := by
  refine Set.Subset.antisymm ?_ (Set.insert_subset ⟨_, _, .itself m _⟩ ?_)
  · rintro _ ⟨inner, last, meets⟩
    cases meets with
    | itself => exact Set.mem_insert _ _
    | inside opens meets =>
      cases opens with
      | item plain => cases plain
      | promise forces' =>
        cases full_unique forces forces'
        exact Set.mem_insert_of_mem _ ⟨_, ⟨_, _, meets⟩, rfl⟩
  · rintro _ ⟨way, ⟨inner, last, meets⟩, rfl⟩
    exact ⟨inner, last, .inside (.promise forces) meets⟩

/-- Ways of other values are those of what they hold. -/
theorem ways_plain (plain : value.isPromise = false) :
    m.ways value = insert [] (m.waysAll (m.contents value)) := by
  refine Set.Subset.antisymm ?_ (Set.insert_subset ⟨_, _, .itself m _⟩ ?_)
  · rintro _ ⟨inner, last, meets⟩
    cases meets with
    | itself => exact Set.mem_insert _ _
    | inside opens meets =>
      cases opens with
      | promise => cases plain
      | item plain holds forces =>
        exact Set.mem_insert_of_mem _ ⟨_, _, _, _, _, holds, forces, _, _, meets⟩
  · rintro way ⟨before, item, rest, done, m', holds, forces, inner, last, meets⟩
    exact ⟨inner, last, .inside (.item plain holds forces) meets⟩

/-- No values have no ways. -/
theorem waysAll_nil : m.waysAll [] = ∅ := by
  refine Set.eq_empty_of_forall_notMem ?_
  rintro way ⟨before, item, rest, -, -, split, -⟩
  cases before <;> cases split

/-- Ways of several values are those of the first, and those of the others after it. -/
theorem waysAll_cons (first : m.Deepens value after middle) :
    m.waysAll (value :: values) = m.ways value ∪ middle.waysAll values := by
  refine Set.Subset.antisymm ?_ (Set.union_subset ?_ ?_)
  · rintro way ⟨before, item, rest, done, m', split, forces, inside⟩
    cases before with
    | nil =>
      cases split
      cases full_unique forces full_forceAll_nil
      exact .inl inside
    | cons other before =>
      cases split
      obtain ⟨others, forces⟩ := full_forceAll_tail first.full forces
      exact .inr ⟨before, item, rest, others, m', rfl, forces, inside⟩
  · rintro way inside
    exact ⟨[], value, values, [], m, rfl, full_forceAll_nil, inside⟩
  · rintro way ⟨before, item, rest, done, m', split, forces, inside⟩
    exact ⟨value :: before, item, rest, _, m', congrArg _ split,
      full_forceAll_cons first.full forces,
      inside⟩

/-- What is neither promise, list nor tuple holds nothing. -/
theorem contents_atom (promise : value.isPromise = false) (list : ∀ ref, value ≠ .list ref)
    (tuple : ∀ items, value ≠ .tuple items) : m.contents value = [] := by
  cases value with
  | promise ref => cases promise
  | list ref => exact absurd rfl (list ref)
  | tuple items => exact absurd rfl (tuple items)
  | _ => rfl

/-! ### Deep forces end -/

mutual

/-- A deep force that answers has come to others on finitely many ways, for it has passed each. -/
theorem Deepens.finite_ways {m m' : Machine} {value after : Value} :
    m.Deepens value after m' -> (m.ways value).Finite
  | .promise forces _ inside => by
    rw [ways_promise forces]
    exact (inside.finite_ways.image _).insert _
  | .list each | .tuple each => by
    rw [ways_plain rfl]
    exact each.finite_waysAll.insert _
  | .atom promise list tuple => by
    rw [ways_plain promise, contents_atom promise list tuple, waysAll_nil]
    exact Set.finite_empty.insert _

theorem DeepensAll.finite_waysAll {m m' : Machine} {values afters : List Value} :
    m.DeepensAll values afters m' -> (m.waysAll values).Finite
  | .nil _ => by
    rw [waysAll_nil]
    exact Set.finite_empty
  | .cons first each => by
    rw [waysAll_cons first]
    exact first.finite_ways.union each.finite_waysAll

end

/-- The promises on the ways that have no value yet. -/
def waiting (m : Machine) (ways : Set (List Nat)) : Set Nat :=
  {ref | (∃ way ∈ ways, ref ∈ way) ∧ ∀ value, m.promise ref ≠ .forced value}

section Waiting

variable {fewer more : Set (List Nat)}

/-- Finitely many ways pass finitely many promises. -/
theorem finite_waiting (finite : more.Finite) : (m.waiting more).Finite := by
  refine (finite.biUnion fun way _ => way.finite_toSet).subset ?_
  rintro ref ⟨⟨way, inside, member⟩, -⟩
  exact Set.mem_biUnion inside member

/-- Later, and on fewer ways, fewer promises wait. -/
theorem waiting_subset (among : fewer ⊆ more) (remembers : m.Remembers m') :
    m'.waiting fewer ⊆ m.waiting more := by
  rintro ref ⟨⟨way, inside, member⟩, waits⟩
  exact ⟨⟨way, among inside, member⟩, fun value forced => waits value (remembers ref value forced)⟩

theorem waiting_ssubset (among : fewer ⊆ more) (remembers : m.Remembers m') {ref : Nat}
    (waits : ref ∈ m.waiting more) (forced : m'.promise ref = .forced value) :
    m'.waiting fewer ⊂ m.waiting more :=
  ⟨waiting_subset among remembers, fun all => (all waits).2 value forced⟩

end Waiting

/-- A promise that waited has got its value, or there are as many lists as before. -/
def Progresses (m : Machine) (ways : Set (List Nat)) (m' : Machine) : Prop :=
  m'.lists.size = m.lists.size ∨ ∃ ref ∈ m.waiting ways, ∃ value, m'.promise ref = .forced value

theorem Progresses.mono {fewer more : Set (List Nat)} (progresses : middle.Progresses fewer m')
    (among : fewer ⊆ more) (remembers : m.Remembers middle)
    (same : middle.lists.size = m.lists.size) : m.Progresses more m' := by
  rcases progresses with size | ⟨ref, waits, forced⟩
  · exact .inl (size.trans same)
  · exact .inr ⟨ref, waiting_subset among remembers waits, forced⟩

/-- A promise that is forced waited, unless its value is what is forced deep then. -/
theorem Progresses.promise (forces : (Task.force (.promise ref)).full m = some (.ok value, middle))
    (settles : middle.Settles m') (inside : middle.Progresses (middle.ways value) m') :
    m.Progresses (m.ways (.promise ref)) m' := by
  by_cases state : ∃ value, m.promise ref = .forced value
  · obtain ⟨known, state⟩ := state
    cases full_unique forces (full_force_of_forced state)
    rw [ways_promise forces]
    rcases inside with size | ⟨other, ⟨⟨way, member, passed⟩, waits⟩, forced⟩
    · exact .inl size
    · have longer : ref :: way ∈ insert [] ((ref :: ·) '' m.ways value) := .inr ⟨way, member, rfl⟩
      exact .inr ⟨other, ⟨⟨_, longer, List.mem_cons_of_mem _ passed⟩, waits⟩, forced⟩
  · have way : [ref] ∈ m.ways (.promise ref) := ⟨_, _, (Opens.promise forces).meets⟩
    have settled := settles.sustains.remembers ref value (full_force_forced forces)
    exact .inr ⟨ref, ⟨⟨_, way, List.mem_singleton_self ref⟩, fun value known =>
      state ⟨value, known⟩⟩, value, settled⟩

theorem Progresses.items (value : Value) (plain : value.isPromise = false)
    (each : m.Progresses (m.waysAll (m.contents value)) m') : m.Progresses (m.ways value) m' := by
  rw [ways_plain plain]
  exact each.mono (Set.subset_insert _ _) (fun _ _ => id) rfl

mutual

/-- A deep force settles a promise that waited, unless it makes no list. -/
theorem Deepens.progresses {m m' : Machine} {value after : Value} :
    m.Deepens value after m' -> m.Progresses (m.ways value) m'
  | .promise forces _ inside => .promise forces inside.settles inside.progresses
  | .list each => (Progresses.items (.list _) rfl each.progresses).imp_left
    Array.size_setIfInBounds.trans
  | .tuple each => .items (.tuple _) rfl each.progresses
  | .atom _ _ _ => .inl rfl

theorem DeepensAll.progresses {m m' : Machine} {values afters : List Value} :
    m.DeepensAll values afters m' -> m.Progresses (m.waysAll values) m'
  | .nil _ => .inl rfl
  | .cons first each => by
    have remembers := first.settles.sustains.remembers
    rw [waysAll_cons first]
    rcases first.progresses with size | ⟨ref, waits, value, forced⟩
    · exact each.progresses.mono Set.subset_union_right remembers size
    · have still := each.settles.sustains.remembers ref value forced
      exact .inr ⟨ref, waiting_subset Set.subset_union_left (fun _ _ => id) waits, value, still⟩

end

/-- What is in order can be forced. -/
theorem Orderly.forces (orderly : m.Orderly value) :
    ∃ forced middle, (Task.force value).full m = some (.ok forced, middle) := by
  by_cases promise : value.isPromise = true
  · cases value with
    | promise ref =>
      cases state : m.promise ref with
      | pending thunk =>
        obtain ⟨forced, middle, forces, -⟩ := orderly.ends _ ref thunk m (.itself m _) state
        exact ⟨forced, middle, forces⟩
      | forcing => exact absurd state (orderly.idle _ ref m (.itself m _))
      | forced forced => exact ⟨forced, m, full_force_of_forced state⟩
    | _ => cases promise
  · exact ⟨value, m, full_force (ne_promise (Bool.eq_false_of_not_eq_true promise))⟩

/-- What it is forced to is in order. -/
theorem Orderly.forced {forced : Value} (orderly : m.Orderly value)
    (forces : (Task.force value).full m = some (.ok forced, middle)) : middle.Orderly forced := by
  by_cases promise : value.isPromise = true
  · cases value with
    | promise ref => exact orderly.meets (Opens.promise forces).meets
    | _ => cases promise
  · cases full_unique forces (full_force (ne_promise (Bool.eq_false_of_not_eq_true promise)))
    exact orderly

/-- A force of what is in order does not fail. -/
theorem Orderly.force_ok {n : Nat} {result : Except EvalError Value} (orderly : m.Orderly value)
    (ends : (Task.force value).run n m = some (result, m')) : ∃ forced, result = .ok forced := by
  obtain ⟨forced, middle, forces⟩ := orderly.forces
  cases full_unique (Task.run_le_full n _ _ _ ends) forces
  exact ⟨forced, rfl⟩

/-- Deep forces of what is in order do not fail. -/
theorem orderly_run (n : Nat) :
    (∀ value m result m', m.Resolved -> m.Orderly value ->
      (Task.forceDeep value).run n m = some (result, m') -> ∃ after, result = .ok after) ∧
    ∀ values m result m', m.Resolved -> m.OrderlyAll values ->
      (Task.forceAll values).run n m = some (result, m') -> ∃ afters, result = .ok afters := by
  induction n with
  | zero => exact ⟨fun _ _ _ _ _ _ => nofun, fun _ _ _ _ _ _ => nofun⟩
  | succ n ih =>
    obtain ⟨deep, all⟩ := ih
    constructor
    · intro value m result m' resolved orderly ends
      rw [Task.run_succ] at ends
      cases Plan.run_forceDeep ends with
      | fails force => exact absurd (orderly.force_ok force) (by simp)
      | plain | list | tuple => exact ⟨_, rfl⟩
      | listFails force each =>
        have inside := (orderly.forced (Task.run_le_full n _ _ _ force)).all rfl
        exact absurd (all _ _ _ _ ((settles_run force).resolved resolved) inside each) (by simp)
      | tupleFails force each =>
        have inside := (orderly.forced (Task.run_le_full n _ _ _ force)).all rfl
        exact absurd (all _ _ _ _ ((settles_run force).resolved resolved) inside each) (by simp)
    · intro values m result m' resolved orderly ends
      rw [Task.run_succ] at ends
      cases values with
      | nil =>
        cases ends
        exact ⟨_, rfl⟩
      | cons value rest =>
        rcases bind_eq_some.mp ends with ⟨after, middle, first, ends⟩ | ⟨error, last, first, equal⟩
        · rcases bind_eq_some.mp ends with ⟨others, last, each, ends⟩ | ⟨error, last, each, equal⟩
          · cases ends
            exact ⟨_, rfl⟩
          · have rest := orderly.tail ((deepens_run n).1 _ _ _ _ resolved first)
            exact absurd (all _ _ _ _ ((settles_run first).resolved resolved) rest each) (by simp)
        · exact absurd (deep _ _ _ _ resolved orderly.head first) (by simp)

/-- What is left to be forced when the items before one are forced deep. -/
theorem item_ways {item : Value} {before rest done : List Value} (value : Value)
    (plain : value.isPromise = false) (holds : m.contents value = before ++ item :: rest)
    (front : m.DeepensAll before done middle) :
    middle.ways item ⊆ m.ways value ∧
      (middle.lists.size = m.lists.size ∧
        middle.waiting (middle.ways item) ⊆ m.waiting (m.ways value) ∨
      middle.waiting (middle.ways item) ⊂ m.waiting (m.ways value)) := by
  have remembers := front.settles.sustains.remembers
  have among : middle.ways item ⊆ m.ways value := by
    rintro way ⟨inner, last, meets⟩
    exact ⟨inner, last, .inside (.item plain holds front.full) meets⟩
  have others : m.waysAll before ⊆ m.ways value := by
    rw [ways_plain plain, holds]
    rintro way ⟨earlier, other, between, done, m', rfl, forces, inside⟩
    exact .inr ⟨earlier, other, between ++ item :: rest, done, m', by simp, forces, inside⟩
  refine ⟨among, ?_⟩
  rcases front.progresses with size | ⟨ref, waits, forced, settled⟩
  · exact .inl ⟨size, waiting_subset among remembers⟩
  · have waits := waiting_subset others (fun _ _ => id) waits
    exact .inr (waiting_ssubset among remembers waits settled)

/-- The lists that have been passed on the path to the value. A deep force of it does not come to
them again. -/
structure Passed (m : Machine) (value : Value) (passed : Finset Nat) : Prop where
  known : ∀ ref ∈ passed, ref < m.lists.size
  apart : ∀ ref ∈ passed, ∀ way m', ¬ m.Meets value way (.list ref) m'

namespace Passed

variable {passed : Finset Nat} {inner : Value} {way : List Nat}

theorem empty (m : Machine) (value : Value) : m.Passed value ∅ where
  known := by simp
  apart := by simp

theorem card_le (so : m.Passed value passed) : passed.card ≤ m.lists.size := by
  rw [← Finset.card_range m.lists.size]
  exact Finset.card_le_card fun ref member => Finset.mem_range.mpr (so.known ref member)

theorem opens (so : m.Passed value passed) (opens : m.Opens value way inner middle)
    (size : middle.lists.size = m.lists.size) : middle.Passed inner passed where
  known ref member := size ▸ so.known ref member
  apart ref member _ last meets := so.apart ref member _ last (.inside opens meets)

variable {ref : Nat}

/-- A list is passed on the path to its items, which cannot come back to it. -/
theorem insert (so : m.Passed (.list ref) passed) (orderly : m.Orderly (.list ref))
    (opens : m.Opens (.list ref) way inner middle) (size : middle.lists.size = m.lists.size) :
    middle.Passed inner (insert ref passed) where
  known := by
    refine Finset.forall_mem_insert _ _ _ |>.mpr ⟨?_, (so.opens opens size).known⟩
    exact size ▸ orderly.known _ ref m (.itself m _)
  apart := by
    refine Finset.forall_mem_insert _ _ _ |>.mpr ⟨?_, (so.opens opens size).apart⟩
    exact fun _ last => orderly.acyclic _ ref m (.itself m _) _ _ _ opens _ last

/-- Another list is passed, and there are not more lists than before. -/
theorem card_insert_lt (so : m.Passed (.list ref) passed)
    (so' : middle.Passed inner (Insert.insert ref passed))
    (size : middle.lists.size = m.lists.size) :
    middle.lists.size - (Insert.insert ref passed).card < m.lists.size - passed.card := by
  have new : ref ∉ passed := fun member => so.apart ref member [] m (.itself m _)
  have bound := so'.card_le
  rw [Finset.card_insert_of_notMem new] at bound ⊢
  omega

end Passed

/-- A deep force of what is in order ends, if it comes to others on finitely many ways: with each
promise on the path there are fewer ways left. In between, promises get their values, or no list is
made and another one is passed. -/
theorem Orderly.deepens {m : Machine} {value : Value} {passed : Finset Nat} (resolved : m.Resolved)
    (orderly : m.Orderly value) (finite : (m.ways value).Finite) (so : m.Passed value passed) :
    ∃ after m', m.Deepens value after m' := by
  match value with
  | .promise ref =>
    obtain ⟨forced, middle, forces⟩ := orderly.forces
    have shape := ways_promise forces
    have finite' : (middle.ways forced).Finite := by
      rw [shape, Set.finite_insert] at finite
      exact finite.of_finite_image List.cons_injective.injOn
    have fewer : (middle.ways forced).ncard < (m.ways (.promise ref)).ncard := by
      rw [shape, Set.ncard_insert_of_notMem (by simp) (finite'.image _),
        Set.ncard_image_of_injective _ List.cons_injective]
      exact Nat.lt_succ_self _
    obtain ⟨after, m', inside⟩ := Orderly.deepens ((full_settles forces).resolved resolved)
      (orderly.forced forces) finite' (.empty middle forced)
    exact ⟨after, m', .promise forces (full_force_plain resolved forces) inside⟩
  | .list ref =>
    have all : ∃ afters m', m.DeepensAll (m.items ref).toList afters m' := by
      refine DeepensAll.of_each fun before item rest split done middle front => ?_
      have opens : m.Opens (.list ref) [] item middle := .item rfl split front.full
      obtain ⟨among, left⟩ := item_ways (.list ref) rfl split front
      have ways := Set.ncard_le_ncard among finite
      have resolved' := front.settles.resolved resolved
      rcases left with ⟨size, left⟩ | left
      · have waits := Set.ncard_le_ncard left (finite_waiting finite)
        have so' := so.insert orderly opens size
        have card := so.card_insert_lt so' size
        exact Orderly.deepens resolved' (orderly.meets opens.meets) (finite.subset among) so'
      · have fewer := Set.ncard_lt_ncard left (finite_waiting finite)
        exact Orderly.deepens resolved' (orderly.meets opens.meets) (finite.subset among)
          (.empty middle item)
    obtain ⟨afters, m', each⟩ := all
    exact ⟨_, _, .list each⟩
  | .tuple items =>
    have all : ∃ afters m', m.DeepensAll items afters m' := by
      refine DeepensAll.of_each fun before item rest split done middle front => ?_
      have opens : m.Opens (.tuple items) [] item middle := .item rfl split front.full
      obtain ⟨among, left⟩ := item_ways (.tuple items) rfl split front
      have ways := Set.ncard_le_ncard among finite
      have resolved' := front.settles.resolved resolved
      rcases left with ⟨size, left⟩ | left
      · have waits := Set.ncard_le_ncard left (finite_waiting finite)
        have smaller : sizeOf item < sizeOf items := List.sizeOf_lt_of_mem (by simp [split])
        exact Orderly.deepens resolved' (orderly.meets opens.meets) (finite.subset among)
          (so.opens opens size)
      · have fewer := Set.ncard_lt_ncard left (finite_waiting finite)
        exact Orderly.deepens resolved' (orderly.meets opens.meets) (finite.subset among)
          (.empty middle item)
    obtain ⟨afters, m', each⟩ := all
    exact ⟨_, _, .tuple each⟩
  | .nil | .bool _ | .int _ | .str _ | .func _ | .jump _ => exact ⟨_, m, .atom rfl nofun nofun⟩
termination_by ((m.ways value).ncard, (m.waiting (m.ways value)).ncard,
  m.lists.size - passed.card, value)
decreasing_by
  · exact Prod.Lex.left _ _ fewer
  · exact Prod.Lex.right' _ ways (Prod.Lex.right' _ waits (Prod.Lex.left _ _ card))
  · exact Prod.Lex.right' _ ways (Prod.Lex.left _ _ fewer)
  · rw [size]
    refine Prod.Lex.right' _ ways (Prod.Lex.right' _ waits (Prod.Lex.right _ ?_))
    rw [Value.tuple.sizeOf_spec]
    omega
  · exact Prod.Lex.right' _ ways (Prod.Lex.left _ _ fewer)

/-- A deep force of what is in order ends exactly if it comes to others on finitely many ways. -/
theorem Orderly.finite_iff (orderly : m.Orderly value) (resolved : m.Resolved) :
    (m.ways value).Finite ↔ ∃ n outcome, (Task.forceDeep value).run n m = some outcome := by
  constructor
  · intro finite
    obtain ⟨after, m', deepens⟩ := orderly.deepens resolved finite (.empty m value)
    obtain ⟨n, ends⟩ := Task.full_eq_some.mp deepens.full
    exact ⟨n, _, ends⟩
  · rintro ⟨n, ⟨result, m'⟩, ends⟩
    obtain ⟨after, rfl⟩ := (orderly_run n).1 _ _ _ _ resolved orderly ends
    exact ((deepens_run n).1 _ _ _ _ resolved ends).finite_ways

end Machine

end Trampoline
