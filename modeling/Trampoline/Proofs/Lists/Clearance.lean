import Trampoline.Proofs.Lists.Depths
import Trampoline.Proofs.Promises.Sessions

/-!
# Deep forces are complete

A deep force of a value in order clears it: no promise is left in its lists and tuples, though lists
are the ones that they were, however often they are come to. A value that is clear stays so during
other deep forces. A deep force of it does nothing. A promise whose value holds the promise again is
in order too, but it is never cleared.
-/

namespace Trampoline

open Exec

namespace Machine

variable {m middle last m' : Machine} {ref : Nat} {value after : Value}
  {values afters items : List Value}

/-! ## Values with all promises replaced -/

mutual

/-- A value without promises is replaced by itself only. -/
theorem Replaces.eq_of_free {m : Machine} {value after : Value} :
    m.Replaces value after -> value.PromiseFree -> after = value
  | .same _, _ => rfl
  | .tuple each, free => congrArg _ (each.eq_of_free free)

/-- Values without promises are replaced by themselves only. -/
theorem ReplacesAll.eq_of_free {m : Machine} {values afters : List Value} :
    m.ReplacesAll values afters -> AllPromiseFree values -> afters = values
  | .nil, _ => rfl
  | .cons first each, free => congrArg₂ _ (first.eq_of_free free.1) (each.eq_of_free free.2)

end

mutual

/-- There is one value that a value is if all promises are replaced. -/
theorem Replaces.unique {m : Machine} {value after other : Value} :
    m.Replaces value after -> m.Replaces value other -> after.PromiseFree -> other.PromiseFree ->
      after = other
  | .same _, second, free, _ => (second.eq_of_free free).symm
  | first, .same _, _, free => first.eq_of_free free
  | .promise forced inside, .promise forced' inside', free, free' => by
    cases forced.symm.trans forced'
    exact inside.unique inside' free free'
  | .tuple each, .tuple each', free, free' => congrArg _ (each.unique each' free free')

/-- Two replacements of the same values that leave no promises agree. -/
theorem ReplacesAll.unique {m : Machine} {values afters others : List Value} :
    m.ReplacesAll values afters -> m.ReplacesAll values others -> AllPromiseFree afters ->
      AllPromiseFree others -> afters = others
  | .nil, .nil, _, _ => rfl
  | .cons first each, .cons first' each', free, free' =>
    congrArg₂ _ (first.unique first' free.1 free'.1) (each.unique each' free.2 free'.2)

end

/-- Values are free of promises if each of them is. -/
theorem allPromiseFree_iff {values : List Value} :
    AllPromiseFree values ↔ ∀ value ∈ values, value.PromiseFree := by
  induction values with
  | nil => simp [AllPromiseFree]
  | cons value rest ih => simp [AllPromiseFree, ih]

/-! ## Clear values -/

/-- No promise is in the value, through lists and tuples. Lists exist, and are not inside
themselves. -/
inductive Clear (m : Machine) : Value -> Prop where
  | intro {value : Value} (plain : value.isPromise = false)
      (known : ∀ ref, value = .list ref -> ref < m.lists.size)
      (inside : ∀ inner ∈ m.contents value, Clear m inner) : Clear m value

namespace Clear

/-- A clear value is no promise. -/
theorem plain (clear : m.Clear value) : value.isPromise = false := by
  cases clear with
  | intro plain => exact plain

/-- A clear list exists. -/
theorem known (clear : m.Clear (.list ref)) : ref < m.lists.size := by
  cases clear with
  | intro _ known => exact known ref rfl

variable {inner : Value}

/-- What a clear value holds is clear. -/
theorem inside (clear : m.Clear value) (holds : m.Includes value inner) : m.Clear inner := by
  cases clear with
  | intro _ _ inside => exact inside inner holds

/-- A tuple of clear items is clear. -/
theorem tuple (each : ∀ item ∈ items, m.Clear item) : m.Clear (.tuple items) :=
  .intro rfl (by simp) each

/-- What holds nothing and is no promise is clear. -/
theorem atom (promise : value.isPromise = false) (list : ∀ ref, value ≠ .list ref)
    (tuple : ∀ items, value ≠ .tuple items) : m.Clear value := by
  refine .intro promise (fun ref same => absurd same (list ref)) fun inner member => ?_
  rw [contents_atom promise list tuple] at member
  cases member

/-- Whatever can be reached in a clear value is clear. -/
theorem reached (clear : m.Clear value)
    (path : Relation.ReflTransGen m.Includes value inner) : m.Clear inner := by
  induction path with
  | refl => exact clear
  | tail _ holds ih => exact ih.inside holds

/-- A clear value is free of promises. -/
theorem promiseFree (clear : m.Clear value) : value.PromiseFree := by
  induction clear with
  | @intro value plain _ _ ih =>
    cases value with
    | promise ref => cases plain
    | tuple items => exact allPromiseFree_iff.mpr ih
    | _ => trivial

/-- What a value that is no promise holds depends on the items of that list alone. -/
theorem contents_eq (plain : value.isPromise = false)
    (same : ∀ ref, value = .list ref -> m'.items ref = m.items ref) :
    m'.contents value = m.contents value := by
  cases value with
  | promise ref => cases plain
  | list ref => exact congrArg Array.toList (same ref rfl)
  | _ => rfl

/-- What is clear stays clear if its lists stay as they are. -/
theorem mono (clear : m.Clear value) (size : m.lists.size ≤ m'.lists.size)
    (same : ∀ ref, m.Clear (.list ref) -> m'.items ref = m.items ref) : m'.Clear value := by
  induction clear with
  | @intro value plain known inside ih =>
    have clear : m.Clear value := .intro plain known inside
    refine .intro plain (fun ref list => Nat.lt_of_lt_of_le (known ref list) size) ?_
    rw [contents_eq plain fun ref list => same ref (list ▸ clear)]
    exact ih

end Clear

/-! ## What deep forces do to the machine -/

/-- From one machine to a later one, lists stayed as they were or had all their promises replaced,
and what was clear stayed so. -/
structure Advances (m m' : Machine) : Prop where
  settles : m.Settles m'
  size : m.lists.size ≤ m'.lists.size
  changed : ∀ ref < m.lists.size, m'.items ref = m.items ref ∨
    m'.ReplacesAll (m.items ref).toList (m'.items ref).toList ∧ AllPromiseFree (m'.items ref).toList
  clear : ∀ value, m.Clear value -> m'.Clear value

/-- Writing one list back leaves the others as they are. -/
theorem items_setItems_of_ne {other : Nat} (different : other ≠ ref) (items : List Value)
    (last : Machine) : ((Effect.setItems other items).on last).items ref = last.items ref := by
  simp [Effect.on, Machine.items, Array.getD_eq_getD_getElem?,
    Array.getElem?_setIfInBounds_ne different]

namespace Advances

/-- A machine that settled and kept the lists it had has advanced. -/
theorem of_same (settles : m.Settles m') (size : m.lists.size ≤ m'.lists.size)
    (same : ∀ ref < m.lists.size, m'.items ref = m.items ref) : m.Advances m' where
  settles := settles
  size := size
  changed ref known := .inl (same ref known)
  clear _ clear := clear.mono size fun ref list => same ref list.known

/-- A machine that did nothing has advanced. -/
theorem refl (m : Machine) : m.Advances m := .of_same (.refl m) (Nat.le_refl _) fun _ _ => rfl

/-- Advances follow one another: what was replaced without promises left is not replaced again. -/
theorem trans (first : m.Advances middle) (second : middle.Advances m') : m.Advances m' where
  settles := first.settles.trans second.settles
  size := Nat.le_trans first.size second.size
  changed ref known := by
    have remembers := second.settles.sustains.remembers
    rcases second.changed ref (Nat.lt_of_lt_of_le known first.size) with same | ⟨replaced, free⟩
    · rw [same]
      exact (first.changed ref known).imp_right fun ⟨replaced, free⟩ =>
        ⟨replaced.mono remembers, free⟩
    · rcases first.changed ref known with same | ⟨before, -⟩
      · exact .inr ⟨same ▸ replaced, free⟩
      · exact .inr ⟨(before.mono remembers).trans replaced, free⟩
  clear value clear := second.clear value (first.clear value clear)

/-- After an advance a list holds what it held, with promises replaced. -/
theorem replaces (advances : m.Advances m') (known : ref < m.lists.size) :
    m'.ReplacesAll (m.items ref).toList (m'.items ref).toList := by
  rcases advances.changed ref known with same | ⟨replaced, -⟩
  · exact same ▸ .refl _
  · exact replaced

/-- The items of a list are written back, all of them forced deep since they were read. A list that
is clear by then has them already. -/
theorem setItems (advances : m.Advances last) (known : ref < m.lists.size)
    (replaced : last.ReplacesAll (m.items ref).toList items) (free : AllPromiseFree items) :
    last.Advances ((Effect.setItems ref items).on last) := by
  have inside : ref < last.lists.size := Nat.lt_of_lt_of_le known advances.size
  have written := items_setItems last items inside
  have remembers : last.Remembers ((Effect.setItems ref items).on last) := fun _ _ => id
  have settled : AllPromiseFree (last.items ref).toList -> items = (last.items ref).toList := by
    intro settled
    rcases advances.changed ref known with same | ⟨before, -⟩
    · exact (same ▸ replaced).eq_of_free settled
    · exact replaced.unique before free settled
  have size : last.lists.size ≤ ((Effect.setItems ref items).on last).lists.size := by
    simp [Effect.on]
  constructor
  case settles => exact .of_eq rfl
  case size => exact size
  case changed =>
    intro other inside
    by_cases same : ref = other
    · subst same
      rw [written, List.toList_toArray]
      refine .inr ⟨ReplacesAll.mono remembers ?_, free⟩
      rcases advances.changed ref known with same | ⟨before, settled'⟩
      · exact same ▸ replaced
      · rw [settled settled']
        exact .refl _
    · exact .inl (items_setItems_of_ne same items last)
  case clear =>
    intro value clear
    refine clear.mono size fun other list => ?_
    by_cases same : ref = other
    · subst same
      have settled' : AllPromiseFree (last.items ref).toList :=
        allPromiseFree_iff.mpr fun item member => (list.inside member).promiseFree
      rw [written, settled settled', Array.toArray_toList]
    · exact items_setItems_of_ne same items last

end Advances

/-- No task takes lists away. -/
theorem full_known {task : Task} {result : Except EvalError task.Answer}
    (ends : task.full m = some (result, m')) : m.lists.size ≤ m'.lists.size := by
  obtain ⟨n, ends⟩ := Task.full_eq_some.mp ends
  refine Nat.le_of_not_lt fun fewer => ?_
  exact Nat.lt_irrefl _ ((Updating.tasks _ n task m result m' ends).known fewer)

/-- What is in order is forced without a change to the lists there are. -/
theorem Orderly.advances {forced : Value} (orderly : m.Orderly value)
    (forces : (Task.force value).full m = some (.ok forced, middle)) : m.Advances middle := by
  by_cases promise : value.isPromise = true
  · cases value with
    | promise ref =>
      cases state : m.promise ref with
      | pending thunk =>
        obtain ⟨forced, last, ends, same⟩ := orderly.ends _ ref thunk m (.itself m _) state
        cases full_unique forces ends
        exact .of_same (full_settles forces) (full_known forces) same
      | forcing => exact absurd state (orderly.idle _ ref m (.itself m _))
      | forced value =>
        cases full_unique forces (full_force_of_forced state)
        exact .refl m
    | _ => cases promise
  · cases full_unique forces (full_force (ne_promise (Bool.eq_false_of_not_eq_true promise)))
    exact .refl m

/-- Deep forces of values, one after another, replace each of them. -/
theorem DeepensAll.replaces (deepens : m.DeepensAll values afters m') :
    m'.ReplacesAll values afters := by
  obtain ⟨n, ends⟩ := Task.full_eq_some.mp deepens.full
  exact ((forces_replace n).2 _ _ _ _ ends).1

/-- A deep force replaces the value by its answer. -/
theorem Deepens.replaces (deepens : m.Deepens value after m') : m'.Replaces value after := by
  obtain ⟨n, ends⟩ := Task.full_eq_some.mp deepens.full
  exact ((forces_replace n).1 _ _ _ _ ends).1

/-- Writing clear answers back to their list advances the machine. -/
theorem DeepensAll.setItems (each : m.DeepensAll (m.items ref).toList items last)
    (known : ref < m.lists.size) (advances : m.Advances last)
    (clear : ∀ item ∈ items, last.Clear item) :
    last.Advances ((Effect.setItems ref items).on last) :=
  advances.setItems known each.replaces
    (allPromiseFree_iff.mpr fun item member => (clear item member).promiseFree)

mutual

/-- A deep force of what is in order answers a clear value, and the machine advances. -/
theorem Deepens.clears {m m' : Machine} {value after : Value} : m.Deepens value after m' ->
    m.Orderly value -> m.Resolved -> m.Advances m' ∧ m'.Clear after
  | .promise forces _ inside, orderly, resolved => by
    have first := orderly.advances forces
    obtain ⟨advances, clear⟩ :=
      inside.clears (orderly.forced forces) (first.settles.resolved resolved)
    exact ⟨first.trans advances, clear⟩
  | @Deepens.list _ last ref items each, orderly, resolved => by
    obtain ⟨advances, clear⟩ := each.clears (orderly.all rfl) resolved
    have known : ref < m.lists.size := orderly.known _ ref m (.itself m _)
    have inside : ref < last.lists.size := Nat.lt_of_lt_of_le known advances.size
    have write := each.setItems known advances clear
    refine ⟨advances.trans write, .intro rfl ?_ ?_⟩
    · rintro _ ⟨⟩
      exact Nat.lt_of_lt_of_le inside write.size
    · rw [contents, items_setItems last items inside, List.toList_toArray]
      exact fun item member => write.clear item (clear item member)
  | .tuple each, orderly, resolved => by
    obtain ⟨advances, clear⟩ := each.clears (orderly.all rfl) resolved
    exact ⟨advances, .tuple clear⟩
  | .atom promise list tuple, _, _ => ⟨.refl m, .atom promise list tuple⟩

/-- Deep forces of values that are in order answer clear values, and the machine advances. -/
theorem DeepensAll.clears {m m' : Machine} {values afters : List Value} :
    m.DeepensAll values afters m' -> m.OrderlyAll values -> m.Resolved ->
      m.Advances m' ∧ ∀ after ∈ afters, m'.Clear after
  | .nil _, _, _ => ⟨.refl m, by simp⟩
  | .cons first each, orderly, resolved => by
    obtain ⟨advances, clear⟩ := first.clears orderly.head resolved
    obtain ⟨advances', clear'⟩ :=
      each.clears (orderly.tail first) (advances.settles.resolved resolved)
    exact ⟨advances.trans advances', List.forall_mem_cons.mpr ⟨advances'.clear _ clear, clear'⟩⟩

end

/-! ## What is come to on the way -/

/-- When some of the values have been forced deep, the rest is still in order. -/
theorem OrderlyAll.rest : ∀ {before : List Value} {done : List Value} {m : Machine},
    m.OrderlyAll (before ++ values) -> m.DeepensAll before done middle -> middle.OrderlyAll values
  | [], _, _, orderly, .nil _ => orderly
  | _ :: _, _, _, orderly, .cons first each => (orderly.tail first).rest each

variable {inner : Value} {way : List Nat}

/-- Coming to an inner value settles promises and takes nothing back. -/
theorem Opens.settles (opens : m.Opens value way inner m') : m.Settles m' := by
  cases opens with
  | promise forces => exact full_settles forces
  | item _ _ forces => exact full_settles forces

/-- Whatever a deep force comes to, promises have only been settled on the way. -/
theorem Meets.settles (meets : m.Meets value way inner m') : m.Settles m' := by
  induction meets with
  | itself => exact .refl _
  | inside opens _ ih => exact opens.settles.trans ih

/-- An item is forced deep between those before it and those behind it. -/
theorem DeepensAll.item {item : Value} {before rest done : List Value}
    (each : m.DeepensAll (before ++ item :: rest) afters m')
    (orderly : m.OrderlyAll (before ++ item :: rest)) (resolved : m.Resolved)
    (forces : (Task.forceAll before).full m = some (.ok done, middle)) :
    ∃ after later, middle.Deepens item after later ∧ later.Advances m' := by
  obtain ⟨done', others, middle', front, back, rfl⟩ := each.split
  cases full_unique forces front.full
  cases back with
  | cons first each =>
    have orderly' := orderly.rest front
    have resolved' := front.settles.resolved resolved
    have rest := each.clears (orderly'.tail first) (first.settles.resolved resolved')
    exact ⟨_, _, first, rest.1⟩

/-- What a deep force comes to is forced deep on the way to its end. -/
theorem Meets.deepens (meets : m.Meets value way inner middle)
    (deepens : m.Deepens value after m') (orderly : m.Orderly value) (resolved : m.Resolved) :
    ∃ done later, middle.Deepens inner done later ∧ later.Advances m' := by
  induction meets generalizing after m' with
  | itself => exact ⟨after, m', deepens, .refl m'⟩
  | @inside m middle last value item inner way more opens _ ih =>
    suffices ∃ done later, middle.Deepens item done later ∧ later.Advances m' by
      obtain ⟨done, later, first, advances⟩ := this
      obtain ⟨done', later', first', advances'⟩ :=
        ih first (orderly.meets opens.meets) (opens.settles.resolved resolved)
      exact ⟨done', later', first', advances'.trans advances⟩
    cases opens with
    | promise forces =>
      cases deepens with
      | promise forces' _ inside =>
        cases full_unique forces forces'
        exact ⟨after, m', inside, .refl m'⟩
      | atom promise => cases promise
    | item plain holds forces =>
      cases deepens with
      | promise => cases plain
      | list each =>
        have orderly' := orderly.all rfl
        have write := each.setItems (orderly.known _ _ m (.itself m _))
          (each.clears orderly' resolved).1 (each.clears orderly' resolved).2
        rw [contents] at holds orderly'
        rw [holds] at each orderly'
        obtain ⟨done, later, first, advances⟩ := each.item orderly' resolved forces
        exact ⟨done, later, first, advances.trans write⟩
      | tuple each =>
        have orderly' := orderly.all rfl
        rw [contents] at holds orderly'
        rw [holds] at each orderly'
        exact each.item orderly' resolved forces
      | atom promise list tuple =>
        rw [contents_atom promise list tuple] at holds
        simp at holds

/-- From the time when it is come to, lists are as they were but for promises replaced. -/
theorem Meets.advances (meets : m.Meets value way inner middle)
    (deepens : m.Deepens value after m') (orderly : m.Orderly value) (resolved : m.Resolved) :
    middle.Advances m' := by
  obtain ⟨done, later, first, advances⟩ := meets.deepens deepens orderly resolved
  have clears := first.clears (orderly.meets meets) (meets.settles.resolved resolved)
  exact clears.1.trans advances

/-- A promise that is come to has its value in the end. -/
theorem Meets.forced (meets : m.Meets value way (.promise ref) middle)
    (deepens : m.Deepens value after m') (orderly : m.Orderly value) (resolved : m.Resolved) :
    ∃ value, m'.promise ref = .forced value := by
  obtain ⟨done, later, first, advances⟩ := meets.deepens deepens orderly resolved
  cases first with
  | promise forces _ inside =>
    have settled := inside.settles.sustains.remembers ref _ (full_force_forced forces)
    exact ⟨_, advances.settles.sustains.remembers ref _ settled⟩
  | atom promise => cases promise

/-- Each of several replaced values has a replacement among the others. -/
theorem ReplacesAll.exists_of_mem {m : Machine} : ∀ {values afters : List Value},
    m.ReplacesAll values afters -> inner ∈ values -> ∃ after ∈ afters, m.Replaces inner after
  | _ :: _, _ :: _, .cons first each, member => by
    rcases List.mem_cons.mp member with rfl | member
    · exact ⟨_, List.mem_cons_self, first⟩
    · obtain ⟨after, inside, replaces⟩ := each.exists_of_mem member
      exact ⟨after, List.mem_cons_of_mem _ inside, replaces⟩

/-- What was in a value that is clear by now, but for promises replaced, is so too. -/
theorem Advances.includes (advances : m.Advances m') (replaces : m'.Replaces value after)
    (clear : m'.Clear after) (holds : m.Includes value inner) :
    ∃ after, m'.Replaces inner after ∧ m'.Clear after := by
  cases value with
  | promise ref =>
    simp only [Includes, contents] at holds
    split at holds
    · rename_i forced state
      obtain rfl := List.mem_singleton.mp holds
      have still := advances.settles.sustains.remembers ref _ state
      cases replaces with
      | same => cases clear.plain
      | promise forced inside =>
        cases still.symm.trans forced
        exact ⟨after, inside, clear⟩
    · cases holds
  | list ref =>
    cases replaces
    have known : ref < m.lists.size := by
      refine Nat.lt_of_not_le fun outside => ?_
      simp [Includes, contents, Machine.items, Array.getD_eq_getD_getElem?,
        Array.getElem?_eq_none outside] at holds
    obtain ⟨after, member, replaces⟩ := (advances.replaces known).exists_of_mem holds
    exact ⟨after, replaces, clear.inside member⟩
  | tuple items =>
    cases replaces with
    | same => exact ⟨inner, .same inner, clear.inside holds⟩
    | tuple each =>
      obtain ⟨after, member, replaces⟩ := each.exists_of_mem holds
      exact ⟨after, replaces, clear.inside member⟩
  | _ => cases holds

/-- A promise that could be reached in the beginning has its value in the end. -/
theorem Advances.forced (advances : m.Advances m') (replaces : m'.Replaces value after)
    (clear : m'.Clear after) (path : Relation.ReflTransGen m.Includes value (.promise ref)) :
    ∃ value, m'.promise ref = .forced value := by
  have all : ∀ inner, Relation.ReflTransGen m.Includes value inner ->
      ∃ after, m'.Replaces inner after ∧ m'.Clear after := by
    intro inner path
    induction path with
    | refl => exact ⟨after, replaces, clear⟩
    | tail _ holds ih =>
      obtain ⟨after, replaces, clear⟩ := ih
      exact advances.includes replaces clear holds
  obtain ⟨after, replaces, clear⟩ := all _ path
  cases replaces with
  | same => cases clear.plain
  | promise forced inside => exact ⟨_, forced⟩

/-! ## Deep forces of clear values -/

/-- Clear values are forced deep to themselves, and nothing happens. -/
theorem DeepensAll.of_clear (each : ∀ value ∈ values, m.Deepens value value m) :
    m.DeepensAll values values m := by
  induction values with
  | nil => exact .nil m
  | cons value rest ih =>
    obtain ⟨first, others⟩ := List.forall_mem_cons.mp each
    exact .cons first (ih others)

/-- Writing a list back as it is changes nothing. -/
theorem setItems_items (known : ref < m.lists.size) :
    (Effect.setItems ref (m.items ref).toList).on m = m := by
  have same : m.lists.setIfInBounds ref (m.items ref) = m.lists := by
    rw [Machine.items, Array.getD_eq_getD_getElem?, Array.getElem?_eq_getElem known,
      Option.getD_some, Array.setIfInBounds, dif_pos known, Array.set_getElem_self]
  simp only [Effect.on, Array.toArray_toList, same]

/-- A deep force of a clear value answers it and leaves everything as it is. -/
theorem Clear.deepens (clear : m.Clear value) : m.Deepens value value m := by
  induction clear with
  | @intro value plain known inside ih =>
    cases value with
    | promise ref => cases plain
    | list ref =>
      have each := Deepens.list (DeepensAll.of_clear ih)
      rwa [setItems_items (known ref rfl)] at each
    | tuple items => exact .tuple (.of_clear ih)
    | _ => exact .atom rfl nofun nofun

/-- On its way no thunk runs. -/
theorem clear_calls (k : Nat) :
    (∀ value, m.Clear value -> ∀ call ∈ (Task.forceDeep value).calls k m,
      ∀ thunk, call.task ≠ .runThunk thunk) ∧
    ∀ values, (∀ value ∈ values, m.Clear value) -> ∀ call ∈ (Task.forceAll values).calls k m,
      ∀ thunk, call.task ≠ .runThunk thunk := by
  have alone (task : Task) (n : Nat) (idle : ∀ thunk, task ≠ .runThunk thunk) :
      ∀ call ∈ [Call.mk n task m], ∀ thunk, call.task ≠ .runThunk thunk :=
    fun call member => List.mem_singleton.mp member ▸ idle
  induction k with
  | zero => exact ⟨fun value _ => alone _ _ (by simp), fun values _ => alone _ _ (by simp)⟩
  | succ k ih =>
    obtain ⟨deep, all⟩ := ih
    constructor
    · intro value clear call member
      have force := full_force (m := m) (ne_promise clear.plain)
      rw [Task.calls, Plan.calls_forceDeep] at member
      rcases List.mem_cons.mp member with rfl | member
      · simp
      rcases List.mem_append.mp member with member | member
      · have none : Task.calls k (.force value) m = [⟨k, .force value, m⟩] := by
          cases k with
          | zero => rfl
          | succ k =>
            rw [Task.calls]
            cases value with
            | promise ref => cases clear.plain
            | _ => rfl
        rw [none] at member
        exact alone (.force value) k (by simp) call member
      · split at member
        · rename_i ends
          cases full_unique (Task.run_le_full k _ _ _ ends) force
          exact all _ (fun item inside => clear.inside inside) call member
        · rename_i ends
          cases full_unique (Task.run_le_full k _ _ _ ends) force
          exact all _ (fun item inside => clear.inside inside) call member
        · cases member
    · intro values clear call member
      rw [Task.calls] at member
      rcases List.mem_cons.mp member with rfl | member
      · simp
      cases values with
      | nil => cases member
      | cons value rest =>
        obtain ⟨first, others⟩ := List.forall_mem_cons.mp clear
        change call ∈ Plan.calls _ _ (Plan.ask (.forceDeep value) _) m at member
        rw [Plan.calls] at member
        rcases List.mem_append.mp member with member | member
        · exact deep value first call member
        · split at member
          · rename_i after middle ends
            cases full_unique (Task.run_le_full k _ _ _ ends) first.deepens.full
            change call ∈ Plan.calls _ _ (Plan.ask (.forceAll rest) _) m at member
            rw [Plan.calls] at member
            rcases List.mem_append.mp member with member | member
            · exact all rest others call member
            · split at member <;> cases member
          · cases member

/-! ## Complete deep forces -/

/-- The promise can be reached from the value: as things are, or when a deep force has come so
far. -/
def Contains (m : Machine) (value : Value) (ref : Nat) : Prop :=
  Relation.ReflTransGen m.Includes value (.promise ref) ∨
    ∃ way m', m.Meets value way (.promise ref) m'

/-- What a deep force has done to the value when it answers. -/
structure ForcedDeep (m : Machine) (value : Value) (n : Nat) (after : Value) (m' : Machine) :
    Prop where
  /-- No promise is reachable any more. -/
  complete : ∀ ref, ¬ Relation.ReflTransGen m'.Includes after (.promise ref)
  /-- The answer is the value with promises replaced; lists in it are the same lists. -/
  replaces : m'.Replaces value after
  /-- All lists, whenever they were made, are as they were, with promises replaced. -/
  lists : ∀ way inner middle, m.Meets value way inner middle -> ∀ ref < middle.lists.size,
    m'.ReplacesAll (middle.items ref).toList (m'.items ref).toList ∧
      (m'.items ref).size = (middle.items ref).size
  /-- The thunk of each promise without a value has run once. -/
  once : ∀ ref, m.Contains value ref -> (∀ value, m.promise ref ≠ .forced value) ->
    ((Task.forceDeep value).calls n m).countP (Call.runs ref) = 1
  /-- A second deep force answers the same and changes nothing at all. -/
  again : ∃ k, Trampoline.forceDeep k after m' = some (.ok after, m')
  /-- It runs no thunk. -/
  idle : ∀ k, ∀ call ∈ (Task.forceDeep after).calls k m', ∀ thunk, call.task ≠ .runThunk thunk

/-- Forced deep, a value that is in order never fails. It answers exactly if it can be reached
through finitely many chains of promises, and then it is cleared: no promise is left in it, the
lists are the same and as long as before, and each thunk has run once. -/
theorem forces_deep (resolved : m.Resolved) (orderly : m.Orderly value)
    (succeed : ∀ n, ∀ call ∈ (Task.forceDeep value).calls n m, ∀ ref, m.Contains value ref ->
      call.runs ref = true -> ∀ error, ¬ call.Fails error) :
    ((m.ways value).Finite ↔ ∃ n outcome, Trampoline.forceDeep n value m = some outcome) ∧
    ∀ n result m', Trampoline.forceDeep n value m = some (result, m') ->
      ∃ after, result = .ok after ∧ m.ForcedDeep value n after m' := by
  refine ⟨orderly.finite_iff resolved, fun n result m' ends => ?_⟩
  change (Task.forceDeep value).run n m = _ at ends
  obtain ⟨after, rfl⟩ := (orderly_run n).1 _ _ _ _ resolved orderly ends
  have deepens := (deepens_run n).1 _ _ _ _ resolved ends
  obtain ⟨advances, clear⟩ := deepens.clears orderly resolved
  refine ⟨after, rfl, ?_⟩
  constructor
  case complete => exact fun ref path => nomatch (clear.reached path).plain
  case replaces => exact deepens.replaces
  case lists =>
    intro way inner middle meets ref known
    have replaced := (meets.advances deepens orderly resolved).replaces known
    exact ⟨replaced, replaced.length_eq.symm⟩
  case once =>
    intro ref contains waits
    have forced : ∃ value, m'.promise ref = .forced value := by
      rcases contains with path | ⟨way, middle, meets⟩
      · exact advances.forced deepens.replaces clear path
      · exact meets.forced deepens orderly resolved
    obtain ⟨known, forced⟩ := forced
    exact Task.runs_once ends (waits known) forced fun call member =>
      succeed n call member ref contains
  case again => exact Task.full_eq_some.mp clear.deepens.full
  case idle => exact fun k => (clear_calls k).1 after clear

end Machine

/-! ### A shared promise -/

/-- The call has failed. -/
def Call.failed (call : Call) : Bool :=
  match call.task.run call.fuel call.machine with
  | some (.error _, _) => true
  | _ => false

/-- A machine with a list that holds a promise twice, once in a tuple. -/
def sharedPromise : Machine :=
  { Machine.start false with
    globals := [("x", .int 1)]
    promises := #[.pending (.global "x")]
    lists := #[#[.promise 0, .tuple [.promise 0]]] }

namespace sharedPromise

/-- The machine when the promise has its value. -/
def forced : Machine :=
  { sharedPromise with promises := #[.forced (.int 1)], trace := [.forcing] }

/-- The shared promise is forced to its number. -/
theorem forces : (Task.force (.promise 0)).full sharedPromise = some (.ok (.int 1), forced) :=
  Task.full_eq_some.mpr ⟨3, rfl⟩

/-- Once it is forced it answers at once. -/
theorem forces_again : (Task.force (.promise 0)).full forced = some (.ok (.int 1), forced) :=
  Task.full_eq_some.mpr ⟨1, rfl⟩

/-- As the only item of a tuple the promise is forced as it is alone. -/
theorem forcesAll : (Task.forceAll [.promise 0]).full sharedPromise = some (.ok [.int 1], forced) :=
  Task.full_eq_some.mpr ⟨5, rfl⟩

variable {m m' : Machine} {last : Value} {way : List Nat}

/-- A deep force of the promise comes to the promise and its number, and to nothing else. -/
theorem meets_promise (forces : (Task.force (.promise 0)).full m = some (.ok (.int 1), forced))
    (meets : m.Meets (.promise 0) way last m') :
    last = .promise 0 ∧ m' = m ∨ last = .int 1 ∧ m' = forced := by
  cases meets with
  | itself => exact .inl ⟨rfl, rfl⟩
  | inside opens meets =>
    cases opens with
    | item plain => cases plain
    | promise forces' =>
      cases full_unique forces forces'
      cases meets with
      | itself => exact .inr ⟨rfl, rfl⟩
      | inside opens =>
        cases opens with
        | item _ holds => simp [Machine.contents] at holds

/-- Once the promise is forced, the tuple has the promise and its number inside. -/
theorem meets_tuple (meets : forced.Meets (.tuple [.promise 0]) way last m') :
    last = .tuple [.promise 0] ∧ m' = forced ∨ last = .promise 0 ∧ m' = forced ∨
      last = .int 1 ∧ m' = forced := by
  cases meets with
  | itself => exact .inl ⟨rfl, rfl⟩
  | inside opens meets =>
    cases opens with
    | @item _ _ before after _ _ _ holds passes =>
      change [Value.promise 0] = _ at holds
      cases before with
      | nil =>
        cases holds
        cases full_unique passes full_forceAll_nil
        exact .inr (meets_promise forces_again meets)
      | cons other before => simp at holds

/-- The deep force of the list comes to the promise before it is forced, and in the tuple after. -/
theorem opens_list {first : List Nat} {inner : Value} {middle : Machine}
    (opens : sharedPromise.Opens (.list 0) first inner middle) :
    inner = .promise 0 ∧ middle = sharedPromise ∨ inner = .tuple [.promise 0] ∧
      middle = forced := by
  cases opens with
  | @item _ _ before after _ _ _ holds passes =>
    change [Value.promise 0, .tuple [.promise 0]] = _ at holds
    match before with
    | [] =>
      cases holds
      cases full_unique passes full_forceAll_nil
      exact .inl ⟨rfl, rfl⟩
    | [other] =>
      cases holds
      cases full_unique passes forcesAll
      exact .inr ⟨rfl, rfl⟩
    | _ :: _ :: _ => simp at holds

/-- From the list, a deep force comes to the promise, to the tuple behind it and to the number. -/
theorem meets_list (meets : sharedPromise.Meets (.list 0) way last m') :
    last = .list 0 ∧ m' = sharedPromise ∨ last = .promise 0 ∧ m' = sharedPromise ∨
      (last = .tuple [.promise 0] ∨ last = .promise 0 ∨ last = .int 1) ∧ m' = forced := by
  cases meets with
  | itself => exact .inl ⟨rfl, rfl⟩
  | inside opens meets =>
    rcases opens_list opens with ⟨rfl, rfl⟩ | ⟨rfl, rfl⟩
    · rcases meets_promise forces meets with same | ⟨rfl, rfl⟩
      · exact .inr (.inl same)
      · exact .inr (.inr ⟨.inr (.inr rfl), rfl⟩)
    · rcases meets_tuple meets with ⟨rfl, rfl⟩ | ⟨rfl, rfl⟩ | ⟨rfl, rfl⟩
      · exact .inr (.inr ⟨.inl rfl, rfl⟩)
      · exact .inr (.inr ⟨.inr (.inl rfl), rfl⟩)
      · exact .inr (.inr ⟨.inr (.inr rfl), rfl⟩)

/-- All that a deep force of the list comes to is in order. -/
theorem orderly : sharedPromise.Orderly (.list 0) where
  known way ref m' meets := by
    rcases meets_list meets with ⟨⟨⟩, rfl⟩ | ⟨⟨⟩, -⟩ | ⟨⟨⟨⟩⟩ | ⟨⟨⟩⟩ | ⟨⟨⟩⟩, -⟩
    decide
  idle way ref m' meets := by
    rcases meets_list meets with ⟨⟨⟩, -⟩ | ⟨⟨⟩, rfl⟩ | ⟨⟨⟨⟩⟩ | ⟨⟨⟩⟩ | ⟨⟨⟩⟩, rfl⟩
    · nofun
    · nofun
  ends way ref thunk m' meets pending := by
    rcases meets_list meets with ⟨⟨⟩, -⟩ | ⟨⟨⟩, rfl⟩ | ⟨⟨⟨⟩⟩ | ⟨⟨⟩⟩ | ⟨⟨⟩⟩, rfl⟩
    · exact ⟨_, _, forces, fun _ _ => rfl⟩
    · cases pending
  acyclic way ref m' meets first inner middle opens more last again := by
    rcases meets_list meets with ⟨⟨⟩, rfl⟩ | ⟨⟨⟩, -⟩ | ⟨⟨⟨⟩⟩ | ⟨⟨⟩⟩ | ⟨⟨⟩⟩, -⟩
    rcases opens_list opens with ⟨rfl, rfl⟩ | ⟨rfl, rfl⟩
    · rcases meets_promise forces again with ⟨⟨⟩, -⟩ | ⟨⟨⟩, -⟩
    · rcases meets_tuple again with ⟨⟨⟩, -⟩ | ⟨⟨⟩, -⟩ | ⟨⟨⟩, -⟩

/-- No promise has a promise as its value, since the only one is pending. -/
theorem resolved : sharedPromise.Resolved := by
  intro ref value forced
  rcases ref with _ | ref
  · cases forced
  · cases (Machine.promise_eq_of_le (by simp [sharedPromise])).symm.trans forced

/-- Whatever fuel there is, no call on the way fails. -/
theorem calls_succeed (n : Nat) : ∀ call ∈ (Task.forceDeep (.list 0)).calls n sharedPromise,
    ∀ error, ¬ call.Fails error := by
  have all :
    ((Task.forceDeep (.list 0)).calls n sharedPromise).all (fun call => !call.failed) = true := by
    match n with
    | 0 | 1 | 2 | 3 | 4 | 5 | 6 | 7 | n + 8 => rfl
  rintro call member error ⟨last, fails⟩
  have right := List.all_eq_true.mp all call member
  rw [Call.Ends] at fails
  simp [Call.failed, fails] at right

end sharedPromise

/-- The promise is forced once; both places in the list get its value. -/
theorem sharedPromise_forcedDeep : sharedPromise.Resolved ∧ sharedPromise.Orderly (.list 0) ∧
    (∀ n, ∀ call ∈ (Task.forceDeep (.list 0)).calls n sharedPromise, ∀ ref,
      sharedPromise.Contains (.list 0) ref -> call.runs ref = true ->
        ∀ error, ¬ call.Fails error) ∧
    (sharedPromise.ways (.list 0)).Finite ∧
    ∃ m', Trampoline.forceDeep 8 (.list 0) sharedPromise = some (.ok (.list 0), m') ∧
      (m'.items 0).toList = [.int 1, .tuple [.int 1]] ∧
      sharedPromise.ForcedDeep (.list 0) 8 (.list 0) m' := by
  have succeed : ∀ n, ∀ call ∈ (Task.forceDeep (.list 0)).calls n sharedPromise, ∀ ref,
      sharedPromise.Contains (.list 0) ref -> call.runs ref = true -> ∀ error, ¬ call.Fails error :=
    fun n call member _ _ _ => sharedPromise.calls_succeed n call member
  obtain ⟨m', ends, items⟩ : ∃ m',
      Trampoline.forceDeep 8 (.list 0) sharedPromise = some (.ok (.list 0), m') ∧
        (m'.items 0).toList = [.int 1, .tuple [.int 1]] := ⟨_, rfl, rfl⟩
  have deep := Machine.forces_deep sharedPromise.resolved sharedPromise.orderly succeed
  obtain ⟨after, same, forcedDeep⟩ := deep.2 8 _ m' ends
  cases same
  exact ⟨sharedPromise.resolved, sharedPromise.orderly, succeed, deep.1.mpr ⟨8, _, ends⟩, m', ends,
    items, forcedDeep⟩

/-! ### Promises that hold themselves -/

/-- A machine with a promise whose value is a tuple that holds the promise. -/
def knottedPromise : Machine :=
  { Machine.start false with promises := #[.forced (.tuple [.promise 0])] }

namespace knottedPromise

variable {m m' : Machine} {value last : Value} {way : List Nat}

/-- The value of the promise is there from the beginning. -/
theorem forces : (Task.force (.promise 0)).full knottedPromise =
    some (.ok (.tuple [.promise 0]), knottedPromise) :=
  full_force_of_forced rfl

/-- A deep force goes from the promise to the tuple and from the tuple to the promise, and changes
nothing. -/
theorem meets_knot (meets : m.Meets value way last m') (here : m = knottedPromise)
    (knot : value = .promise 0 ∨ value = .tuple [.promise 0]) :
    (last = .promise 0 ∨ last = .tuple [.promise 0]) ∧ m' = knottedPromise := by
  induction meets with
  | itself => exact ⟨knot, here⟩
  | inside opens _ ih =>
    subst here
    cases opens with
    | promise forces' =>
      rcases knot with ⟨⟨⟩⟩ | ⟨⟨⟩⟩
      cases full_unique forces forces'
      exact ih rfl (.inr rfl)
    | @item _ _ before _ _ _ plain holds passes =>
      rcases knot with rfl | rfl
      · cases plain
      · change [Value.promise 0] = _ at holds
        cases before with
        | nil =>
          cases holds
          cases full_unique passes full_forceAll_nil
          exact ih rfl (.inl rfl)
        | cons other before => simp at holds

/-- Nothing is amiss with the promise: no list and no thunk is come to. -/
theorem orderly : knottedPromise.Orderly (.promise 0) where
  known way ref m' meets := by
    obtain ⟨⟨⟨⟩⟩ | ⟨⟨⟩⟩, -⟩ := meets_knot meets rfl (.inl rfl)
  idle way ref m' meets := by
    obtain ⟨⟨⟨⟩⟩ | ⟨⟨⟩⟩, rfl⟩ := meets_knot meets rfl (.inl rfl)
    nofun
  ends way ref thunk m' meets pending := by
    obtain ⟨⟨⟨⟩⟩ | ⟨⟨⟩⟩, rfl⟩ := meets_knot meets rfl (.inl rfl)
    cases pending
  acyclic way ref m' meets := by
    obtain ⟨⟨⟨⟩⟩ | ⟨⟨⟩⟩, -⟩ := meets_knot meets rfl (.inl rfl)

/-- The value of the promise is a tuple, not a promise. -/
theorem resolved : knottedPromise.Resolved := by
  intro ref value forced
  rcases ref with _ | ref
  · cases forced
    rfl
  · cases (Machine.promise_eq_of_le (by simp [knottedPromise])).symm.trans forced

/-- The promise is passed as often as you like. -/
theorem replicate_mem_ways (n : Nat) :
    List.replicate n 0 ∈ knottedPromise.ways (.promise 0) := by
  suffices knottedPromise.Meets (.promise 0) (List.replicate n 0) (.promise 0) knottedPromise from
    ⟨_, _, this⟩
  induction n with
  | zero => exact .itself _ _
  | succ n ih =>
    have again : knottedPromise.Opens (.tuple [.promise 0]) [] (.promise 0) knottedPromise :=
      .item rfl (List.nil_append _).symm full_forceAll_nil
    exact .inside (.promise forces) (.inside again ih)

/-- There is a way through the promise for each number of rounds. -/
theorem ways_infinite : (knottedPromise.ways (.promise 0)).Infinite :=
  Set.infinite_of_injective_forall_mem (List.replicate_left_injective 0) replicate_mem_ways

end knottedPromise

/-- A machine with a promise whose thunk answers the promise itself. -/
def yieldedPromise : Machine :=
  let signature : Signature := ⟨0, some "h", [], [], ⟨false, false, false⟩, .plain, []⟩
  { Machine.start false with
    globals := [("h", .func (.closure 0 ⟨signature, .var default "p"⟩ [])), ("p", .promise 0)]
    promises := #[.pending (.global "h")] }

/-- The machine while the thunk is running. -/
def yieldedPromise.running : Machine :=
  { yieldedPromise with promises := #[.forcing], trace := [.forcing] }

/-- A deep force need not answer where nothing fails on the way. In a promise whose value holds the
promise again there is no thunk to be run and no list, and a deep force of it never ends. Where a
thunk ends and yields the promise that it is the thunk of, that promise is forced while it is being
forced. -/
theorem knottedPromise_endless :
    (knottedPromise.Resolved ∧ knottedPromise.Orderly (.promise 0) ∧
      (∀ ref thunk, knottedPromise.promise ref ≠ .pending thunk) ∧
      ∀ n, Trampoline.forceDeep n (.promise 0) knottedPromise = none) ∧
    (Task.runThunk (.global "h")).full yieldedPromise.running =
      some (.ok (.promise 0), yieldedPromise.running) ∧
    Trampoline.forceDeep 9 (.promise 0) yieldedPromise =
      some (.error .recursiveForce, { yieldedPromise with trace := [.forcing] }) := by
  have resolved := knottedPromise.resolved
  have orderly := knottedPromise.orderly
  refine ⟨⟨resolved, orderly, fun ref thunk pending => ?_, fun n => ?_⟩,
    Task.full_eq_some.mpr ⟨8, rfl⟩, rfl⟩
  · rcases ref with _ | ref
    · cases pending
    · cases (Machine.promise_eq_of_le (by simp [knottedPromise])).symm.trans pending
  · refine Option.eq_none_iff_forall_ne_some.mpr fun outcome ends => ?_
    exact knottedPromise.ways_infinite ((orderly.finite_iff resolved).mpr ⟨n, outcome, ends⟩)

end Trampoline
