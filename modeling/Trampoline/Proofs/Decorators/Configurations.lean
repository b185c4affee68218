import Mathlib.Data.String.Basic
import Trampoline.Config.Basic
import Trampoline.Proofs.Decorators.Registrations

/-!
# Configured tables

A configuration may put decorators at other positions. It has a table exactly if it names decorators
only, puts no two of them at one position, and trampolines further out than escape points. If it has
none, the error tells the first of these that fails, and where it fails first.
-/

namespace Trampoline

namespace Config

variable {overrides : List (String × Nat)} {decorator other : Decorator}

/-! ## Unknown names -/

variable {name : String} {names : List String} {before decorators : List Decorator}
  {error : DecoratorError}

/-- A name is unknown exactly if no decorator has it. -/
theorem ofName?_eq_none :
    Decorator.ofName? name = none ↔ ∀ decorator : Decorator, decorator.name ≠ name := by
  rw [Decorator.ofName?, List.find?_eq_none]
  refine ⟨fun unknown decorator => ?_, fun unknown decorator _ => by simpa using unknown decorator⟩
  have listed : decorator ∈ Decorator.all := by cases decorator <;> decide
  simpa using unknown decorator listed

theorem lesserName_eq_min : lesserName = min := by
  funext left right
  rw [lesserName, min_comm, min_def_lt]

/-- The name told first is the least of those that are no decorators. -/
theorem firstUnknown_eq_some :
    firstUnknown names = some name ↔ (name ∈ names ∧ Decorator.ofName? name = none) ∧
      ∀ other ∈ names, Decorator.ofName? other = none -> name ≤ other := by
  have least : firstUnknown names =
      (names.filter fun name => (Decorator.ofName? name).isNone).min? := by
    rw [firstUnknown, lesserName_eq_min]
    split <;> rename_i same <;> rw [same] <;> rfl
  rw [least, List.min?_eq_some_iff]
  simp

/-- No unknown name is found exactly if a decorator has each name. -/
theorem firstUnknown_eq_none :
    firstUnknown names = none ↔ ∀ name ∈ names, ∃ decorator : Decorator, decorator.name = name := by
  have unknown : firstUnknown names = none ↔
      names.filter (fun name => (Decorator.ofName? name).isNone) = [] := by
    rw [firstUnknown]
    split <;> rename_i same <;> simp [same]
  rw [unknown, List.filter_eq_nil_iff]
  refine forall₂_congr fun name _ => ?_
  rw [Option.isNone_iff_eq_none, ofName?_eq_none]
  exact not_forall_not

/-! ## Positions -/

/-- The registration of a decorator at its position. -/
def place (overrides : List (String × Nat)) (decorator : Decorator) : Registration :=
  ⟨decorator, positionOf overrides decorator⟩

/-- Of some decorators, the first at a position that is taken, and the one before it that took
it. -/
def Repeats (overrides : List (String × Nat)) (decorators : List Decorator)
    (decorator other : Decorator) : Prop :=
  ∃ before after, decorators = before ++ decorator :: after ∧ other ∈ before ∧
    positionOf overrides other = positionOf overrides decorator ∧
    (before.map (positionOf overrides)).Nodup

/-- All get registered if no position is taken twice, and else it fails where one is taken first. -/
theorem registerAll_cases (overrides : List (String × Nat)) {rest : List Decorator}
    (once : (before ++ rest).Nodup) (free : (before.map (positionOf overrides)).Nodup) :
    (((before ++ rest).map (positionOf overrides)).Nodup ∧
      registerAll overrides rest ⟨before.map (place overrides)⟩ =
        .ok ⟨(before ++ rest).map (place overrides)⟩) ∨
    ∃ decorator other, Repeats overrides (before ++ rest) decorator other ∧
      registerAll overrides rest ⟨before.map (place overrides)⟩ =
        .error (.conflictingPosition decorator other (positionOf overrides decorator)) := by
  induction rest generalizing before with
  | nil => exact .inl ⟨by simpa using free, by simp [registerAll]⟩
  | cons decorator rest ih =>
    have new : decorator ∉ before := fun old =>
      List.disjoint_of_nodup_append once old List.mem_cons_self
    rw [registerAll]
    obtain ⟨old, -⟩ | ⟨-, record, taken, same, refused⟩ | ⟨-, notTaken, granted⟩ :=
      DecoratorTable.register_cases ⟨before.map (place overrides)⟩ decorator
        (positionOf overrides decorator)
    · exact absurd (by simpa [place] using old) new
    · obtain ⟨other, member, rfl⟩ := List.mem_map.mp taken
      rw [refused]
      exact .inr ⟨decorator, other, ⟨before, rest, rfl, member, same, free⟩, rfl⟩
    · have free' : ((before ++ [decorator]).map (positionOf overrides)).Nodup := by
        rw [List.map_append, List.nodup_append_comm]
        exact List.nodup_cons.mpr ⟨by simpa [place] using notTaken, free⟩
      have added : before.map (place overrides) ++ [⟨decorator, positionOf overrides decorator⟩] =
          (before ++ [decorator]).map (place overrides) := by simp [place]
      rw [granted, added]
      rw [List.append_cons] at once ⊢
      exact ih once free'

/-- Two decorators at one position are not placed apart. -/
theorem not_nodup_of_taken {after : List Decorator} (member : other ∈ before)
    (same : positionOf overrides other = positionOf overrides decorator) :
    ¬ ((before ++ decorator :: after).map (positionOf overrides)).Nodup := by
  intro distinct
  rw [List.map_append] at distinct
  refine List.disjoint_of_nodup_append distinct (List.mem_map_of_mem member) ?_
  rw [same]
  exact List.mem_map_of_mem List.mem_cons_self

theorem Repeats.not_nodup (repeats : Repeats overrides decorators decorator other) :
    ¬ (decorators.map (positionOf overrides)).Nodup := by
  obtain ⟨before, after, rfl, member, same, -⟩ := repeats
  exact not_nodup_of_taken member same

/-- Where a position is repeated first there is one decorator, and one that took it before. -/
theorem Repeats.unique {decorator' other' : Decorator}
    (repeats : Repeats overrides decorators decorator other)
    (repeats' : Repeats overrides decorators decorator' other') :
    decorator = decorator' ∧ other = other' := by
  obtain ⟨before, after, rfl, member, same, free⟩ := repeats
  obtain ⟨before', after', split, member', same', free'⟩ := repeats'
  -- what is before the one repetition and reaches beyond the other would have that in it
  rcases List.append_eq_append_iff.mp split with ⟨rest, rfl, tail⟩ | ⟨rest, rfl, tail⟩
  · cases rest with
    | nil =>
      cases tail
      rw [List.append_nil] at member'
      exact ⟨rfl, List.inj_on_of_nodup_map free member member' (same.trans same'.symm)⟩
    | cons first rest =>
      cases tail
      exact absurd free' (not_nodup_of_taken member same)
  · cases rest with
    | nil =>
      cases tail
      rw [List.append_nil] at member
      exact ⟨rfl, List.inj_on_of_nodup_map free' member member' (same.trans same'.symm)⟩
    | cons first rest =>
      cases tail
      exact absurd free (not_nodup_of_taken member' same')

/-! ## Tables -/

/-- The names are those of decorators. -/
def Known (overrides : List (String × Nat)) : Prop :=
  ∀ name ∈ overrides.map Prod.fst, ∃ decorator : Decorator, decorator.name = name

/-- No two decorators are at one position. -/
def Separate (overrides : List (String × Nat)) : Prop :=
  (Decorator.all.map (positionOf overrides)).Nodup

/-- A configuration with a table: it names decorators only, these are at different positions, and
trampolines are further out than escape points. -/
structure Consistent (overrides : List (String × Nat)) : Prop where
  known : Known overrides
  separate : Separate overrides
  inside : positionOf overrides .trampolined < positionOf overrides .callEc

/-- What is wrong with a configuration: the alphabetically first name that is none of a decorator,
if there is one; else the first decorator at a position that an earlier one took; else the position
of trampolines. -/
inductive Rejects (overrides : List (String × Nat)) : DecoratorError -> Prop
  | unknown {name : String} (named : name ∈ overrides.map Prod.fst)
      (unknown : ∀ decorator : Decorator, decorator.name ≠ name)
      (first : ∀ other ∈ overrides.map Prod.fst,
        (∀ decorator : Decorator, decorator.name ≠ other) -> name ≤ other) :
      Rejects overrides (.unknown name)
  | conflictingPosition {decorator other : Decorator} (known : Known overrides)
      (repeats : Repeats overrides Decorator.all decorator other) :
      Rejects overrides (.conflictingPosition decorator other (positionOf overrides decorator))
  | escapeOutsideTrampoline (known : Known overrides) (separate : Separate overrides)
      (outside : positionOf overrides .callEc ≤ positionOf overrides .trampolined) :
      Rejects overrides (.escapeOutsideTrampoline (positionOf overrides .trampolined)
        (positionOf overrides .callEc))

/-- The table of all decorators at their positions. -/
def placed (overrides : List (String × Nat)) : DecoratorTable :=
  ⟨Decorator.all.map (place overrides)⟩

theorem record?_placed (decorator : Decorator) :
    (placed overrides).record? decorator = some (place overrides decorator) := by
  cases decorator <;> rfl

/-- A table is valid exactly if escape points are placed further in than trampolines. -/
theorem validate_placed : (placed overrides).validate =
    if positionOf overrides .callEc ≤ positionOf overrides .trampolined then
      .error (.escapeOutsideTrampoline (positionOf overrides .trampolined)
        (positionOf overrides .callEc))
    else .ok () := by
  rw [DecoratorTable.validate, record?_placed, record?_placed]
  rfl

/-- A configuration has its table if it is consistent, and else an error that is right. -/
theorem tableWith_cases (overrides : List (String × Nat)) :
    (Consistent overrides ∧ tableWith overrides = .ok (placed overrides)) ∨
      ∃ error, Rejects overrides error ∧ tableWith overrides = .error error := by
  rw [tableWith]
  cases missing : firstUnknown (overrides.map Prod.fst) with
  | some name =>
    obtain ⟨⟨named, unknown⟩, first⟩ := firstUnknown_eq_some.mp missing
    exact .inr ⟨_, .unknown named (ofName?_eq_none.mp unknown) fun other member unknown' =>
      first other member (ofName?_eq_none.mpr unknown'), rfl⟩
  | none =>
    have known : Known overrides := firstUnknown_eq_none.mp missing
    have once : ([] ++ Decorator.all).Nodup := by decide
    rcases registerAll_cases overrides once .nil with
      ⟨separate, registers⟩ | ⟨decorator, other, repeats, fails⟩
    · have registers : registerAll overrides Decorator.all .empty = .ok (placed overrides) :=
        registers
      simp only [registers, bind, Except.bind, validate_placed]
      by_cases outside : positionOf overrides .callEc ≤ positionOf overrides .trampolined
      · rw [if_pos outside]
        exact .inr ⟨_, .escapeOutsideTrampoline known separate outside, rfl⟩
      · rw [if_neg outside]
        exact .inl ⟨⟨known, separate, Nat.lt_of_not_le outside⟩, rfl⟩
    · have fails : registerAll overrides Decorator.all .empty =
          .error (.conflictingPosition decorator other (positionOf overrides decorator)) := fails
      simp only [fails, bind, Except.bind]
      exact .inr ⟨_, .conflictingPosition known repeats, rfl⟩

/-- No configuration is rejected for two reasons. -/
theorem Rejects.unique {error' : DecoratorError} (rejects : Rejects overrides error)
    (rejects' : Rejects overrides error') : error = error' := by
  have unknownFirst {name : String} (named : name ∈ overrides.map Prod.fst)
      (unknown : ∀ decorator : Decorator, decorator.name ≠ name) (known : Known overrides) :
      False :=
    (known name named).elim fun decorator same => unknown decorator same
  cases rejects with
  | unknown named unknown first =>
    cases rejects' with
    | unknown named' unknown' first' =>
      rw [le_antisymm (first _ named' unknown') (first' _ named unknown)]
    | conflictingPosition known => exact (unknownFirst named unknown known).elim
    | escapeOutsideTrampoline known => exact (unknownFirst named unknown known).elim
  | conflictingPosition known repeats =>
    cases rejects' with
    | unknown named unknown => exact (unknownFirst named unknown known).elim
    | conflictingPosition _ repeats' =>
      obtain ⟨rfl, rfl⟩ := repeats.unique repeats'
      rfl
    | escapeOutsideTrampoline _ separate => exact absurd separate repeats.not_nodup
  | escapeOutsideTrampoline known separate =>
    cases rejects' with
    | unknown named unknown => exact (unknownFirst named unknown known).elim
    | conflictingPosition _ repeats => exact absurd separate repeats.not_nodup
    | escapeOutsideTrampoline => rfl

/-- What is rejected is not consistent. -/
theorem Rejects.not_consistent (rejects : Rejects overrides error) : ¬ Consistent overrides := by
  intro ⟨known, separate, inside⟩
  cases rejects with
  | unknown named unknown => exact (known _ named).elim fun decorator same => unknown decorator same
  | conflictingPosition _ repeats => exact repeats.not_nodup separate
  | escapeOutsideTrampoline _ _ outside => exact absurd inside (Nat.not_lt_of_le outside)

/-- All decorators are in the table of a consistent configuration, at their positions, so
trampolines are further out than escape points in all it orders. -/
theorem Consistent.order (consistent : Consistent overrides) {asked ordered : List Decorator}
    (orders : (placed overrides).order asked = .ok ordered) (trampolined : .trampolined ∈ asked)
    (callEc : .callEc ∈ asked) : List.Sublist [.trampolined, .callEc] ordered := by
  have distinct : (placed overrides).Distinct := by
    rw [DecoratorTable.Distinct, placed, List.map_map]
    exact consistent.separate
  have nests := DecoratorTable.order_nests orders
  refine (DecoratorTable.sublist_pair_iff (DecoratorTable.order_increasing distinct orders)
    ((nests.asked _).mpr trampolined) ((nests.asked _).mpr callEc)).mpr ?_
  exact ⟨_, _, record?_placed .trampolined, record?_placed .callEc, consistent.inside⟩

/-- A configuration has a table exactly if it is consistent: that of all decorators at their
positions, in which trampolines are further out than escape points. Any other is rejected, for the
one reason that comes first. -/
theorem table_decides (config : Config) :
    ((∃ table, config.table = .ok table) ↔ Consistent config.decorators) ∧
    (∀ table, config.table = .ok table ->
      table.records = Decorator.all.map (fun decorator =>
        ⟨decorator, positionOf config.decorators decorator⟩) ∧
      ∀ asked ordered, table.order asked = .ok ordered -> .trampolined ∈ asked -> .callEc ∈ asked ->
        List.Sublist [.trampolined, .callEc] ordered) ∧
    ∀ error, config.table = .error error ↔ Rejects config.decorators error := by
  rw [table]
  obtain ⟨consistent, accepted⟩ | ⟨error, rejects, rejected⟩ := tableWith_cases config.decorators
  · rw [accepted]
    refine ⟨iff_of_true ⟨_, rfl⟩ consistent, fun table same => ?_, fun error =>
      iff_of_false nofun fun rejects => rejects.not_consistent consistent⟩
    cases same
    exact ⟨rfl, fun asked ordered => consistent.order⟩
  · rw [rejected]
    refine ⟨iff_of_false nofun rejects.not_consistent, nofun, fun error' =>
      ⟨?_, fun rejects' => ?_⟩⟩
    · rintro ⟨⟩
      exact rejects
    · rw [rejects.unique rejects']

end Config

end Trampoline
