import Mathlib.Data.List.Nodup
import Trampoline.Transform.Program

/-!
# The nesting of wrappers

A table orders decorators by their positions. What comes of any request are the decorators asked
for, each of them once, and further out those of lower positions.
-/

namespace Trampoline

namespace DecoratorTable

variable {table : DecoratorTable}

/-- Registrations that are sorted by position, of different decorators, and all from the table. -/
structure Sorted (table : DecoratorTable) (records : List Registration) : Prop where
  positions : records.Pairwise fun outer inner => outer.position ≤ inner.position
  once : (records.map Registration.decorator).Nodup
  registered : ∀ record ∈ records, table.record? record.decorator = some record

variable {record : Registration} {records : List Registration} {asked wrappers : List Decorator}
  {name : String} {decorator : Decorator}

/-- Inserting a registration adds it and nothing else. -/
theorem mem_insertByPosition {other : Registration} :
    other ∈ insertByPosition record records ↔ other = record ∨ other ∈ records := by
  induction records with
  | nil => simp [insertByPosition]
  | cons first rest ih =>
    rw [insertByPosition]
    split
    · simp
    · simp only [List.mem_cons, ih]
      exact or_left_comm

/-- Inserting a registration of another decorator keeps the list sorted. -/
theorem Sorted.insert (sorted : table.Sorted records)
    (known : table.record? record.decorator = some record)
    (new : record.decorator ∉ records.map Registration.decorator) :
    table.Sorted (insertByPosition record records) := by
  induction records with
  | nil => exact ⟨List.pairwise_singleton _ _, by simp [insertByPosition],
      by simpa [insertByPosition]⟩
  | cons first rest ih =>
    obtain ⟨positions, once, registered⟩ := sorted
    rw [List.pairwise_cons] at positions
    rw [List.map_cons, List.nodup_cons] at once
    have others : table.Sorted rest :=
      ⟨positions.2, once.2, fun other member => registered other (List.mem_cons_of_mem _ member)⟩
    rw [List.map_cons, List.mem_cons, not_or] at new
    rw [insertByPosition]
    split
    · rename_i lower
      refine ⟨List.pairwise_cons.mpr ⟨?_, List.pairwise_cons.mpr positions⟩, ?_, ?_⟩
      · intro other member
        rcases List.mem_cons.mp member with rfl | member
        · exact Nat.le_of_lt lower
        · exact Nat.le_trans (Nat.le_of_lt lower) (positions.1 other member)
      · simp only [List.map_cons, List.nodup_cons, List.mem_cons, not_or]
        exact ⟨new, once⟩
      · intro other member
        rcases List.mem_cons.mp member with rfl | member
        · exact known
        · exact registered other member
    · rename_i higher
      obtain ⟨positions', once', registered'⟩ := ih others new.2
      refine ⟨List.pairwise_cons.mpr ⟨?_, positions'⟩, ?_, ?_⟩
      · intro other member
        rcases mem_insertByPosition.mp member with rfl | member
        · exact Nat.le_of_not_lt higher
        · exact positions.1 other member
      · rw [List.map_cons, List.nodup_cons]
        refine ⟨fun twice => ?_, once'⟩
        obtain ⟨other, member, same⟩ := List.mem_map.mp twice
        rcases mem_insertByPosition.mp member with rfl | member
        · exact new.1 same
        · exact once.1 (List.mem_map.mpr ⟨other, member, same⟩)
      · intro other member
        rcases List.mem_cons.mp member with rfl | member
        · exact registered other List.mem_cons_self
        · exact registered' other member

/-- Collecting registrations sorts those that are asked for. -/
theorem Sorted.collect {sorted : List Registration}
    (before : table.Sorted sorted) (collects : table.collect asked sorted = .ok records) :
    table.Sorted records ∧ ∀ decorator, decorator ∈ records.map Registration.decorator ↔
      decorator ∈ asked ∨ decorator ∈ sorted.map Registration.decorator := by
  induction asked generalizing sorted with
  | nil =>
    cases collects
    exact ⟨before, by simp⟩
  | cons decorator rest ih =>
    rw [DecoratorTable.collect] at collects
    cases known : table.record? decorator with
    | none => simp [known] at collects
    | some record =>
      have named : record.decorator = decorator := by
        have found := List.find?_some known
        simpa using found
      simp only [known] at collects
      split at collects
      · rename_i present
        obtain ⟨after, same⟩ := ih before collects
        refine ⟨after, fun other => (same other).trans ?_⟩
        have old : decorator ∈ sorted.map Registration.decorator := by
          obtain ⟨other, member, equal⟩ := List.any_eq_true.mp present
          exact List.mem_map.mpr ⟨other, member, of_decide_eq_true equal⟩
        constructor
        · exact Or.imp_left (List.mem_cons_of_mem _)
        · rintro (member | member)
          · rcases List.mem_cons.mp member with rfl | member
            · exact .inr old
            · exact .inl member
          · exact .inr member
      · rename_i absent
        have new : record.decorator ∉ sorted.map Registration.decorator := by
          rw [named]
          intro old
          obtain ⟨other, member, equal⟩ := List.mem_map.mp old
          exact absent (List.any_eq_true.mpr ⟨other, member, decide_eq_true equal⟩)
        obtain ⟨after, same⟩ := ih (before.insert (named ▸ known) new) collects
        refine ⟨after, fun other => (same other).trans ?_⟩
        have inserted : other ∈ (insertByPosition record sorted).map Registration.decorator ↔
            other = decorator ∨ other ∈ sorted.map Registration.decorator := by
          simp only [List.mem_map, mem_insertByPosition]
          constructor
          · rintro ⟨inside, rfl | member, rfl⟩
            · exact .inl named
            · exact .inr ⟨inside, member, rfl⟩
          · rintro (rfl | ⟨inside, member, rfl⟩)
            · exact ⟨record, .inl rfl, named⟩
            · exact ⟨inside, .inr member, rfl⟩
        rw [inserted, List.mem_cons, or_left_comm, or_assoc]

/-- What comes of a request for wrappers: those asked for, each of them once, and if two are
registered, the one with the lower position further out. -/
structure Nests (table : DecoratorTable) (asked wrappers : List Decorator) : Prop where
  asked : ∀ decorator, decorator ∈ wrappers ↔ decorator ∈ asked
  once : wrappers.Nodup
  positions : wrappers.Pairwise fun outer inner =>
    ∀ first second, table.record? outer = some first -> table.record? inner = some second ->
      first.position ≤ second.position

/-- The order of a request is a sorted list of its registrations. -/
theorem order_sorted (orders : table.order asked = .ok wrappers) : ∃ records, table.Sorted records ∧
      wrappers = records.map Registration.decorator ∧
      ∀ decorator, decorator ∈ wrappers ↔ decorator ∈ asked := by
  unfold order at orders
  cases collects : table.collect asked [] with
  | error error => simp [collects, Except.map] at orders
  | ok records =>
    have start : table.Sorted [] := ⟨.nil, .nil, by simp⟩
    obtain ⟨sorted, same⟩ := start.collect collects
    simp only [collects, Except.map, Except.ok.injEq] at orders
    subst orders
    exact ⟨records, sorted, rfl, fun decorator => by simp [same decorator]⟩

/-- The order of a request nests its decorators. -/
theorem order_nests (orders : table.order asked = .ok wrappers) : table.Nests asked wrappers := by
  obtain ⟨records, ⟨positions, once, registered⟩, rfl, same⟩ := order_sorted orders
  refine ⟨same, once, List.pairwise_map.mpr ?_⟩
  refine positions.imp_of_mem fun {outer inner} memberOuter memberInner lower => ?_
  intro first second known known'
  cases (registered outer memberOuter).symm.trans known
  cases (registered inner memberInner).symm.trans known'
  exact lower

/-- No two registrations have the same position. -/
def Distinct (table : DecoratorTable) : Prop := (table.records.map Registration.position).Nodup

instance (table : DecoratorTable) : Decidable table.Distinct :=
  inferInstanceAs (Decidable (List.Nodup _))

/-- The first decorator is registered further out than the second. -/
def Outside (table : DecoratorTable) (outer inner : Decorator) : Prop :=
  ∃ first second, table.record? outer = some first ∧ table.record? inner = some second ∧
    first.position < second.position

/-- At distinct positions, what comes of a request stands in the order of the positions. -/
theorem order_increasing (distinct : table.Distinct)
    (orders : table.order asked = .ok wrappers) : wrappers.Pairwise table.Outside := by
  obtain ⟨records, ⟨positions, once, registered⟩, rfl, -⟩ := order_sorted orders
  refine List.pairwise_map.mpr ?_
  refine (positions.and (List.pairwise_map.mp once)).imp_of_mem ?_
  intro outer inner memberOuter memberInner ⟨lower, different⟩
  have known := registered outer memberOuter
  have known' := registered inner memberInner
  refine ⟨outer, inner, known, known', Nat.lt_of_le_of_ne lower fun same => different ?_⟩
  have equal := List.inj_on_of_nodup_map distinct (List.mem_of_find?_eq_some known)
    (List.mem_of_find?_eq_some known') same
  rw [equal]

/-- Of two decorators only one can be further out. -/
theorem Outside.asymm {outer inner : Decorator} (outside : table.Outside outer inner) :
    ¬table.Outside inner outer := by
  rintro ⟨first, second, known, known', lower⟩
  obtain ⟨first', second', knownOuter, knownInner, higher⟩ := outside
  cases known.symm.trans knownInner
  cases known'.symm.trans knownOuter
  omega

/-- Wrappers in the order of the positions are given by which they are. -/
theorem increasing_ext {wrappers' : List Decorator}
    (increasing : wrappers.Pairwise table.Outside) (increasing' : wrappers'.Pairwise table.Outside)
    (same : ∀ decorator, decorator ∈ wrappers ↔ decorator ∈ wrappers') : wrappers = wrappers' := by
  have once : ∀ {wrappers : List Decorator}, wrappers.Pairwise table.Outside -> wrappers.Nodup :=
    fun increasing => increasing.imp fun outside equal => (equal ▸ outside).asymm (equal ▸ outside)
  refine List.Perm.eq_of_pairwise (fun _ _ _ _ outside outside' => absurd outside' outside.asymm)
    increasing increasing' ?_
  exact (List.perm_ext_iff_of_nodup (once increasing) (once increasing')).mpr same

/-- Decorators are collected exactly if all of them are registered. -/
theorem collect_ends_iff (sorted : List Registration) :
    (∃ records, table.collect asked sorted = .ok records) ↔
      ∀ decorator ∈ asked, (table.record? decorator).isSome = true := by
  induction asked generalizing sorted with
  | nil => simp [collect]
  | cons decorator rest ih =>
    rw [collect, List.forall_mem_cons]
    cases table.record? decorator with
    | none => simp
    | some record =>
      simp only [Option.isSome_some, true_and]
      split <;> exact ih _

theorem order_ends_iff : (∃ wrappers, table.order asked = .ok wrappers) ↔
    ∀ decorator ∈ asked, (table.record? decorator).isSome = true := by
  rw [← collect_ends_iff [], order]
  cases table.collect asked [] <;> simp [Except.map]

/-- A decorator that is looked up is registered. -/
theorem lookup_registered (found : table.lookup name = .ok decorator) :
    (table.record? decorator).isSome = true := by
  unfold lookup at found
  split at found
  · split at found
    · cases found
      assumption
    · cases found
  · cases found

/-- A decorator that is looked up has the name. -/
theorem lookup_named (found : table.lookup name = .ok decorator) : decorator.name = name := by
  unfold lookup at found
  cases known : Decorator.ofName? name with
  | none => simp [known] at found
  | some other =>
    simp only [known] at found
    split at found
    · cases found
      simpa using List.find?_some known
    · cases found

end DecoratorTable

theorem Decorator.eq_of_name {first second : Decorator} (same : first.name = second.name) :
    first = second := by
  cases first <;> cases second <;> first | rfl | simp [name] at same

namespace Transform

variable {table : DecoratorTable}

variable {written : List (String × Span)} {decorators : List Decorator}

/-- The decorators that names mean have these names. -/
theorem lookups_names (looks : (written.mapM fun (name, _) => table.lookup name) = .ok decorators) :
    decorators.map Decorator.name = written.map Prod.fst := by
  induction written generalizing decorators with
  | nil =>
    cases looks
    rfl
  | cons first rest ih =>
    rw [List.mapM_cons] at looks
    cases found : table.lookup first.1 with
    | error error => simp [found, bind, Except.bind] at looks
    | ok head =>
      cases others : rest.mapM fun (name, _) => table.lookup name with
      | error error => simp [found, others, bind, Except.bind] at looks
      | ok tail =>
        simp only [found, others, bind, Except.bind, pure, Except.pure, Except.ok.injEq] at looks
        subst looks
        rw [List.map_cons, List.map_cons, DecoratorTable.lookup_named found, ih others]

variable {signature : Signature} {wrappers : List Decorator}

/-- The wrappers of a function are nested as the table says. -/
theorem resolveWrappers_nests (resolves : resolveWrappers table signature = .ok wrappers) :
    ∃ written, written.map Decorator.name = signature.decorators.map Prod.fst ∧
      table.Nests (written ++ impliedWrappers signature) wrappers := by
  unfold resolveWrappers at resolves
  cases looked : signature.decorators.mapM fun (name, _) => table.lookup name with
  | error error => simp [looked, bind, Except.bind] at resolves
  | ok decorators =>
    simp only [looked, bind, Except.bind] at resolves
    exact ⟨decorators, lookups_names looked, DecoratorTable.order_nests resolves⟩

/-- At distinct positions, the wrappers of a function stand in the order of the positions. -/
theorem resolveWrappers_increasing (distinct : table.Distinct)
    (resolves : resolveWrappers table signature = .ok wrappers) :
    wrappers.Pairwise table.Outside := by
  unfold resolveWrappers at resolves
  cases looked : signature.decorators.mapM fun (name, _) => table.lookup name with
  | error error => simp [looked, bind, Except.bind] at resolves
  | ok decorators =>
    simp only [looked, bind, Except.bind] at resolves
    exact DecoratorTable.order_increasing distinct resolves

/-- The wrappers of a function are those that its decorators name and those implied. -/
theorem mem_resolveWrappers (resolves : resolveWrappers table signature = .ok wrappers)
    {decorator : Decorator} : decorator ∈ wrappers ↔
      (∃ written ∈ signature.decorators, written.1 = decorator.name) ∨
        decorator ∈ impliedWrappers signature := by
  obtain ⟨decorators, names, nests⟩ := resolveWrappers_nests resolves
  rw [nests.asked, List.mem_append]
  refine or_congr_left ?_
  have named : decorator ∈ decorators ↔ decorator.name ∈ decorators.map Decorator.name := by
    refine ⟨List.mem_map_of_mem, fun member => ?_⟩
    obtain ⟨other, listed, same⟩ := List.mem_map.mp member
    exact Decorator.eq_of_name same ▸ listed
  rw [named, names, List.mem_map]

/-- Written names can be looked up if the table knows each. -/
theorem lookups_end_iff :
    (∃ decorators, (written.mapM fun (name, _) => table.lookup name) = .ok decorators) ↔
      ∀ name ∈ written.map Prod.fst, ∃ decorator, table.lookup name = .ok decorator := by
  induction written with
  | nil => exact iff_of_true ⟨[], rfl⟩ nofun
  | cons first rest ih =>
    rw [List.mapM_cons, List.map_cons, List.forall_mem_cons, ← ih]
    cases found : table.lookup first.1 with
    | error error => simp [found, bind, Except.bind]
    | ok decorator =>
      cases rest.mapM fun (name, _) => table.lookup name <;>
        simp [found, bind, Except.bind, pure, Except.pure]

/-- What was looked up is registered. -/
theorem lookups_registered
    (looks : (written.mapM fun (name, _) => table.lookup name) = .ok decorators) :
    ∀ decorator ∈ decorators, (table.record? decorator).isSome = true := by
  induction written generalizing decorators with
  | nil =>
    cases looks
    nofun
  | cons first rest ih =>
    rw [List.mapM_cons] at looks
    cases found : table.lookup first.1 with
    | error error => simp [found, bind, Except.bind] at looks
    | ok head =>
      cases others : rest.mapM fun (name, _) => table.lookup name with
      | error error => simp [found, others, bind, Except.bind] at looks
      | ok tail =>
        simp only [found, others, bind, Except.bind, pure, Except.pure, Except.ok.injEq] at looks
        subst looks
        exact List.forall_mem_cons.mpr ⟨DecoratorTable.lookup_registered found, ih others⟩

/-- A function gets wrappers exactly if its decorators are known and what its blocks imply is
registered. -/
theorem resolveWrappers_ends_iff :
    (∃ wrappers, resolveWrappers table signature = .ok wrappers) ↔
      (∀ name ∈ signature.decorators.map Prod.fst, ∃ decorator, table.lookup name = .ok decorator) ∧
        ∀ decorator ∈ impliedWrappers signature, (table.record? decorator).isSome = true := by
  rw [← lookups_end_iff]
  unfold resolveWrappers
  cases looked : signature.decorators.mapM fun (name, _) => table.lookup name with
  | error error => simp [bind, Except.bind]
  | ok decorators =>
    simp only [bind, Except.bind, DecoratorTable.order_ends_iff, List.forall_mem_append]
    simpa using fun _ => lookups_registered looked

/-- At distinct positions, the wrappers of a function depend on which decorators it is written with,
but not on how. -/
theorem resolveWrappers_ext (distinct : table.Distinct) {signature signature' : Signature}
    (names : ∀ name, name ∈ signature.decorators.map Prod.fst ↔
      name ∈ signature'.decorators.map Prod.fst)
    (implied : impliedWrappers signature = impliedWrappers signature') :
    (∃ error error', resolveWrappers table signature = .error error ∧
      resolveWrappers table signature' = .error error') ∨
    ∃ wrappers, resolveWrappers table signature = .ok wrappers ∧
      resolveWrappers table signature' = .ok wrappers := by
  have ends : (∃ wrappers, resolveWrappers table signature = .ok wrappers) ↔
      ∃ wrappers, resolveWrappers table signature' = .ok wrappers := by
    rw [resolveWrappers_ends_iff, resolveWrappers_ends_iff, implied]
    simp only [names]
  cases resolves : resolveWrappers table signature with
  | error error =>
    cases resolves' : resolveWrappers table signature' with
    | error error' => exact .inl ⟨error, error', rfl, rfl⟩
    | ok wrappers' => simp [resolves, resolves'] at ends
  | ok wrappers =>
    obtain ⟨wrappers', resolves'⟩ := ends.mp ⟨wrappers, resolves⟩
    have same : wrappers = wrappers' := by
      refine DecoratorTable.increasing_ext (resolveWrappers_increasing distinct resolves)
        (resolveWrappers_increasing distinct resolves') fun decorator => ?_
      rw [mem_resolveWrappers resolves, mem_resolveWrappers resolves', implied]
      simpa using or_congr_left (names decorator.name)
    exact .inr ⟨wrappers, rfl, same ▸ resolves'⟩

end Transform

end Trampoline
