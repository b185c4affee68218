import Trampoline.Proofs.Rewriting.Nesting

/-!
# Registrations

A table of decorators is built by requests that it may refuse. However it was built, no two of its
registrations share a decorator or a position, and so any decorators asked for have one order: it
depends on which they are, but not on how they are listed.
-/

namespace Trampoline

namespace DecoratorTable

variable {table : DecoratorTable} {decorator : Decorator} {record : Registration}

/-! ## Requests -/

/-- What a request for a registration answers, and the table that it leaves. -/
def request (table : DecoratorTable) (record : Registration) :
    Except DecoratorError Unit × DecoratorTable :=
  match table.register record.decorator record.position with
  | .ok after => (.ok (), after)
  | .error error => (.error error, table)

/-- The tables that requests lead to, from the empty or from the default one. -/
inductive Reached : DecoratorTable -> Prop
  | empty : Reached .empty
  | default : Reached .default
  | request {table : DecoratorTable} (reached : Reached table) (record : Registration) :
    Reached (table.request record).2

/-- No two registrations share a decorator or a position. -/
structure Apart (table : DecoratorTable) : Prop where
  decorators : (table.records.map Registration.decorator).Nodup
  positions : table.Distinct

/-- A decorator is registered if one of the registrations is its own. -/
theorem record?_eq_none : table.record? decorator = none ↔
    decorator ∉ table.records.map Registration.decorator := by
  simp [record?, List.find?_eq_none]

/-- A decorator is registered unless it is already, or its position is taken. -/
theorem register_cases (table : DecoratorTable) (decorator : Decorator) (position : Nat) :
    (decorator ∈ table.records.map Registration.decorator ∧
      table.register decorator position = .error (.registeredTwice decorator)) ∨
    (decorator ∉ table.records.map Registration.decorator ∧
      ∃ other ∈ table.records, other.position = position ∧ table.register decorator position =
        .error (.conflictingPosition decorator other.decorator position)) ∨
    (decorator ∉ table.records.map Registration.decorator ∧
      position ∉ table.records.map Registration.position ∧
      table.register decorator position = .ok ⟨table.records ++ [⟨decorator, position⟩]⟩) := by
  unfold register
  by_cases new : decorator ∈ table.records.map Registration.decorator
  · have known : table.record? decorator ≠ none := fun unknown => record?_eq_none.mp unknown new
    exact .inl ⟨new, if_pos (Option.isSome_iff_ne_none.mpr known)⟩
  · rw [record?_eq_none.mpr new]
    cases taken : table.records.find? fun record => record.position = position with
    | some other =>
      have same : other.position = position := by simpa using List.find?_some taken
      exact .inr (.inl ⟨new, other, List.mem_of_find?_eq_some taken, same, rfl⟩)
    | none => exact .inr (.inr ⟨new, by simpa using taken, rfl⟩)

/-- A request is granted if its decorator and its position are free, and then it adds to the table;
else it is refused and leaves the table. -/
theorem request_cases (table : DecoratorTable) (record : Registration) :
    (record.decorator ∉ table.records.map Registration.decorator ∧
      record.position ∉ table.records.map Registration.position ∧
      table.request record = (.ok (), ⟨table.records ++ [record]⟩)) ∨
    ((record.decorator ∈ table.records.map Registration.decorator ∨
        record.position ∈ table.records.map Registration.position) ∧
      ∃ error, table.request record = (.error error, table)) := by
  unfold request
  obtain ⟨old, refused⟩ | ⟨-, other, member, same, refused⟩ | ⟨new, free, granted⟩ :=
    table.register_cases record.decorator record.position
  · exact .inr ⟨.inl old, _, by rw [refused]⟩
  · exact .inr ⟨.inr (List.mem_map.mpr ⟨other, member, same⟩), _, by rw [refused]⟩
  · exact .inl ⟨new, free, by rw [granted]⟩

/-- A request keeps records apart. -/
theorem Apart.request (apart : table.Apart) (record : Registration) :
    (table.request record).2.Apart := by
  obtain ⟨new, free, granted⟩ | ⟨-, error, refused⟩ := table.request_cases record
  · rw [granted]
    refine ⟨?_, ?_⟩
    · rw [List.map_append, List.nodup_append_comm]
      exact List.nodup_cons.mpr ⟨new, apart.decorators⟩
    · rw [Distinct, List.map_append, List.nodup_append_comm]
      exact List.nodup_cons.mpr ⟨free, apart.positions⟩
  · rw [refused]
    exact apart

/-- In every table that can be reached, records are apart. -/
theorem Reached.apart (reached : table.Reached) : table.Apart := by
  induction reached with
  | empty => exact ⟨.nil, .nil⟩
  | default => exact ⟨by decide, by decide⟩
  | request _ record apart => exact apart.request record

/-! ## Orders -/

variable {asked ordered : List Decorator} {error : DecoratorError}

/-- Collecting fails at the first decorator that is not registered. -/
theorem collect_eq_error (sorted : List Registration) : table.collect asked sorted = .error error ↔
      ∃ decorator,
        asked.find? (fun decorator => (table.record? decorator).isNone) = some decorator ∧
        error = .unregistered decorator := by
  induction asked generalizing sorted with
  | nil => simp [collect]
  | cons decorator rest ih =>
    rw [collect, List.find?_cons]
    cases table.record? decorator with
    | none => simp [eq_comm]
    | some record =>
      simp only [Option.isNone_some]
      split <;> exact ih _

/-- An order fails with the first decorator that is not registered. -/
theorem order_eq_error : table.order asked = .error error ↔
      ∃ decorator,
        asked.find? (fun decorator => (table.record? decorator).isNone) = some decorator ∧
        error = .unregistered decorator := by
  rw [← collect_eq_error [], order]
  cases table.collect asked [] <;> simp [Except.map]

/-- The one order of the decorators asked for: each of them once, in the order of the positions. It
is the same however the decorators are asked for, and any other request has two of them in the
same order. -/
structure Orders (table : DecoratorTable) (asked ordered : List Decorator) : Prop where
  each : ∀ decorator, decorator ∈ ordered ↔ decorator ∈ asked
  once : ordered.Nodup
  increasing : ordered.Pairwise table.Outside
  same : ∀ other : List Decorator, (∀ decorator, decorator ∈ other ↔ decorator ∈ asked) ->
    table.order other = .ok ordered
  again : table.order ordered = .ok ordered
  agrees : ∀ other ordered', table.order other = .ok ordered' -> ∀ outer ∈ other, ∀ inner ∈ other,
    outer ∈ asked -> inner ∈ asked ->
      (List.Sublist [outer, inner] ordered ↔ List.Sublist [outer, inner] ordered')

/-- Of two ordered decorators, one stands before the other exactly if it is further out. -/
theorem sublist_pair_iff (increasing : ordered.Pairwise table.Outside)
    {outer inner : Decorator} (left : outer ∈ ordered) (right : inner ∈ ordered) :
    List.Sublist [outer, inner] ordered ↔ table.Outside outer inner := by
  refine ⟨List.pairwise_iff_forall_sublist.mp increasing, fun outside => ?_⟩
  obtain ⟨before, after, rfl⟩ := List.append_of_mem left
  rcases List.mem_append.mp right with earlier | later
  · -- the other way round, the two would be registered the other way round
    have inside := (List.pairwise_append.mp increasing).2.2 inner earlier outer List.mem_cons_self
    exact absurd outside inside.asymm
  · rcases List.mem_cons.mp later with rfl | later
    · exact absurd outside outside.asymm
    · exact .trans (.cons_cons _ (List.singleton_sublist.mpr later))
        (List.sublist_append_right before _)

/-- The same decorators, however often and in whatever order, are ordered alike. -/
theorem order_of_mem (apart : table.Apart)
    (orders : table.order asked = .ok ordered) {other : List Decorator}
    (same : ∀ decorator, decorator ∈ other ↔ decorator ∈ asked) :
    table.order other = .ok ordered := by
  obtain ⟨ordered', orders'⟩ : ∃ ordered', table.order other = .ok ordered' := by
    rw [order_ends_iff]
    intro decorator member
    exact order_ends_iff.mp ⟨ordered, orders⟩ decorator ((same decorator).mp member)
  have equal : ordered' = ordered := by
    refine increasing_ext (order_increasing apart.positions orders')
      (order_increasing apart.positions orders) fun decorator => ?_
    rw [(order_nests orders').asked, (order_nests orders).asked, same]
  rw [orders', equal]

/-- An order of a table with records apart is the only one that there can be. -/
theorem Apart.orders (apart : table.Apart)
    (orders : table.order asked = .ok ordered) : table.Orders asked ordered := by
  have nests := order_nests orders
  have increasing := order_increasing apart.positions orders
  refine ⟨nests.asked, nests.once, increasing, fun _ => order_of_mem apart orders,
    order_of_mem apart orders nests.asked, ?_⟩
  intro other ordered' orders' outer outer' inner inner' left right
  have nests' := order_nests orders'
  rw [sublist_pair_iff increasing ((nests.asked outer).mpr left) ((nests.asked inner).mpr right),
    sublist_pair_iff (order_increasing apart.positions orders') ((nests'.asked outer).mpr outer')
      ((nests'.asked inner).mpr inner')]

/-- However a table was built, its registrations are apart and stay so, whatever is requested next,
and a refused request leaves it. A request for an order fails at the first decorator that is not
registered, if there is one, and else it is answered with the one order. -/
theorem Reached.canonical (reached : table.Reached) :
    table.Apart ∧
    (∀ record, (table.request record).2.Apart ∧
      ∀ error, (table.request record).1 = .error error -> (table.request record).2 = table) ∧
    ∀ asked,
      (∀ error, table.order asked = .error error ↔ ∃ decorator,
        asked.find? (fun decorator => (table.record? decorator).isNone) = some decorator ∧
          error = .unregistered decorator) ∧
      ∀ ordered, table.order asked = .ok ordered -> table.Orders asked ordered := by
  have apart := reached.apart
  refine ⟨apart, fun record => ⟨apart.request record, fun error refused => ?_⟩, fun asked =>
    ⟨fun _ => order_eq_error, fun _ => apart.orders⟩⟩
  obtain ⟨-, -, granted⟩ | ⟨-, error, left⟩ := table.request_cases record
  · simp [granted] at refused
  · rw [left]

/-- A table with `call-ec` further out than `trampolined`, where a second position for `call-ec` was
refused. -/
theorem canonical_refused :
    (((empty.request ⟨.callEc, 3⟩).2.request ⟨.trampolined, 7⟩).2.request ⟨.callEc, 9⟩).2.order
      [.trampolined, .callEc, .trampolined] = .ok [.callEc, .trampolined] ∧
    ∀ record, ((((empty.request ⟨.callEc, 3⟩).2.request ⟨.trampolined, 7⟩).2.request
      ⟨.callEc, 9⟩).2.request record).2.Apart := by
  have reached :=
    ((Reached.empty.request ⟨.callEc, 3⟩).request ⟨.trampolined, 7⟩).request ⟨.callEc, 9⟩
  obtain ⟨-, requests, orders⟩ := reached.canonical
  refine ⟨?_, fun record => (requests record).1⟩
  have ordered := (orders [.callEc, .trampolined]).2 [.callEc, .trampolined] (by decide)
  exact ordered.same _ fun decorator => by cases decorator <;> decide

end DecoratorTable

end Trampoline
