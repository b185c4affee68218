import Trampoline.Proofs.Need.Data

/-!
# Parameters

The arguments of a call, as they are passed on the machine and by name, and the scope that the body
of a function runs in.
-/

namespace Trampoline.ByName

open Exec

variable {dressed total : Bool} {globals : List (String × Val)} {reading more : Reading}
  {m : Machine} {spared : Path -> Prop}

/-- Arguments and their entries, one by one. -/
def HoldAll (dressed : Bool) (globals : List (String × Val)) (reading : Reading) :
    List Value -> List Entry -> Prop :=
  List.Forall₂ (Holds dressed globals reading)

/-- Keyword arguments and their entries, one by one. -/
def HoldNamed (dressed : Bool) (globals : List (String × Val)) (reading : Reading) :
    Kwargs -> Bindings -> Prop :=
  List.Forall₂ fun kwarg named => kwarg.1 = named.1 ∧ Holds dressed globals reading kwarg.2 named.2

/-- Parameters that are bound alike. -/
def Bound (dressed : Bool) (globals : List (String × Val)) (reading : Reading) :
    List (String × Option Value) -> List (String × Option Entry) -> Prop :=
  List.Forall₂ fun param place =>
    param.1 = place.1 ∧ Option.Rel (Holds dressed globals reading) param.2 place.2

variable {entries : List Entry} {params : List (String × Option Value)}
  {places places' : List (String × Option Entry)} {value : Value} {val : Val} {entry : Entry}
  {kwargs : Kwargs} {names named names' : Bindings} {env : Env} {signature : Signature}

theorem HoldAll.grow {values : List Value}
    (hold : HoldAll dressed globals reading values entries) (grows : reading.Grows more) :
    HoldAll dressed globals more values entries :=
  hold.imp fun _ _ holds => holds.grow grows

theorem Bound.grow (bound : Bound dressed globals reading params places)
    (grows : reading.Grows more) :
    Bound dressed globals more params places := by
  refine bound.imp ?_
  rintro ⟨param, value⟩ ⟨place, entry⟩ ⟨same, holds⟩
  cases holds with
  | some holds => exact ⟨same, .some (holds.grow grows)⟩
  | none => exact ⟨same, .none⟩

/-- What holds of a value holds of nothing else. -/
theorem Holds.means (holds : Holds dressed globals reading value (.value val)) :
    Means dressed reading value val := by
  cases holds with
  | value means evaluates =>
    rw [Entry.Evaluates, refer_eq] at evaluates
    cases evaluates
    exact means

theorem Entry.evaluates_value (val : Val) : (Entry.value val).Evaluates globals val := by
  rw [Entry.Evaluates, refer_eq]
  rfl

theorem Means.holds (means : Means dressed reading value val) :
    Holds dressed globals reading value (.value val) :=
  .value means (Entry.evaluates_value val)

/-- Arguments that were evaluated. -/
theorem HoldAll.values {values : List Value} (hold : HoldAll dressed globals reading values entries)
    (evaluated : ∀ entry ∈ entries, ∃ val, entry = .value val) :
    ∃ vals, entries.mapM Entry.value? = some vals ∧ MeanAll dressed reading values vals := by
  induction hold with
  | nil => exact ⟨[], rfl, .nil⟩
  | cons holds _ ih =>
    obtain ⟨val, rfl⟩ := evaluated _ List.mem_cons_self
    obtain ⟨vals, all, mean⟩ :=
      ih fun entry member => evaluated entry (List.mem_cons_of_mem _ member)
    refine ⟨val :: vals, ?_, .cons holds.means mean⟩
    simp [List.mapM_cons, Entry.value?, all]

/-! ## Binding -/

/-- Positional arguments are bound as their entries are placed. -/
theorem HoldAll.bound {values : List Value}
    (hold : HoldAll dressed globals reading values entries) (params : List String) :
    Bound dressed globals reading (bindPositional params values) (place params entries) := by
  induction params generalizing values entries with
  | nil => exact .nil
  | cons param rest ih =>
    cases hold with
    | nil => exact .cons ⟨rfl, .none⟩ (ih .nil)
    | cons holds others => exact .cons ⟨rfl, .some holds⟩ (ih others)

/-- A keyword argument is bound as its entry is placed, or both fail. -/
theorem Bound.keyword (bound : Bound dressed globals reading params places)
    (keyword : String) (holds : Holds dressed globals reading value entry) :
    Option.Rel (Bound dressed globals reading) (bindKeyword keyword value params)
      (placeKeyword keyword entry places) := by
  induction bound with
  | nil => exact .none
  | @cons param place params places same others ih =>
    obtain ⟨param, old⟩ := param
    obtain ⟨place, old'⟩ := place
    obtain ⟨rfl, same⟩ := same
    rw [bindKeyword, placeKeyword]
    split
    · exact .some (.cons ⟨rfl, .some holds⟩ others)
    · generalize bindKeyword keyword value params = found,
        placeKeyword keyword entry places = found' at ih ⊢
      cases ih with
      | none => exact .none
      | some bound => exact .some (.cons ⟨rfl, same⟩ bound)

/-- Keyword arguments are bound as their entries are placed, or both fail. -/
theorem Bound.keywords_follows (func : String)
    (hold : HoldNamed dressed globals reading kwargs names)
    (bound : Bound dressed globals reading params places) :
    Follows total m (bindKeywords func kwargs params) (placeKeywords names places)
      fun params places m' => m' = m ∧ Bound dressed globals reading params places := by
  induction hold generalizing params places with
  | nil => exact .pure ⟨rfl, bound⟩
  | @cons kwarg named kwargs names same others ih =>
    obtain ⟨keyword, value⟩ := kwarg
    obtain ⟨keyword', entry⟩ := named
    obtain ⟨rfl, holds⟩ := same
    have found := bound.keyword keyword holds
    rw [bindKeywords, placeKeywords]
    generalize bindKeyword keyword value params = params',
      placeKeyword keyword entry places = places'
      at found ⊢
    cases found with
    | none => exact .fail _
    | some bound' => exact ih bound'

/-- The cells of parameters follow their entries, and both fail where one is missing. -/
theorem Bound.cells_follows (func : String) (bound : Bound dressed globals reading params places)
    (agrees : Agrees dressed globals reading m) (stands : Stands reading env names) :
    Follows total m (bindCells func params env) (fill places names)
      (Gives dressed globals spared reading m Stands) := by
  induction params generalizing places reading m env names with
  | nil =>
    cases bound
    exact .pure (.same agrees stands)
  | cons param rest ih =>
    cases bound with
    | @cons _ place _ places same others =>
      obtain ⟨param, value⟩ := param
      obtain ⟨place, entry⟩ := place
      obtain ⟨rfl, holds⟩ := same
      cases holds with
      | none => exact .fail _
      | @some value entry holds =>
        have grows := reading.grows_withCell entry
        obtain ⟨agrees', moves⟩ := agrees.newCell (holds.grow grows)
        have made : (reading.withCell entry).cells[m.cells.size]? = some entry := by
          simp [Reading.withCell, ← agrees.cells]
        have others' := Bound.grow others grows
        refine .step rfl ((ih others' agrees' (.cons ⟨rfl, made⟩ (stands.grow grows))).imp ?_)
        rintro env names m' ⟨more, moves', agrees'', stands'⟩
        exact ⟨more, (moves.trans moves').weaken fun _ kept => ⟨kept, kept⟩, agrees'', stands'⟩

/-- The body of a function gets the scope that it has by name. -/
theorem Agrees.parameters_follows (agrees : Agrees dressed globals reading m)
    {other : Signature} (same : other.params = signature.params)
    (stands : Stands reading env names) {args : List Value}
    (hold : HoldAll dressed globals reading args entries)
    (hold' : HoldNamed dressed globals reading kwargs named) :
    Follows total m (parameterScope other env args kwargs)
      (parameters signature names entries named)
      (Gives dressed globals spared reading m Stands) := by
  unfold parameterScope parameters
  rw [same, hold.length_eq]
  refine .ite (fun _ => .fail _) fun _ => ?_
  refine ((hold.bound signature.params).keywords_follows _ hold').bind ?_
  rintro params places _ ⟨rfl, bound⟩
  exact bound.cells_follows _ agrees stands

/-! ## What is settled -/

/-- No parameter is bound to a thunk. -/
def SettledPlaces (places : List (String × Option Entry)) : Prop :=
  ∀ placed ∈ places, ∀ entry, placed.2 = some entry -> entry.isThunk = false

/-- Places are settled if the first and the others are. -/
theorem settledPlaces_cons {param : String} {entry : Option Entry} :
    SettledPlaces ((param, entry) :: places) ↔
      (∀ held, entry = some held -> held.isThunk = false) ∧ SettledPlaces places :=
  List.forall_mem_cons

theorem settled_cons {name : String} :
    Settled ((name, entry) :: names) ↔ entry.isThunk = false ∧ Settled names :=
  List.forall_mem_cons

/-- Settled arguments settle the parameters at which they are placed. -/
theorem place_settled (settled : ∀ entry ∈ entries, entry.isThunk = false)
    (params : List String) : SettledPlaces (place params entries) := by
  induction params generalizing entries with
  | nil => exact fun _ member => absurd member List.not_mem_nil
  | cons param rest ih =>
    cases entries with
    | nil => exact settledPlaces_cons.mpr ⟨nofun, ih nofun⟩
    | cons first others =>
      obtain ⟨head, tail⟩ := List.forall_mem_cons.mp settled
      exact settledPlaces_cons.mpr ⟨fun _ same => Option.some.inj same ▸ head, ih tail⟩

/-- A settled keyword argument leaves the places settled. -/
theorem SettledPlaces.keyword {keyword : String} (plain : entry.isThunk = false)
    (settled : SettledPlaces places)
    (found : placeKeyword keyword entry places = some places') : SettledPlaces places' := by
  induction places generalizing places' with
  | nil => cases found
  | cons first rest ih =>
    obtain ⟨param, old⟩ := first
    obtain ⟨head, tail⟩ := settledPlaces_cons.mp settled
    rw [placeKeyword] at found
    split at found
    · cases found
      exact settledPlaces_cons.mpr ⟨fun _ same => Option.some.inj same ▸ plain, tail⟩
    · obtain ⟨others, placed, rfl⟩ := Option.map_eq_some_iff.mp found
      exact settledPlaces_cons.mpr ⟨head, ih tail placed⟩

/-- Settled keyword arguments leave the places settled. -/
theorem SettledPlaces.keywords (plain : Settled named) (settled : SettledPlaces places)
    (found : placeKeywords named places = some places') : SettledPlaces places' := by
  induction named generalizing places with
  | nil =>
    cases found
    exact settled
  | cons first rest ih =>
    obtain ⟨keyword, entry⟩ := first
    obtain ⟨head, tail⟩ := settled_cons.mp plain
    obtain ⟨middle, found, rest⟩ := Option.bind_eq_some_iff.mp found
    exact ih tail (settled.keyword head found) rest

/-- Filled places that are settled bind no name to a thunk. -/
theorem SettledPlaces.fill (settled : SettledPlaces places)
    (plain : Settled names) (found : fill places names = some names') : Settled names' := by
  induction places generalizing names with
  | nil =>
    cases found
    exact plain
  | cons first rest ih =>
    obtain ⟨param, entry⟩ := first
    obtain ⟨head, tail⟩ := settledPlaces_cons.mp settled
    cases entry with
    | none => cases found
    | some entry => exact ih tail (settled_cons.mpr ⟨head entry rfl, plain⟩) found

/-- Without thunks among the arguments there are none in the scope of the body. -/
theorem parameters_settled (settled : Settled names)
    (plain : ∀ entry ∈ entries, entry.isThunk = false) (plain' : Settled named)
    (found : parameters signature names entries named = some names') : Settled names' := by
  unfold parameters at found
  split at found
  · cases found
  · obtain ⟨places, placed, found⟩ := Option.bind_eq_some_iff.mp found
    exact ((place_settled plain signature.params).keywords plain' placed).fill settled found

end Trampoline.ByName
