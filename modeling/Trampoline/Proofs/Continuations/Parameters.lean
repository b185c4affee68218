import Mathlib.Data.List.Nodup
import Trampoline.Proofs.Memo.Bindings

/-!
# Arguments and their parameters

A function with distinct parameters, applied to arguments with distinct keywords, checks in this
order that there are not too many positional arguments, that each keyword names a parameter, and
that each parameter has an argument. Then each parameter has a cell of its own with the argument
that names it, or else with the one at its place.
-/

namespace Trampoline

open Exec

variable {params : List String} {args : List Value} {kwargs : Kwargs} {func : String}
  {given : String -> Option Value}

/-- The argument for a parameter: the one that names it, else the one at its place. -/
def argumentFor (params : List String) (args : List Value) (kwargs : Kwargs) (param : String) :
    Option Value :=
  (kwargs.lookup param).or args[params.idxOf param]?

/-- Each parameter with what is given for it. -/
def boundTo (params : List String) (given : String -> Option Value) :
    List (String × Option Value) :=
  params.map fun param => (param, given param)

/-! ## Positional arguments -/

/-- Parameters are bound alike if each is given the same. -/
theorem boundTo_congr {given' : String -> Option Value}
    (same : ∀ param ∈ params, given param = given' param) :
    boundTo params given = boundTo params given' :=
  List.map_congr_left fun param listed => by rw [same param listed]

/-- A distinct parameter is bound to the argument at its place. -/
theorem bindPositional_eq (once : params.Nodup) :
    bindPositional params args = boundTo params fun param => args[params.idxOf param]? := by
  induction params generalizing args with
  | nil => rfl
  | cons first rest ih =>
    obtain ⟨new, once⟩ := List.nodup_cons.mp once
    have later (param : String) (listed : param ∈ rest) :
        (first :: rest).idxOf param = rest.idxOf param + 1 :=
      List.idxOf_cons_ne _ fun same => new (same ▸ listed)
    rw [boundTo, List.map_cons, List.idxOf_cons_self]
    cases args with
    | nil =>
      rw [bindPositional, ih once]
      exact congrArg _ (boundTo_congr fun param _ => by simp)
    | cons value others =>
      rw [bindPositional, ih once]
      refine congrArg _ (boundTo_congr fun param listed => ?_)
      rw [later param listed, List.getElem?_cons_succ]

/-! ## Keyword arguments -/

/-- A keyword replaces what its parameter is given, and nothing else. -/
theorem bindKeyword_eq (once : params.Nodup) (keyword : String) (value : Value) :
    bindKeyword keyword value (boundTo params given) =
      if keyword ∈ params then
        some (boundTo params fun param => if param = keyword then some value else given param)
      else none := by
  induction params with
  | nil => rfl
  | cons first rest ih =>
    obtain ⟨new, once⟩ := List.nodup_cons.mp once
    rw [boundTo, List.map_cons, bindKeyword]
    by_cases same : first = keyword
    · subst same
      rw [if_pos rfl, if_pos List.mem_cons_self, boundTo, List.map_cons, if_pos rfl]
      refine congrArg (fun others => some ((first, some value) :: others)) (boundTo_congr ?_)
      intro param listed
      have differs : param ≠ first := fun same => new (same ▸ listed)
      rw [if_neg differs]
    · have others := ih once
      rw [boundTo] at others
      rw [if_neg same, others]
      by_cases listed : keyword ∈ rest
      · rw [if_pos listed, if_pos (List.mem_cons_of_mem _ listed), boundTo, boundTo, List.map_cons,
          if_neg same]
        rfl
      · rw [if_neg listed, if_neg]
        · rfl
        · exact not_or.mpr ⟨Ne.symm same, listed⟩ ∘ List.mem_cons.mp

/-- Keywords that name parameters take the places of what was given for these. -/
theorem bindKeywords_eq (func : String) (given : String -> Option Value) (once : params.Nodup)
    (distinct : (kwargs.map Prod.fst).Nodup)
    (known : ∀ keyword ∈ kwargs.map Prod.fst, keyword ∈ params) (m : Machine) :
    bindKeywords func kwargs (boundTo params given) m =
      some (.ok (boundTo params fun param => (kwargs.lookup param).or (given param)), m) := by
  induction kwargs generalizing given with
  | nil => rfl
  | cons first rest ih =>
    obtain ⟨keyword, value⟩ := first
    obtain ⟨listed, known⟩ := List.forall_mem_cons.mp known
    obtain ⟨new, distinct⟩ := List.nodup_cons.mp distinct
    rw [bindKeywords, bindKeyword_eq once, if_pos listed]
    have others (param : String) :
        (rest.lookup param).or (if param = keyword then some value else given param) =
          (((keyword, value) :: rest).lookup param).or (given param) := by
      rw [List.lookup_cons]
      by_cases same : param = keyword
      · subst same
        have unnamed : rest.lookup param = none :=
          List.lookup_eq_none_iff.mpr fun entry member => bne_iff_ne.mpr fun named =>
            new (List.mem_map.mpr ⟨entry, member, named.symm⟩)
        simp [unnamed]
      · simp [beq_false_of_ne same, same]
    rw [← boundTo_congr fun param _ => others param]
    exact ih _ distinct known

/-- The first keyword that names no parameter is an error. -/
theorem bindKeywords_unknown (once : params.Nodup) {keyword : String}
    (first : (kwargs.map Prod.fst).find? (fun keyword => keyword ∉ params) = some keyword)
    (m : Machine) : bindKeywords func kwargs (boundTo params given) m =
      some (.error (.unexpectedKeyword func keyword), m) := by
  induction kwargs generalizing given with
  | nil => cases first
  | cons head rest ih =>
    obtain ⟨other, value⟩ := head
    rw [List.map_cons, List.find?_cons] at first
    rw [bindKeywords, bindKeyword_eq once]
    by_cases listed : other ∈ params
    · rw [if_pos listed]
      exact ih (by simpa [listed] using first)
    · obtain rfl : other = keyword := by simpa [listed] using first
      rw [if_neg listed]
      rfl

/-! ## Cells -/

/-- The first parameter without an argument is an error. -/
theorem bindCells_missing {param : String}
    (first : params.find? (fun param => (given param).isNone) = some param) (env : Env)
    (m : Machine) :
    ∃ last, bindCells func (boundTo params given) env m =
      some (.error (.missingArgument func param), last) := by
  induction params generalizing env m with
  | nil => cases first
  | cons head rest ih =>
    rw [List.find?_cons] at first
    rw [boundTo, List.map_cons]
    cases got : given head with
    | none =>
      obtain rfl : head = param := by simpa [got] using first
      exact ⟨m, rfl⟩
    | some value => exact ih (by simpa [got] using first) _ _

/-- Each parameter has a new cell with its argument. -/
theorem bindCells_eq (func : String) (once : params.Nodup)
    (all : ∀ param ∈ params, (given param).isSome = true) (env : Env) (m : Machine) : ∃ scope last,
      bindCells func (boundTo params given) env m = some (.ok scope, last) ∧
      (∀ ref < m.cells.size, ref < last.cells.size ∧ last.cell ref = m.cell ref) ∧
      (∀ name ∉ params, scope.lookup name = env.lookup name) ∧
      ∀ param ∈ params, ∃ ref, scope.lookup param = some ref ∧
        given param = some (last.cell ref) := by
  induction params generalizing env m with
  | nil => exact ⟨env, m, rfl, fun ref known => ⟨known, rfl⟩, fun _ _ => rfl, nofun⟩
  | cons first rest ih =>
    obtain ⟨new, once⟩ := List.nodup_cons.mp once
    obtain ⟨got, all⟩ := List.forall_mem_cons.mp all
    obtain ⟨value, got⟩ := Option.isSome_iff_exists.mp got
    obtain ⟨scope, last, binds, kept, others, bound⟩ := ih once all ((first, m.cells.size) :: env)
      { m with cells := m.cells.push value }
    have mine := kept m.cells.size (by simp)
    rw [Machine.cell_push_size] at mine
    refine ⟨scope, last, ?_, fun ref known => ?_, fun name unlisted => ?_, ?_⟩
    · rw [boundTo, List.map_cons, got]
      exact binds
    · have later := kept ref (Nat.lt_of_lt_of_le known (by simp))
      rwa [Machine.cell_push known] at later
    · obtain ⟨differs, unlisted⟩ := not_or.mp (mt List.mem_cons.mpr unlisted)
      rw [others name unlisted, List.lookup_cons, beq_false_of_ne differs]
    · refine List.forall_mem_cons.mpr ⟨⟨m.cells.size, ?_, by rw [got, mine.2]⟩, bound⟩
      rw [others first new, List.lookup_cons_self]

/-! ## Scopes of bodies -/

/-- What a function comes to with these arguments, before its body begins: one of its checks fails
first, or all its parameters are bound. -/
inductive Signature.BindsParams (signature : Signature) (args : List Value) (kwargs : Kwargs) :
    Outcome Machine Env -> Prop
  | arity {m : Machine} (more : signature.params.length < args.length) :
      BindsParams signature args kwargs
        (.error (.arity signature.label signature.params.length args.length), m)
  | unexpectedKeyword {m : Machine} {keyword : String}
      (fits : args.length ≤ signature.params.length)
      (first :
        (kwargs.map Prod.fst).find? (fun keyword => keyword ∉ signature.params) = some keyword) :
      BindsParams signature args kwargs (.error (.unexpectedKeyword signature.label keyword), m)
  | missingArgument {m : Machine} {param : String} (fits : args.length ≤ signature.params.length)
      (known : ∀ keyword ∈ kwargs.map Prod.fst, keyword ∈ signature.params)
      (first : signature.params.find? (fun param =>
        (argumentFor signature.params args kwargs param).isNone) = some param) :
      BindsParams signature args kwargs (.error (.missingArgument signature.label param), m)
  | scope {m : Machine} {scope : Env} (fits : args.length ≤ signature.params.length)
      (known : ∀ keyword ∈ kwargs.map Prod.fst, keyword ∈ signature.params)
      (bound : ∀ param ∈ signature.params, ∃ ref, scope.lookup param = some ref ∧
        argumentFor signature.params args kwargs param = some (m.cell ref)) :
      BindsParams signature args kwargs (.ok scope, m)

/-- A function with distinct parameters binds them to its arguments or fails as `BindsParams`
says. -/
theorem parameterScope_binds {signature : Signature} (once : signature.params.Nodup)
    (distinct : (kwargs.map Prod.fst).Nodup) (env : Env) (args : List Value) (m : Machine) :
    ∃ outcome, parameterScope signature env args kwargs m = some outcome ∧
      signature.BindsParams args kwargs outcome := by
  simp only [parameterScope, bindPositional_eq once]
  by_cases more : signature.params.length < args.length
  · rw [if_pos more]
    exact ⟨_, rfl, .arity more⟩
  rw [if_neg more]
  have fits := Nat.le_of_not_lt more
  cases unknown : (kwargs.map Prod.fst).find? fun keyword => keyword ∉ signature.params with
  | some keyword =>
    exact ⟨_, bind_eq_some.mpr (.inr ⟨_, m, bindKeywords_unknown once unknown m, rfl⟩),
      .unexpectedKeyword fits unknown⟩
  | none =>
    have known : ∀ keyword ∈ kwargs.map Prod.fst, keyword ∈ signature.params := by
      simpa using unknown
    have binds := bindKeywords_eq signature.label (fun param => args[signature.params.idxOf param]?)
      once distinct known m
    rw [bind_apply binds]
    cases missing : signature.params.find? fun param =>
        (argumentFor signature.params args kwargs param).isNone with
    | some param =>
      obtain ⟨last, fails⟩ := bindCells_missing missing env m
      exact ⟨_, fails, .missingArgument fits known missing⟩
    | none =>
      have all : ∀ param ∈ signature.params,
          (argumentFor signature.params args kwargs param).isSome = true := by
        simpa [Option.isSome_iff_ne_none] using missing
      obtain ⟨scope, last, cells, -, -, bound⟩ := bindCells_eq signature.label once all env m
      exact ⟨_, cells, .scope fits known bound⟩

end Trampoline
