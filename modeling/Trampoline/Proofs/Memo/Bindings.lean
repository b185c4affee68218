import Trampoline.Proofs.Evaluation.Order
import Trampoline.Machine.Eval

/-!
# What parameters are bound to

A function that is applied binds its parameters to cells. What is in the cell of a parameter is
given by the arguments alone, whatever the machine.
-/

namespace Trampoline

open Exec

/-- What a parameter is bound to when the function is applied on the machine, if it can be. -/
def Function.bound (function : Function) (env : Env) (args : List Value) (kwargs : Kwargs)
    (m : Machine) (param : String) : Option Value :=
  match parameterScope function.signature env args kwargs m with
  | some (.ok scope, last) => (scope.lookup param).map last.cell
  | _ => none

/-- Two ends of binding parameters on two machines: the same failure, or scopes in which the names
stand for cells with the same content. -/
def SameScopes (names : String -> Prop) : Except EvalError Env × Machine ->
    Except EvalError Env × Machine -> Prop
  | (.ok scope, m), (.ok scope', m') => ∀ name, names name -> ∃ ref ref',
      scope.lookup name = some ref ∧ ref < m.cells.size ∧
      scope'.lookup name = some ref' ∧ ref' < m'.cells.size ∧ m.cell ref = m'.cell ref'
  | (.error error, _), (.error error', _) => error = error'
  | _, _ => False

variable {names : String -> Prop} {m m' : Machine}

theorem Machine.cell_push {ref : CellRef} (known : ref < m.cells.size) (value : Value) :
    ({ m with cells := m.cells.push value } : Machine).cell ref = m.cell ref := by
  simp [cell, Array.getD_eq_getD_getElem?, Array.getElem?_push, Nat.ne_of_lt known]

theorem Machine.cell_push_size (value : Value) :
    ({ m with cells := m.cells.push value } : Machine).cell m.cells.size = value := by
  simp [cell, Array.getD_eq_getD_getElem?]

/-- A parameter is put into a new cell on either machine. -/
theorem SameScopes.newCell {env env' : Env} (same : SameScopes names (.ok env, m) (.ok env', m'))
    (param : String) (value : Value) :
    SameScopes (fun name => name = param ∨ names name)
      (.ok ((param, m.cells.size) :: env), { m with cells := m.cells.push value })
      (.ok ((param, m'.cells.size) :: env'), { m' with cells := m'.cells.push value }) := by
  intro name known
  by_cases isParam : name = param
  · subst isParam
    refine ⟨_, _, List.lookup_cons_self, by simp, List.lookup_cons_self, by simp, ?_⟩
    rw [Machine.cell_push_size, Machine.cell_push_size]
  · obtain ⟨ref, ref', found, inside, found', inside', equal⟩ :=
      same name (known.resolve_left isParam)
    have differs : (name == param) = false := by simpa using isParam
    refine ⟨ref, ref', ?_, ?_, ?_, ?_, ?_⟩
    · rw [List.lookup_cons, differs]
      exact found
    · exact Nat.lt_of_lt_of_le inside (by simp)
    · rw [List.lookup_cons, differs]
      exact found'
    · exact Nat.lt_of_lt_of_le inside' (by simp)
    · rw [Machine.cell_push inside, Machine.cell_push inside', equal]

/-- Cells that are bound on both sides give scopes that agree on the names. -/
theorem bindCells_same (func : String) (bound : List (String × Option Value)) {env env' : Env}
    (same : SameScopes names (.ok env, m) (.ok env', m')) :
    ∃ outcome outcome', bindCells func bound env m = some outcome ∧
      bindCells func bound env' m' = some outcome' ∧
      SameScopes (fun name => name ∈ bound.map Prod.fst ∨ names name) outcome outcome' := by
  induction bound generalizing names m m' env env' with
  | nil =>
    refine ⟨_, _, rfl, rfl, fun name known => same name ?_⟩
    exact known.resolve_left List.not_mem_nil
  | cons first rest ih =>
    obtain ⟨param, _ | value⟩ := first
    · exact ⟨_, _, rfl, rfl, rfl⟩
    · obtain ⟨outcome, outcome', ends, ends', after⟩ := ih (same.newCell param value)
      refine ⟨outcome, outcome', ends, ends', ?_⟩
      have covers (name : String) :
          (name ∈ ((param, some value) :: rest).map Prod.fst ∨ names name) ↔
            (name ∈ rest.map Prod.fst ∨ name = param ∨ names name) := by
        rw [List.map_cons, List.mem_cons, or_assoc, or_left_comm]
      simpa only [covers] using after

/-- Binding a keyword gives a parameter a value and changes no names. -/
theorem map_fst_bindKeyword {keyword : String} {value : Value} :
    ∀ {bound after : List (String × Option Value)}, bindKeyword keyword value bound = some after ->
      after.map Prod.fst = bound.map Prod.fst
  | (param, old) :: rest, after, binds => by
    rw [bindKeyword] at binds
    split at binds
    · cases binds
      rfl
    · obtain ⟨others, inside, rfl⟩ := Option.map_eq_some_iff.mp binds
      rw [List.map_cons, map_fst_bindKeyword inside, List.map_cons]

/-- Keyword arguments are bound alike on all machines, which stay as they are. -/
theorem bindKeywords_same (func : String) (kwargs : Kwargs) (bound : List (String × Option Value)) :
    ∃ result, (∀ m, bindKeywords func kwargs bound m = some (result, m)) ∧
      ∀ after, result = .ok after -> after.map Prod.fst = bound.map Prod.fst := by
  induction kwargs generalizing bound with
  | nil =>
    refine ⟨.ok bound, fun _ => rfl, ?_⟩
    rintro _ ⟨⟩
    rfl
  | cons kwarg rest ih =>
    obtain ⟨keyword, value⟩ := kwarg
    simp only [bindKeywords]
    cases binds : bindKeyword keyword value bound with
    | none => exact ⟨.error (.unexpectedKeyword func keyword), fun _ => rfl, nofun⟩
    | some after =>
      obtain ⟨result, ends, names⟩ := ih after
      exact ⟨result, ends, fun last same => (names last same).trans (map_fst_bindKeyword binds)⟩

/-- Binding positional arguments gives one entry to each parameter. -/
theorem map_fst_bindPositional (params : List String) (args : List Value) :
    (bindPositional params args).map Prod.fst = params := by
  induction params generalizing args with
  | nil => rfl
  | cons param params ih => cases args <;> simp [bindPositional, ih]

/-- The scope of a call depends on its arguments only: over the same names it has the same
values. -/
theorem parameterScope_same (signature : Signature) (env : Env) (args : List Value)
    (kwargs : Kwargs) (m m' : Machine) : ∃ outcome outcome',
      parameterScope signature env args kwargs m = some outcome ∧
      parameterScope signature env args kwargs m' = some outcome' ∧
      SameScopes (· ∈ signature.params) outcome outcome' := by
  simp only [parameterScope]
  split
  · exact ⟨_, _, rfl, rfl, rfl⟩
  · obtain ⟨result, ends, names⟩ :=
      bindKeywords_same signature.label kwargs (bindPositional signature.params args)
    cases result with
    | error error =>
      have fails (m : Machine) : (bindKeywords signature.label kwargs
          (bindPositional signature.params args) >>= fun bound =>
            bindCells signature.label bound env) m = some (.error error, m) :=
        bind_eq_some.mpr (.inr ⟨error, m, ends m, rfl⟩)
      exact ⟨_, _, fails m, fails m', rfl⟩
    | ok bound =>
      have none : SameScopes (fun _ => False) (.ok env, m) (.ok env, m') := fun _ => False.elim
      obtain ⟨outcome, outcome', cells, cells', same⟩ := bindCells_same signature.label bound none
      refine ⟨outcome, outcome', (bind_apply (ends m) _).trans cells,
        (bind_apply (ends m') _).trans cells', ?_⟩
      simpa only [names bound rfl, map_fst_bindPositional, or_false] using same

/-- What a parameter is bound to does not hang on the machine. -/
theorem Function.bound_eq (function : Function) (env : Env) (args : List Value) (kwargs : Kwargs)
    {param : String} (isParam : param ∈ function.signature.params) (m m' : Machine) :
    function.bound env args kwargs m param = function.bound env args kwargs m' param := by
  obtain ⟨⟨result, last⟩, ⟨result', last'⟩, ends, ends', same⟩ :=
    parameterScope_same function.signature env args kwargs m m'
  rw [bound, bound, ends, ends']
  cases result with
  | error error =>
    cases result' with
    | error error' => rfl
    | ok scope => exact same.elim
  | ok scope =>
    cases result' with
    | error error => exact same.elim
    | ok scope' =>
      obtain ⟨ref, ref', found, -, found', -, equal⟩ := same param isParam
      simp only [found, found', Option.map_some, equal]

end Trampoline
