import Trampoline.Proofs.Continuations.Resumption
import Trampoline.Proofs.Positions.Scopes
import Trampoline.Proofs.Transport.Histories

/-!
# Resuming a continuation more than once

Every resumption of a continuation evaluates the same body in the scope that was captured, with new
cells for the variables. What names stand for in one resumption is new or was captured, so two
resumptions share the captured variables and no others. How a resumption ends depends on its
arguments and on what they, the scope and the globals refer to.
-/

namespace Trampoline

open Exec

variable {m : Machine} {n : Nat}

/-! ## The scope of a resumption -/

/-- The scope with the variables for cells from the next one on. -/
def Env.binding : List String -> CellRef -> Env -> Env
  | [], _, env => env
  | param :: params, next, env => binding params (next + 1) ((param, next) :: env)

variable {values : List Value}

/-- A resumption binds as many values as there are variables. -/
theorem resumeValues_length {count : Nat} {args : List Value}
    (gives : resumeValues count args = .ok values) : values.length = count := by
  unfold resumeValues at gives
  split at gives
  · cases gives
    exact (‹count = 0›).symm
  · split at gives
    · cases gives
      exact ‹_›
    · split at gives
      · split at gives
        · cases gives
          exact ‹_›
        · cases gives
      · cases gives

/-- As many values as variables are put into the next cells. -/
theorem bindValues_eq {params : List String}
    (fits : values.length = params.length) (env : Env) (m : Machine) :
    bindValues params values env m = some (.ok (Env.binding params m.cells.size env),
      { m with cells := m.cells ++ values.toArray }) := by
  induction params generalizing values env m with
  | nil =>
    obtain rfl := List.length_eq_zero_iff.mp fits
    simp [bindValues, Env.binding]
  | cons param params ih =>
    obtain ⟨value, rest, rfl⟩ := List.exists_cons_of_length_eq_add_one fits
    have fits : rest.length = params.length := Nat.succ.inj fits
    refine (ih fits ((param, m.cells.size) :: env)
      { m with cells := m.cells.push value }).trans ?_
    simp [Env.binding, Array.size_push]

/-- The variables of a capture get the cells that are made next. -/
theorem Env.binding_extends (params : List String) (next : CellRef) (env : Env) :
    Env.Extends env (· ∈ params) (List.range' next params.length)
      (Env.binding params next env) := by
  induction params generalizing next env with
  | nil => exact .refl _ _ _
  | cons param params ih =>
    have first : Env.Extends env (· ∈ param :: params) [next] ((param, next) :: env) :=
      (Env.Extends.refl env _ [next]).bind List.mem_cons_self List.mem_cons_self
    have rest := (ih (next + 1) ((param, next) :: env)).mono
      (fun name => List.mem_cons_of_mem param) (List.Subset.refl _)
    exact first.trans rest

/-! ## What a call does in the body that it runs -/

namespace Call

/-- The evaluations of expressions of the body that the call runs itself. -/
def visits : Call -> List Call
  | ⟨0, _, _⟩ => []
  | ⟨n + 1, task, m⟩ =>
    if task.isOfBody then [] else task.plan.calls (Task.run n) (Task.visits n) m

/-- The name stands for the cell where some evaluation begins or ends in the body that the call
runs. -/
def Knows (call : Call) (name : String) (ref : CellRef) : Prop :=
  ∃ visit ∈ call.visits, ∃ scope, visit.StandsIn scope ∧ scope.lookup name = some ref

end Call

namespace Plan

variable {α β : Type} {perform : (task : Task) -> Run task.Answer} {run : Run β}
  {next : β -> Plan α} {value : β} {middle : Machine}

/-- A step that ends well makes no calls of its own. -/
theorem calls_lift_bind {inside : Task -> Machine -> List Call}
    (ran : run m = some (.ok value, middle)) :
    (lift run >>= next).calls perform inside m = (next value).calls perform inside middle := by
  rw [show (lift run >>= next) = step run next from rfl, calls, ran]

variable {inside : Task -> Machine -> List CellRef}

/-- The cells of a step that ends well come before those of what follows. -/
theorem makes_lift_bind (ran : run m = some (.ok value, middle)) :
    (lift run >>= next).makes perform inside m =
      m.newCells middle ++ (next value).makes perform inside middle := by
  rw [show (lift run >>= next) = step run next from rfl, makes, ran]

/-- The last task of a plan. -/
theorem calls_sub_pure {inside : Task -> Machine -> List Call} (task : Task)
    (result : task.Answer -> α) :
    (sub task >>= fun answer => pure (result answer)).calls perform inside m = inside task m := by
  rw [show (sub task >>= fun answer => (pure (result answer) : Plan α)) =
    ask task fun answer => done (result answer) from rfl, calls]
  split
  · exact List.append_nil _
  · exact List.append_nil _

/-- A task on its own makes the cells that are made inside of it. -/
theorem makes_sub_pure (task : Task) (result : task.Answer -> α) :
    (sub task >>= fun answer => pure (result answer)).makes perform inside m = inside task m := by
  rw [show (sub task >>= fun answer => (pure (result answer) : Plan α)) =
    ask task fun answer => done (result answer) from rfl, makes]
  split
  · exact List.append_nil _
  · exact List.append_nil _

end Plan

/-- Where nothing happens no cell is made. -/
theorem Machine.newCells_self (m : Machine) : m.newCells m = [] := by
  rw [Machine.newCells, Nat.sub_self]
  rfl

/-! ## Resumptions -/

section Resumption

variable {ref extent : Nat} {function : Function} {env : Env} {args values : List Value}
  {error : EvalError}

/-- The machine with the values in the next cells. -/
def Machine.withCells (m : Machine) (values : List Value) : Machine :=
  { m with cells := m.cells ++ values.toArray }

/-- The evaluation of the body of a continuation that is resumed on the machine. -/
def Function.bodyOn (function : Function) (env : Env) (m : Machine) : Task :=
  .eval function.body ⟨Env.binding function.signature.params m.cells.size env, false, none⟩

/-- The call of the strict continuation. -/
def Call.resuming (fuel ref : Nat) (function : Function) (env : Env) (extent : Nat)
    (args : List Value) (m : Machine) : Call :=
  ⟨fuel, .apply (.continuation ref function env extent false) args [], m⟩

section Valid

variable (valid : m.valid extent = true)
include valid

/-- The extent of a resumption that is allowed is valid. -/
theorem extentValid_eq : Run.extentValid extent m = some (.ok true, m) := by
  rw [← valid]
  rfl

/-- What a continuation that is valid does with its arguments. -/
theorem apply_continuation (fuel : Nat) :
    apply (fuel + 1) (.continuation ref function env extent false) args [] m =
      match resumeValues function.signature.params.length args with
      | .error error => some (.error error, m)
      | .ok values => Body.run (eval fuel function.body)
          ⟨Env.binding function.signature.params m.cells.size env, false, none⟩
          (m.withCells values) := by
  have unnamed : noKwargs "continuation" [] m = some (.ok (), m) := rfl
  have ran : (Task.apply (.continuation ref function env extent false) args []).run (fuel + 1) m =
      (Task.resuming function env false args []).run (Task.run fuel) m := by
    rw [Task.run_succ]
    exact Plan.run_lift_bind (extentValid_eq valid)
  refine ran.trans ((Plan.run_lift_bind unnamed).trans ?_)
  cases gives : resumeValues function.signature.params.length args with
  | error error => rfl
  | ok values =>
    refine (Plan.run_lift_bind (bindValues_eq (resumeValues_length gives) env m)).trans ?_
    rw [bodyRun_eq_expose]
    rfl

/-- A resumption visits the body of the continuation with its variables bound, unless they cannot
be. -/
theorem visits_resuming : (Call.resuming (n + 1) ref function env extent args m).visits =
      match resumeValues function.signature.params.length args with
      | .error _ => []
      | .ok values => (function.bodyOn env m).visits n (m.withCells values) := by
  have unnamed : noKwargs "continuation" [] m = some (.ok (), m) := rfl
  have here : (Call.resuming (n + 1) ref function env extent args m).visits =
      (Task.resuming function env false args []).calls (Task.run n) (Task.visits n) m := by
    rw [Call.resuming, Call.visits, if_neg (by simp [Task.isOfBody])]
    exact Plan.calls_lift_bind (extentValid_eq valid)
  refine here.trans ((Plan.calls_lift_bind unnamed).trans ?_)
  cases gives : resumeValues function.signature.params.length args with
  | error error => rfl
  | ok values =>
    refine (Plan.calls_lift_bind (bindValues_eq (resumeValues_length gives) env m)).trans ?_
    exact Plan.calls_sub_pure (function.bodyOn env m) Prod.fst

/-- A resumption makes a cell for each variable, and then those of the body. -/
theorem cells_resuming : (Call.resuming (n + 1) ref function env extent args m).cells =
      match resumeValues function.signature.params.length args with
      | .error _ => []
      | .ok values => List.range' m.cells.size values.length ++
          (function.bodyOn env m).ownCells n (m.withCells values) := by
  have unnamed : noKwargs "continuation" [] m = some (.ok (), m) := rfl
  have here : (Call.resuming (n + 1) ref function env extent args m).cells =
      (Task.resuming function env false args []).makes (Task.run n) (Task.ownCells n) m := by
    rw [Call.resuming, Call.cells, if_neg (by simp [Task.isOfBody])]
    refine (Plan.makes_lift_bind (extentValid_eq valid)).trans ?_
    rw [Machine.newCells_self]
    rfl
  refine here.trans ((Plan.makes_lift_bind unnamed).trans ?_)
  rw [Machine.newCells_self, List.nil_append]
  cases gives : resumeValues function.signature.params.length args with
  | error error => rfl
  | ok values =>
    refine (Plan.makes_lift_bind (bindValues_eq (resumeValues_length gives) env m)).trans ?_
    rw [show m.newCells { m with cells := m.cells ++ values.toArray } =
      List.range' m.cells.size values.length by simp [Machine.newCells]]
    exact congrArg _ (Plan.makes_sub_pure (function.bodyOn env m) Prod.fst)

end Valid

end Resumption

/-- What one resumption of a strict continuation is. -/
structure Machine.Resumes (m : Machine) (fuel ref : Nat) (function : Function) (env : Env)
    (extent : Nat) (args : List Value) : Prop where
  /-- Nothing refers to a cell that is not there yet, -/
  whole : m.Whole
  known : m.HasAll args []
  /-- and the scope that was captured is of cells that are there. -/
  captured : ∀ entry ∈ env, entry.2 < m.cells.size
  /-- The body is evaluated in that scope with the next cells for the variables. -/
  body : apply (fuel + 1) (.continuation ref function env extent false) args [] m =
    match resumeValues function.signature.params.length args with
    | .error error => some (.error error, m)
    | .ok values => Body.run (eval fuel function.body)
        ⟨Env.binding function.signature.params m.cells.size env, false, none⟩
        { m with cells := m.cells ++ values.toArray }
  /-- The cells that the body makes, those for the variables among them, were not there before. -/
  fresh : ∀ cell ∈ (Call.resuming (fuel + 1) ref function env extent args m).cells,
    m.cells.size ≤ cell
  bound : ∀ values, resumeValues function.signature.params.length args = .ok values ->
    List.range' m.cells.size function.signature.params.length ⊆
      (Call.resuming (fuel + 1) ref function env extent args m).cells
  /-- Wherever the body gets to, names that neither it nor the capture binds stand for what they
  stood for, and others do or stand for a cell that the body made. -/
  scopes : ∀ visit ∈ (Call.resuming (fuel + 1) ref function env extent args m).visits,
    ∀ scope, visit.StandsIn scope -> Env.Extends env
      (fun name => name ∈ function.signature.params ∨ Binds [function.body] name)
      (Call.resuming (fuel + 1) ref function env extent args m).cells scope

section Shots

variable {fuel ref extent : Nat} {function : Function} {env : Env} {args : List Value}

/-- A scope that is its own mirror has known cells only. -/
theorem Env.Mirrors.bounded {veiled : Bool} {env env' : Env}
    (scope : Env.Mirrors .plain m.diagonal veiled env env') :
    ∀ entry ∈ env, entry.2 < m.cells.size := by
  induction scope with
  | nil => simp
  | cons known _ ih => exact List.forall_mem_cons.mpr ⟨known.2, ih⟩
  | hidden _ hidden => exact hidden.elim

/-- The scope of a continuation that the machine has holds known cells only. -/
theorem Machine.Has.captured (has : m.Has (.func (.continuation ref function env extent false))) :
    ∀ entry ∈ env, entry.2 < m.cells.size := by
  cases has with
  | func same =>
  cases same with
  | continuation veiled known fits scope => exact scope.bounded
  | special special => exact special.elim

/-- Every resumption is as it should be. -/
theorem Call.Whole.resumption
    (whole : (Call.resuming (fuel + 1) ref function env extent args m).Whole)
    (valid : m.valid extent = true) : m.Resumes fuel ref function env extent args := by
  obtain ⟨has, hasAll⟩ := whole.applies
  have cells := @cells_resuming m fuel ref extent function env args valid
  refine ⟨whole.machine, hasAll, has.captured, apply_continuation valid fuel, ?_, ?_, ?_⟩
  · exact Call.cells_fresh _
  · intro values gives
    rw [cells, gives, ← resumeValues_length gives]
    exact List.subset_append_left _ _
  · intro visit member scope stands
    rw [visits_resuming valid] at member
    rw [cells]
    cases gives : resumeValues function.signature.params.length args with
    | error error =>
      rw [gives] at member
      cases member
    | ok values =>
      rw [gives] at member
      have first := Env.binding_extends function.signature.params m.cells.size env
      have inside := (Task.staysIn fuel (function.bodyOn env m) (m.withCells values) rfl).visits
        visit member scope stands
      have bound := first.mono (fun name member => Or.inl member : ∀ name,
        name ∈ function.signature.params -> name ∈ function.signature.params ∨
          Binds [function.body] name) (List.Subset.refl _)
      rw [← resumeValues_length gives] at bound
      exact bound.trans (inside.mono (fun name => Or.inr) (List.Subset.refl _))

/-- The calls make no cell both, and names in the bodies that they run stand for the same cell only
if they do in the scope that both begin in. -/
structure Call.Apart (env : Env) (call call' : Call) : Prop where
  cells : ∀ cell ∈ call.cells, cell ∉ call'.cells
  names : ∀ name name' cell, call.Knows name cell -> call'.Knows name' cell ->
    env.lookup name = some cell ∧ env.lookup name' = some cell

namespace Machine.Resumes

variable {m' : Machine} {fuel' : Nat} {args' : List Value}

variable {name : String} {cell : CellRef}

/-- A name stands for a cell of the resumption or for one that was captured. -/
theorem knows (resumes : m.Resumes fuel ref function env extent args)
    (knows : (Call.resuming (fuel + 1) ref function env extent args m).Knows name cell) :
    cell ∈ (Call.resuming (fuel + 1) ref function env extent args m).cells ∨
      env.lookup name = some cell := by
  obtain ⟨visit, member, scope, stands, found⟩ := knows
  exact (resumes.scopes visit member scope stands).lookup found

/-- What was captured was there before the resumption. -/
theorem captured_lt (resumes : m.Resumes fuel ref function env extent args)
    (found : env.lookup name = some cell) : cell < m.cells.size := by
  obtain ⟨before, after, rfl, -⟩ := List.lookup_eq_some_iff.mp found
  exact resumes.captured (name, cell) (by simp)

/-- Two resumptions have nothing but the captured scope in common. -/
theorem apart (resumes : m.Resumes fuel ref function env extent args)
    (resumes' : m'.Resumes fuel' ref function env extent args')
    (disjoint : ∀ cell ∈ (Call.resuming (fuel + 1) ref function env extent args m).cells,
      cell ∉ (Call.resuming (fuel' + 1) ref function env extent args' m').cells) :
    Call.Apart env (Call.resuming (fuel + 1) ref function env extent args m)
      (Call.resuming (fuel' + 1) ref function env extent args' m') := by
  refine ⟨disjoint, fun name name' cell knows knows' => ?_⟩
  rcases resumes.knows knows with own | found
  · rcases resumes'.knows knows' with own' | found'
    · exact absurd own' (disjoint cell own)
    · exact absurd (resumes.captured_lt found') (Nat.not_lt.mpr (resumes.fresh cell own))
  · rcases resumes'.knows knows' with own' | found'
    · exact absurd (resumes'.captured_lt found) (Nat.not_lt.mpr (resumes'.fresh cell own'))
    · exact ⟨found, found'⟩

end Machine.Resumes

end Shots

/-! ## What a resumption depends on -/

/-- The mirror by which machines are compared from now on. -/
def Machine.facing (m m' : Machine) : Mirror :=
  { Mirror.faithful (fun _ => True) m.passed with
    sized := false
    aligned := false
    printed := m.output
    printed' := m'.output
    depth := m.stack.size
    depth' := m'.stack.size }

/-- Tasks that are the same on machines that are come to the same. -/
theorem Machine.Mirrors.ends_alike {m' : Machine} {reflection : Reflection} {task task' : Task}
    {post : Reflection -> task.Answer -> task'.Answer -> Prop}
    (machines : m.Mirrors (m.facing m') reflection m')
    (tasks : task.Mirrors (m.facing m') reflection task' post) (grounded : task.ShowsGrounded m) :
    (∀ outcome, task.full m = some outcome -> ∃ outcome', task'.full m' = some outcome' ∧
      (m.facing m').Ends reflection post outcome outcome') ∧
    ∀ outcome', task'.full m' = some outcome' -> ∃ outcome, task.full m = some outcome ∧
      (m.facing m').Ends reflection post outcome outcome' := by
  exact (tasks.full_grounded grounded (fun _ _ _ => id) machines).alike (fun _ => rfl) fun _ => rfl

/-- A strict continuation can be resumed again and again, in any session of a host with a machine.
Every resumption evaluates the body in the captured scope with new cells for the variables, and
names that are bound neither by the body nor by the capture stand for what they stood for. No two
resumptions make the same cell, and names of the one and the other stand for the same cell only if
they do in the captured scope; what a name is assigned is what is read by it. On machines that have
the same under the arguments, the captured scope and the globals, however often the continuation was
resumed, resumptions end alike. Only a list that contains itself must not be shown: that never
ends. -/
theorem Machine.Whole.resumed_again {operations : List Operation} (whole : m.Whole)
    (serves : m.Serves n operations) (ref : Nat) (function : Function) (env : Env) (extent : Nat) :
    (∀ fuel args m',
      Call.resuming (fuel + 1) ref function env extent args m' ∈ history n operations m ->
      m'.valid extent = true -> m'.Resumes fuel ref function env extent args) ∧
    (history n operations m).Pairwise (fun call call' => ∀ fuel fuel' args args' m₁ m₂,
      call = Call.resuming (fuel + 1) ref function env extent args m₁ ->
      call' = Call.resuming (fuel' + 1) ref function env extent args' m₂ ->
      m₁.valid extent = true -> m₂.valid extent = true -> call.Apart env call') ∧
    (∀ frame m name cell value, frame.env.lookup name = some cell ->
      Body.lookup name ⟨frame, m⟩ = some (.ok (m.cell cell), ⟨frame, m⟩) ∧
      Body.assign name value ⟨frame, m⟩ =
        some (.ok (), ⟨frame, { m with cells := m.cells.setIfInBounds cell value }⟩)) ∧
    ∀ m₁ m₂ reflection args args' next',
      m₁.Mirrors (m₁.facing m₂) reflection m₂ ->
      (Callable.continuation ref function env extent false).Mirrors
        (m₁.facing m₂) reflection next' ->
      ValuesMirror (m₁.facing m₂) reflection args args' ->
      (Task.apply (.continuation ref function env extent false) args []).ShowsGrounded m₁ ->
      (∀ outcome,
        (∃ fuel,
          apply fuel (.continuation ref function env extent false) args [] m₁ = some outcome) ->
        ∃ outcome', (∃ fuel, apply fuel next' args' [] m₂ = some outcome') ∧
          (m₁.facing m₂).Ends reflection (Value.Mirrors (m₁.facing m₂)) outcome outcome') ∧
      ∀ outcome', (∃ fuel, apply fuel next' args' [] m₂ = some outcome') ->
        ∃ outcome,
          (∃ fuel, apply fuel (.continuation ref function env extent false) args [] m₁ =
            some outcome) ∧
          (m₁.facing m₂).Ends reflection (Value.Mirrors (m₁.facing m₂)) outcome outcome' := by
  have all := whole.history_whole serves
  have disjoint := (List.nodup_flatMap.mp (history_cells_nodup n operations m)).2
  refine ⟨fun fuel args m' member valid => (all _ member).resumption valid, ?_, ?_, ?_⟩
  · refine List.Pairwise.imp_of_mem ?_ disjoint
    rintro call call' member member' apart fuel fuel' args args' m₁ m₂ rfl rfl valid valid'
    exact ((all _ member).resumption valid).apart ((all _ member').resumption valid') apart
  · intro frame m name cell value found
    simp [Body.lookup, Body.assign, found]
  · intro m₁ m₂ reflection args args' next' machines same values grounded
    have tasks : Task.Mirrors (m₁.facing m₂) reflection _ _ _ := .apply same values .nil
    have applies (callable : Callable) (args : List Value) (m : Machine)
        (outcome : Outcome Machine Value) : (∃ fuel, apply fuel callable args [] m = some outcome) ↔
          (Task.apply callable args []).full m = some outcome := by
      rw [Task.full_eq_some]
      rfl
    simp only [applies]
    exact machines.ends_alike tasks grounded

/-- The rest of a body that counts in a variable that was bound before the capture. -/
def counting : Function :=
  ⟨⟨0, none, ["x"], [], ⟨false, true, false⟩, .continuation, []⟩,
    .seq default [.assign default "y" (.call default (.var default "+")
        [.var default "y", .var default "x"] []),
      .assign default "x" (.lit default (.int 0)), .var default "y"]⟩

/-- A machine that has the variable, and a valid extent. -/
def Machine.counting : Machine :=
  { Machine.start false with cells := #[.int 5], extents := #[true], continuations := 1 }

/-- Two resumptions count in the cell that they share. -/
theorem counting_shared :
    let m := Machine.counting
    let env : Env := [("y", 0)]
    let next : Callable := .continuation 0 counting env 0 false
    let later := { m with cells := #[.int 6, .int 0] }
    apply 20 next [.int 1] [] m = some (.ok (.int 6), later) ∧
    (∃ last, apply 20 next [.int 10] [] later = some (.ok (.int 16), last)) ∧
    m.Resumes 19 0 counting env 0 [.int 1] ∧ later.Resumes 19 0 counting env 0 [.int 10] ∧
    Call.Apart env (.resuming 20 0 counting env 0 [.int 1] m)
      (.resuming 20 0 counting env 0 [.int 10] later) := by
  intro m env next later
  have first : apply 20 next [.int 1] [] m = some (.ok (.int 6), later) := rfl
  have second : ∃ last, apply 20 next [.int 10] [] later = some (.ok (.int 16), last) := ⟨_, rfl⟩
  let operations : List Operation :=
    [.task (.apply next [.int 1] []), .task (.apply next [.int 10] [])]
  have whole : m.Whole := by
    refine ⟨fun store ref inside => ?_, fun name value found => ?_,
      fun extent member => absurd member List.not_mem_nil⟩
    · cases store with
      | continuation | identity => exact .number
      | cell =>
        obtain rfl := Nat.lt_one_iff.mp inside
        exact .cell .int
      | extent => exact .extent fun _ => rfl
      | _ => exact absurd inside (Nat.not_lt_zero ref)
    · exact m.has_builtin found Nat.zero_lt_one
  have known (machine : Machine) (number : Int64) (cells : 0 < machine.cells.size)
      (extents : 0 < machine.extents.size) (continuations : 0 < machine.continuations) :
      Operation.Known machine (.task (.apply next [.int number] [])) :=
    ⟨_, .apply (.continuation false ⟨rfl, continuations⟩ (.all (fun _ => trivial) _)
      (.cons ⟨rfl, cells⟩ .nil) ⟨rfl, extents⟩) (.cons .int .nil) .nil⟩
  have serves : m.Serves 20 operations := by
    refine ⟨known m 1 (by decide) (by decide) (by decide), fun result last ran => ?_⟩
    have ends : (Plan.operation (.task (.apply next [.int 1] []))).run (Task.run 20) m =
        some (.ok (), later) := rfl
    cases ends.symm.trans ran
    exact ⟨known later 10 (by decide) (by decide) (by decide), fun _ _ _ => trivial⟩
  obtain ⟨each, two, -, -⟩ := whole.resumed_again serves 0 counting env 0
  obtain ⟨last, again⟩ := second
  have calls : history 20 operations m = (Task.apply next [.int 1] []).calls 20 m ++
      ((Task.apply next [.int 10] []).calls 20 later ++ history 20 [] last) := by
    have first : (Task.apply next [.int 1] []).run 20 m = some (.ok (.int 6), later) := first
    have again : (Task.apply next [.int 10] []).run 20 later = some (.ok (.int 16), last) := again
    rw [history_task first, history_task again]
  have one : Call.resuming 20 0 counting env 0 [.int 1] m ∈
      (Task.apply next [.int 1] []).calls 20 m := List.mem_cons_self
  have other : Call.resuming 20 0 counting env 0 [.int 10] later ∈
      (Task.apply next [.int 10] []).calls 20 later ++ history 20 [] last :=
    List.mem_append_left _ List.mem_cons_self
  rw [calls] at each two
  have apart := (List.pairwise_append.mp two).2.2 _ one _ other 19 19 _ _ m later rfl rfl rfl rfl
  exact ⟨first, ⟨last, again⟩, each 19 _ m (List.mem_append_left _ one) rfl,
    each 19 _ later (List.mem_append_right _ other) rfl, apart⟩

/-- A function that closes over the variable of a capture is called after each resumption. The first
one assigns the variable in the end. -/
def leakedVariable : String :=
  "(define saved nil) (define getter nil)
  (continuations
    (defn grab (cc) (set! saved cc) 1)
    (defn main ()
      (capture (x) (grab))
      (or getter (set! getter (fn () x)))
      (let seen (getter))
      (set! x 101)
      seen))
  (main) (saved 10)"

/-- The same without the assignment. -/
def keptVariable : String :=
  "(define saved nil) (define getter nil)
  (continuations
    (defn grab (cc) (set! saved cc) 1)
    (defn main ()
      (capture (x) (grab))
      (or getter (set! getter (fn () x)))
      (let seen (getter))
      seen))
  (main) (saved 10)"

/-- What one resumption assigned to its variable is seen in the next one through a function that
closed over it. -/
theorem leakedVariable_seen :
    (∃ transformed last, (Program.ofText leakedVariable).transform .default ["ec"] =
        .ok transformed ∧
      transformed.program.EndsOn (.start false) (.ok (.int 101), last) ∧ last.output = "") ∧
    ∃ transformed last, (Program.ofText keptVariable).transform .default ["ec"] = .ok transformed ∧
      transformed.program.EndsOn (.start false) (.ok (.int 1), last) ∧ last.output = "" := by
  obtain ⟨seen, kept⟩ : Program.endsWith leakedVariable 101 "" = true ∧
      Program.endsWith keptVariable 1 "" = true := by
    rw [Program.endsWith, Program.ofText, leakedVariable, Program.parse_ofList, Program.endsWith,
      Program.ofText, keptVariable, Program.parse_ofList]
    decide +kernel
  exact ⟨Program.endsWith_endsOn seen, Program.endsWith_endsOn kept⟩

end Trampoline
