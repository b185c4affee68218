import Trampoline.Proofs.Need.Forcing

/-!
# Toplevel forms

The forms of a program are evaluated one after the other, each at a path of its own and with the
globals that those before it defined. Nothing is being forced between them.
-/

namespace Trampoline.ByName

open Exec

variable {dressed : Bool} {globals : List (String × Val)} {reading more : Reading} {m m' : Machine}
  {path : Path} {frame : Frame} {scope : Scope}

/-! ## Complete evaluation -/

/-- Nothing is being forced. -/
def Unblocked (_ : Entry) : Prop := False

theorem Opens.unblocked (blocked : Entry -> Prop)
    (opens : Opens dressed globals Unblocked reading m path) :
    Opens dressed globals blocked reading m path :=
  opens.imp fun _ => False.elim

/-- What follows with any amount of fuel follows altogether. -/
theorem follows_full {task : Task} {query : Query}
    {post : task.Answer -> query.Answer -> Machine -> Prop}
    (raw : dressed = false -> ∀ n, Follows dressed m (task.run n) (refer globals query) post)
    (total : dressed = true -> ∀ n, Follows dressed m task.full (referAt globals n query) post) :
    Follows dressed m task.full (refer globals query) post := by
  cases dressed with
  | true =>
    intro val answered
    obtain ⟨n, answered⟩ := refer_eq_some.mp answered
    exact total rfl n val answered
  | false =>
    intro value m' ran
    obtain ⟨n, ran⟩ := Task.full_eq_some.mp ran
    exact raw rfl n value m' ran

variable {e other : Expr} {val : Val} {name : String}

/-- An expression that binds no name is evaluated to its value by name. -/
theorem Opens.eval_follows (opens : Opens dressed globals Unblocked reading m path)
    (mapping : Mapping (Wears dressed) e other)
    (suits : e.All (Suits scope.isLazy)) (plain : e.isBind = false)
    (frames : Frames reading frame scope) :
    Follows dressed m (Task.eval other frame).full (refer globals (.eval e scope path))
      (Gives dressed globals (Apart path) reading m (Valued dressed frame)) := by
  refine follows_full ?_ ?_
  · rintro rfl n
    exact (simulates_run n).eval (opens.unblocked _) mapping suits plain frames
  · rintro rfl n
    exact (simulates_refer n).eval (opens.unblocked _) mapping suits plain frames

/-- A name that is bound to the value of an expression. -/
theorem Opens.binding_follows (opens : Opens dressed globals Unblocked reading m path)
    (mark : Mark) (name : String) (mapping : Mapping (Wears dressed) e other)
    (suits : e.All (Suits scope.isLazy)) (plain : e.isBind = false)
    (frames : Frames reading frame scope) :
    Follows dressed m (Task.eval (.bind mark name other) frame).full
      (refer globals (.binding name e scope path))
      (Gives dressed globals (Apart path) reading m (Binds frame scope.isLazy name)) := by
  refine follows_full ?_ ?_
  · rintro rfl n
    exact (simulates_run n).binding (opens.unblocked _) mapping suits plain frames
  · rintro rfl n
    exact (simulates_refer n).binding (opens.unblocked _) mapping suits plain frames

/-! ## Forms -/

/-- The globals that toplevel forms define, in order. -/
def definedNames : List Toplevel -> List String
  | [] => []
  | .define name _ :: rest => name :: definedNames rest
  | .exec _ :: rest => definedNames rest

/-- The scope of a toplevel form. -/
def Scope.toplevel : Scope := ⟨[], false⟩

/-- Run toplevel forms by name, from the one at an index on; `last` is the value of the last bare
expression so far. -/
noncomputable def runForms (globals : List (String × Val)) (index : Nat) :
    List Toplevel -> (last : Val) -> Option Val
  | [], last => some last
  | .define name bindee :: rest, last => do
    let value ← refer globals (.eval bindee .toplevel [index])
    runForms ((name, value) :: globals) (index + 1) rest last
  | .exec e :: rest, _ => do
    let value ← refer globals (.eval e .toplevel [index])
    runForms globals (index + 1) rest value

variable {index : Nat}

theorem frames_toplevel (reading : Reading) : Frames reading Frame.toplevel Scope.toplevel :=
  ⟨.nil, rfl, fun _ _ member => absurd member List.not_mem_nil⟩

/-- What a form comes to: a value and a meaning that belong together, where the next form can be
run. -/
def Comes (dressed : Bool) (globals : List (String × Val)) (index : Nat) (reading : Reading)
    (value : Value) (val : Val) (m : Machine) : Prop :=
  ∃ more, reading.Grows more ∧ Stage dressed globals Unblocked index more m [] ∧
    Means dressed more value val

/-- The expression of a form is evaluated to its value by name, also if it binds a name. -/
theorem Stage.eval_follows (stage : Stage dressed globals Unblocked index reading m [])
    (mapping : Mapping (Wears dressed) e other) (suits : e.All (Suits false)) :
    Follows dressed m (Task.eval other Frame.toplevel).full
      (refer globals (.eval e .toplevel [index]))
      fun answer val m' => Comes dressed globals (index + 1) reading answer.1 val m' := by
  cases bound : e.isBind with
  | false =>
    refine (stage.opens.eval_follows mapping suits bound (frames_toplevel reading)).imp ?_
    rintro ⟨value, _⟩ val m' ⟨more, moves, agrees, means, -⟩
    exact ⟨more, moves.grows, stage.advance moves agrees, means⟩
  | true =>
    cases mapping with
    | @bind mark name e e' mapping =>
      obtain ⟨self, ofBindee⟩ := Expr.all_bind.mp suits
      have plain : e.isBind = false := self.isPure e List.mem_cons_self
      have follows :=
        stage.opens.binding_follows mark name mapping ofBindee plain (frames_toplevel reading)
      have course : refer globals (.eval (.bind mark name e) .toplevel [index]) =
          refer globals (.binding name e .toplevel [index]) >>= fun _ => some .nil := by
        rw [refer_eq, Query.course, Course.run_bind, Course.run_sub]
        rfl
      rw [course]
      refine follows.map ?_
      rintro ⟨value, _⟩ entry m' ⟨more, moves, agrees, rfl, -⟩
      exact ⟨more, moves.grows, stage.advance moves agrees, .nil⟩
    | _ => cases bound

/-- Unwinding the machine between forms changes nothing that is read. -/
theorem Stage.unwindTo (stage : Stage dressed globals Unblocked index reading m []) (mark : Nat) :
    Stage dressed globals Unblocked index reading (m.unwindTo mark) [] := by
  obtain ⟨agrees, moves⟩ : Agrees dressed globals reading (m.unwindTo mark) ∧
      Moves (fun _ => True) reading m reading (m.unwindTo mark) :=
    stage.agrees.of_heap rfl rfl rfl rfl rfl
  exact ⟨⟨agrees, stage.ready.move moves⟩, fun later less =>
    moves.free _ trivial (stage.free later less)⟩

/-- A form is followed by name. -/
theorem Stage.form_follows (stage : Stage dressed globals Unblocked index reading m [])
    (mapping : Mapping (Wears dressed) e other) (suits : e.All (Suits false)) :
    Follows dressed m ((Plan.toplevel other).run Task.full)
      (refer globals (.eval e .toplevel [index])) (Comes dressed globals (index + 1) reading) := by
  have evaluated : Follows dressed m ((Task.eval other Frame.toplevel).full >>= fun ended =>
      Pure.pure ended.1) (refer globals (.eval e .toplevel [index]))
      (Comes dressed globals (index + 1) reading) :=
    (stage.eval_follows mapping suits).mapRun fun _ _ _ comes => comes
  refine evaluated.guarded.mapRun ?_
  rintro value val _ ⟨last, ⟨more, grows, stage, means⟩, rfl⟩
  exact ⟨more, grows, stage.unwindTo _, means⟩

/-- A form may define a global that was not bound before. -/
theorem Stage.define (stage : Stage dressed globals Unblocked index reading m []) {value : Value}
    (means : Means dressed reading value val) (fresh : globals.lookup name = none) :
    ∃ m', defineToplevel name value m = some (.ok (), m') ∧
      Stage dressed ((name, val) :: globals) Unblocked index reading m' [] := by
  let later : Machine := { m.define name value with trace := .defined name :: m.trace }
  obtain ⟨agrees, -⟩ : Agrees dressed ((name, val) :: globals) reading later ∧
      Moves (fun _ => True) reading (m.define name value) reading later :=
    (stage.agrees.define fresh means).of_heap rfl rfl rfl rfl rfl
  refine ⟨later, rfl, ⟨agrees, stage.ready⟩, fun later less => ?_⟩
  exact ⟨(stage.free later less).unused, (stage.free later less).unclaimed⟩

/-- Toplevel forms are followed by name. -/
theorem runForms_follows {top others : List Toplevel}
    (mapping : MappingTop (Wears dressed) top others)
    (suits : ∀ form ∈ top, form.expr.All (Suits false))
    (fresh : ∀ name ∈ definedNames top, globals.lookup name = none)
    (once : (definedNames top).Nodup)
    (stage : Stage dressed globals Unblocked index reading m []) {last : Value}
    (means : Means dressed reading last val) :
    Follows dressed m ((Plan.toplevels others last).run Task.full) (runForms globals index top val)
      fun value val m' => ∃ globals index, Comes dressed globals index reading value val m' := by
  induction mapping generalizing globals index reading m last val with
  | nil => exact .pure ⟨globals, index, reading, .refl reading, stage, means⟩
  | @define name e e' rest rest' mapping _ ih =>
    obtain ⟨ofForm, ofRest⟩ := List.forall_mem_cons.mp suits
    obtain ⟨unused, once⟩ := List.nodup_cons.mp once
    obtain ⟨freshName, freshRest⟩ := List.forall_mem_cons.mp fresh
    rw [Plan.toplevels, Plan.run_bind, runForms]
    refine (stage.form_follows mapping ofForm).bind ?_
    rintro value val' m' ⟨more, grows, stage, defined⟩
    obtain ⟨m'', defines, stage⟩ := stage.define defined freshName
    have freshRest : ∀ other ∈ definedNames rest,
      List.lookup other ((name, val') :: globals) = none := by
      intro other member
      have different : other ≠ name := by
        rintro rfl
        exact unused member
      rw [lookup_cons, if_neg different]
      exact freshRest other member
    rw [Plan.run_bind, Plan.run_lift]
    refine (Follows.step defines (ih ofRest freshRest once stage (means.grow grows))).imp ?_
    rintro value val m' ⟨globals, index, further, grows', rest⟩
    exact ⟨globals, index, further, grows.trans grows', rest⟩
  | @exec e e' rest rest' mapping _ ih =>
    obtain ⟨ofForm, ofRest⟩ := List.forall_mem_cons.mp suits
    rw [Plan.toplevels, Plan.run_bind, runForms]
    refine (stage.form_follows mapping ofForm).bind ?_
    rintro value val' m' ⟨more, grows, stage, means⟩
    rw [Plan.run_bind, Plan.run_sub]
    refine (Follows.step (full_force means.ne_promise) (ih ofRest fresh once stage means)).imp ?_
    rintro value val m' ⟨globals, index, further, grows', rest⟩
    exact ⟨globals, index, further, grows.trans grows', rest⟩

/-! ## Programs -/

/-- What a new machine has defined, by name. -/
def builtins : List (String × Val) :=
  (Native.all.filter Native.isPure).map (fun op => (op.name, .native op)) ++
    [("identity", .identity 0)]

/-- Builtins mean what they mean by name, whatever the reading. -/
theorem native_known (reading : Reading)
    (plain : ∀ op : Native, op.isPure = false -> name ≠ op.name) {rest : List (String × Value)}
    {rest' : List (String × Val)}
    (known : Option.Rel (Means dressed reading) (rest.lookup name) (rest'.lookup name))
    (ops : List Native) :
    Option.Rel (Means dressed reading)
      ((ops.map (fun op => (op.name, Value.func (.native op))) ++ rest).lookup name)
      (((ops.filter Native.isPure).map (fun op => (op.name, Val.native op)) ++ rest').lookup
        name) := by
  induction ops with
  | nil => exact known
  | cons op ops ih =>
    rw [List.map_cons, List.cons_append, lookup_cons]
    cases kind : op.isPure with
    | true =>
      rw [List.filter_cons_of_pos kind, List.map_cons, List.cons_append, lookup_cons]
      split
      · exact .some (.native kind)
      · exact ih
    | false =>
      rw [List.filter_cons_of_neg (by simp [kind]), if_neg (plain op kind)]
      exact ih

/-- A new machine, as it is read. -/
theorem stage_start (dressed closedOutput : Bool) :
    Stage dressed builtins Unblocked 0 ⟨[], [], [], []⟩ (Machine.start closedOutput) [] where
  agrees := {
    cells := rfl
    lists := rfl
    promises := rfl
    closures := rfl
    cell := nofun
    items := nofun
    promise := nofun
    distinct := List.nodup_nil
    claims := fun _ _ ⟨⟨_, _, found⟩, _⟩ => nomatch found
    known := fun name plain => native_known _ plain (by
      rw [lookup_cons, lookup_cons]
      split
      · exact .some (.identity 0)
      · exact .none) Native.all }
  ready := nofun
  free _ _ :=
    ⟨fun _ member => absurd member List.not_mem_nil, fun _ _ ⟨⟨_, _, found⟩, _⟩ => nomatch found⟩

end Trampoline.ByName
