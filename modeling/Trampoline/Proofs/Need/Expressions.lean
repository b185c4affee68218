import Trampoline.Proofs.Need.Simulation

/-!
# Names, functions and operands

How the machine and evaluation by name look names up, make functions and pass operands. What a lazy
body passes by name is the entry of a name, a value, or a thunk, for which the machine has a
promise, or, where the program is not dressed, the value at once.
-/

namespace Trampoline.ByName

open Exec

variable {dressed : Bool} {globals : List (String × Val)} {blocked : Entry -> Prop}
  {reading more : Reading} {m m' : Machine} {path : Path} {frame : Frame} {scope : Scope}
  {perform : (task : Task) -> Run task.Answer} {refer : (query : Query) -> Option query.Answer}

/-! ## Names -/

variable {names : Bindings} {name : String} {mark : Mark} {signature : Signature}
  {body other e : Expr} {isLazy : Bool}

theorem Stands.lookup {env : Env} (stands : Stands reading env names) (name : String) :
    Option.Rel (fun ref entry => reading.cells[ref]? = some entry ∧ (name, entry) ∈ names)
      (env.lookup name) (names.lookup name) := by
  induction stands with
  | nil => exact .none
  | @cons cell bound env names same _ ih =>
    obtain ⟨key, ref⟩ := cell
    obtain ⟨key', entry⟩ := bound
    obtain ⟨rfl, found⟩ := same
    rw [lookup_cons, lookup_cons]
    split
    · next here => exact .some ⟨found, here ▸ List.mem_cons_self⟩
    · generalize env.lookup name = ref, names.lookup name = entry at ih ⊢
      cases ih with
      | none => exact .none
      | some found => exact .some ⟨found.1, List.mem_cons_of_mem _ found.2⟩

/-- A global is the same on the machine and by name. -/
theorem Setting.global_follows (setting : Setting dressed globals perform refer)
    (agrees : Agrees dressed globals reading m)
    (plain : ∀ op : Native, op.isPure = false -> name ≠ op.name)
    (unbound : frame.env.lookup name = none) :
    Follows dressed m (Body.run (Body.lookup name) frame) (refer (.global name))
      fun value (val : Val) m' => m' = m ∧ Means dressed reading value val := by
  have known := agrees.known name plain
  refine setting.asks ?_
  rw [refer_eq, Query.course, Course.run_ofOption]
  generalize globals.lookup name = val at known ⊢
  cases bound : m.global? name with
  | none =>
    rw [bound] at known
    cases known
    exact .fails fun _ _ => by simp [Body.run, Body.lookup, unbound, bound]
  | some value =>
    rw [bound] at known
    cases known with
    | some means => exact .ends (by simp [Body.run, Body.lookup, unbound, bound]) ⟨rfl, means⟩

/-- A name stands for the same on the machine and by name. -/
theorem Setting.lookup_follows (setting : Setting dressed globals perform refer)
    (agrees : Agrees dressed globals reading m) (frames : Frames reading frame scope)
    (plain : ∀ op : Native, op.isPure = false -> name ≠ op.name) :
    Follows dressed m (Body.run (Body.lookup name) frame) ((scope.entry name).run refer)
      fun value entry m' => m' = m ∧ Holds dressed globals reading value entry ∧
        (scope.isLazy = false -> entry.isThunk = false) := by
  have here := frames.stands.lookup name
  unfold Scope.entry
  generalize scope.env.lookup name = entry at here ⊢
  cases found : frame.env.lookup name with
  | some ref =>
    rw [found] at here
    cases here with
    | some here =>
      have ran : Body.run (Body.lookup name) frame m = some (.ok (m.cell ref), m) := by
        simp [Body.run, Body.lookup, found]
      exact .ends ran ⟨rfl, agrees.cell ref _ here.1, fun strict => frames.settled strict _ here.2⟩
  | none =>
    rw [found] at here
    cases here
    refine (setting.global_follows agrees plain found).map ?_
    rintro value val _ ⟨rfl, means⟩
    exact ⟨rfl, means.holds, fun _ => rfl⟩

/-! ## Functions -/

theorem wrap_wrappersOf (signature : Signature) (base : Callable) :
    wrap base (wrappersOf dressed signature) = pure (dress dressed signature base) := by
  unfold wrappersOf dress
  split <;> rfl

/-- A function expression makes a closure with the wrappers of the function. -/
theorem full_fn (plain : signature.kind = .plain)
    (wrappers : signature.wrappers = wrappersOf dressed signature) :
    (Task.eval (.fn mark signature body) frame).full m =
      some (.ok (.func (dress dressed signature
        (.closure m.closures ⟨signature, body⟩ frame.env)), frame),
        { m with closures := m.closures + 1 }) := by
  have made : expose (makeClosure ⟨signature, body⟩) frame m =
      some (.ok (.func (dress dressed signature
        (.closure m.closures ⟨signature, body⟩ frame.env)), frame),
        { m with closures := m.closures + 1 }) := by
    simp [makeClosure, plain, wrappers, wrap_wrappersOf]
    rfl
  rw [Task.full_eq]
  exact (congrFun (Plan.run_body _ _ _) m).trans made

/-- A function expression becomes one of the function with its wrappers. -/
theorem fn_of_mapping (mapping : Mapping (Wears dressed) (.fn mark signature body) other) :
    ∃ function, other = .fn mark function.signature function.body ∧
      function.signature = { signature with wrappers := wrappersOf dressed signature } ∧
      Becomes dressed ⟨signature, body⟩ function := by
  cases mapping with
  | @fn _ _ _ body' function inside wears =>
    cases wears
    exact ⟨_, rfl, rfl, body', inside, rfl⟩

/-- The functions of a pure program fit the scopes where they are made. -/
theorem fits_of_suits (suits : (Expr.fn mark signature body).All (Suits isLazy))
    (settled : isLazy = false -> Settled names) : Fits ⟨signature, body⟩ names := by
  obtain ⟨self, inside⟩ := Expr.all_fn.mp suits
  obtain ⟨plain, direct, nested⟩ := self.isPure
  refine ⟨plain, fun node member => ⟨(inside node member).isPure, fun inLazy =>
    nested inLazy node member⟩, direct, fun strict => settled ?_⟩
  cases inLazy : isLazy with
  | false => rfl
  | true => exact absurd (self.inner inLazy _ _ _ rfl) (ne_true_of_eq_false strict)

/-- A function expression makes a closure that means the function. -/
theorem full_fn_means (mapping : Mapping (Wears dressed) (.fn mark signature body) other)
    (suits : (Expr.fn mark signature body).All (Suits isLazy))
    (settled : isLazy = false -> Settled names) (stands : Stands reading frame.env names)
    (made : reading.closures[m.closures]? = some path) :
    ∃ value, (Task.eval other frame).full m =
        some (.ok (value, frame), { m with closures := m.closures + 1 }) ∧
      Means dressed reading value (.closure path ⟨signature, body⟩ names) := by
  obtain ⟨⟨_, _⟩, rfl, rfl, becomes⟩ := fn_of_mapping mapping
  have fits := fits_of_suits suits settled
  exact ⟨_, full_fn fits.plain rfl, .closure rfl made becomes stands fits⟩

/-- A function expression is followed at its path. -/
theorem Opens.fn_follows (opens : Opens dressed globals blocked reading m path)
    (frames : Frames reading frame scope)
    (mapping : Mapping (Wears dressed) (.fn mark signature body) other)
    (suits : (Expr.fn mark signature body).All (Suits scope.isLazy)) :
    Follows dressed m (Task.eval other frame).full
      (some (.closure path ⟨signature, body⟩ scope.env))
      (Gives dressed globals (Apart path) reading m (Valued dressed frame)) := by
  have grows := reading.grows_withClosure path
  obtain ⟨agrees, moves⟩ := opens.agrees.newClosure opens.free
  have made : (reading.withClosure path).closures[m.closures]? = some path := by
    simp [Reading.withClosure, ← opens.agrees.closures]
  obtain ⟨value, ends, means⟩ :=
    full_fn_means mapping suits frames.settled (frames.stands.grow grows) made
  exact .ends ends ⟨_, moves, agrees, means, rfl⟩

/-- A function that is bound to a name sees the name. -/
theorem Opens.recur_follows (opens : Opens dressed globals blocked reading m path)
    (setting : Setting dressed globals perform refer) (frames : Frames reading frame scope)
    {mark' : Mark} (mapping : Mapping (Wears dressed) (.fn mark signature body) other)
    (suits : (Expr.fn mark signature body).All (Suits scope.isLazy)) :
    Follows dressed m ((Task.eval (.bind mark' name other) frame).plan.run perform)
      (some (.recur name path ⟨signature, body⟩ scope.env))
      (Gives dressed globals (Apart path) reading m (Binds frame scope.isLazy name)) := by
  set recur : Entry := .recur name path ⟨signature, body⟩ scope.env
  set later := (reading.withClosure path).withCell recur
  let inner : Frame := { frame with env := (name, m.cells.size) :: frame.env }
  let fresh : Machine := { m with cells := m.cells.push .nil }
  have grows : reading.Grows later :=
    (reading.grows_withClosure path).trans (Reading.grows_withCell _ recur)
  obtain ⟨agrees, moves⟩ := opens.agrees.newClosure opens.free
  have made : later.closures[fresh.closures]? = some path := by
    simp [later, fresh, Reading.withClosure, Reading.withCell, ← opens.agrees.closures]
  have bound : later.cells[m.cells.size]? = some recur := by
    simp [later, Reading.withClosure, Reading.withCell, ← opens.agrees.cells]
  have stands : Stands later inner.env ((name, recur) :: scope.env) :=
    .cons ⟨rfl, bound⟩ (frames.stands.grow grows)
  have settled : scope.isLazy = false -> Settled ((name, recur) :: scope.env) :=
    fun strict => settled_cons.mpr ⟨rfl, frames.settled strict⟩
  obtain ⟨value, ends, means⟩ := full_fn_means mapping suits settled stands made
  have evaluates : recur.Evaluates globals
      (.closure path ⟨signature, body⟩ ((name, recur) :: scope.env)) := by
    rw [Entry.Evaluates, refer_eq]
    rfl
  obtain ⟨agrees', moves'⟩ := agrees.newCell (.value means evaluates)
  have both := (moves.trans moves').weaken fun other (apart : Apart path other) => ⟨apart, trivial⟩
  have changed : fresh.cells.setIfInBounds m.cells.size value = m.cells.push value :=
    Array.toList_inj.mp (by simp [fresh])
  have stored : Run.setCell m.cells.size value { fresh with closures := m.closures + 1 } =
      some (.ok (), { m with cells := m.cells.push value, closures := m.closures + 1 }) := by
    rw [← changed]
    rfl
  obtain ⟨function, rfl, -, -⟩ := fn_of_mapping mapping
  refine .step rfl (setting.known ends (.step stored (.pure ?_)))
  exact ⟨later, both, agrees', rfl, fun _ => rfl, _, rfl, bound⟩

/-! ## Operands -/

theorem isAtom_of_mapping {becomes : Function -> Function -> Prop}
    (mapping : Mapping becomes e other) : other.isAtom = e.isAtom := by
  cases mapping <;> rfl

theorem delayed_plan (compound : e.isAtom = false) : (Task.delayed e frame).plan = (do
      let value ← Plan.lift (Run.newPromise (.expr e frame.env))
      pure (value, frame)) := by
  cases e <;> first | rfl | cases compound

theorem operand_course (compound : e.isAtom = false) :
    (Query.operand true e scope path).course globals = pure (.thunk e scope.env path) := by
  cases e <;> first | rfl | cases compound

/-- The machine delays what is passed by name. -/
theorem Opens.delayed_follows (opens : Opens dressed globals blocked reading m path)
    (setting : Setting dressed globals perform refer) (frames : Frames reading frame scope)
    (inLazy : scope.isLazy = true) (mapping : Mapping (Wears dressed) e other)
    (suits : e.All (Suits scope.isLazy)) (plain : e.isBind = false) :
    Follows dressed m (Task.delayed other frame).full
      (((Query.operand true e scope path).course globals).run refer)
      (Gives dressed globals (Apart path) reading m (Passed dressed globals frame true)) := by
  rw [Task.full_eq]
  cases compound : e.isAtom with
  | true =>
    cases mapping with
    | lit =>
      rw [Task.plan, Plan.run_sub, Task.full_eq]
      exact .pure (.same opens.agrees ⟨(Means.ofLiteral _).holds, rfl, nofun⟩)
    | var =>
      refine (setting.lookup_follows opens.agrees frames suits.self.isPure).mapRun ?_
      rintro value entry _ ⟨rfl, holds, -⟩
      exact .same opens.agrees ⟨holds, rfl, nofun⟩
    | fn inside wears =>
      rw [Task.plan, Plan.run_sub]
      refine (opens.fn_follows frames (.fn inside wears) suits).map ?_
      rintro value val m' ⟨more, moves, agrees, means, same⟩
      exact ⟨more, moves, agrees, means.holds, same, nofun⟩
    | _ => cases compound
  | false =>
    rw [delayed_plan ((isAtom_of_mapping mapping).trans compound), operand_course compound]
    obtain ⟨agrees, moves⟩ :=
      opens.agrees.newPromise opens.free mapping (inLazy ▸ suits) plain frames.stands
    refine .ends rfl ⟨_, moves, agrees, .promise ?_, rfl, nofun⟩
    simp [Reading.withPromise, opens.agrees.promises]

/-- What is passed by name has the value that the operand has. -/
theorem operand_evaluates (inLazy : scope.isLazy = true) {val : Val}
    (evaluates : ByName.refer globals (.eval e scope path) = some val) :
    ∃ entry, ByName.refer globals (.operand true e scope path) = some entry ∧
      entry.Evaluates globals val := by
  cases compound : e.isAtom with
  | true =>
    rw [refer_eq] at evaluates
    rw [refer_eq]
    cases e with
    | lit =>
      cases evaluates
      exact ⟨_, rfl, Entry.evaluates_value _⟩
    | var =>
      obtain ⟨entry, found, value⟩ := Option.bind_eq_some_iff.mp
        ((Course.run_bind _ _).symm.trans evaluates)
      exact ⟨entry, found, (Course.run_sub _).symm.trans value⟩
    | fn =>
      cases evaluates
      exact ⟨_, rfl, Entry.evaluates_value _⟩
    | _ => cases compound
  | false =>
    obtain ⟨env, isLazy⟩ := scope
    cases inLazy
    refine ⟨.thunk e env path, ?_, ?_⟩
    · rw [refer_eq, operand_course compound]
      rfl
    · rw [Entry.Evaluates, refer_eq]
      exact (Course.run_sub _).trans evaluates

/-- In a lazy frame the policy says whether an operand is forced or delayed. -/
theorem operand_plan (policy : Policy) (e : Expr) (frame : Frame) :
    (Task.operand policy e frame).plan =
      if frame.isLazy = true then
        match policy with
        | .strict => Plan.sub (.evalForced e frame)
        | .delay => Plan.sub (.delayed e frame)
      else Plan.sub (.eval e frame) := by
  show (if (!frame.isLazy) = true then _ else _) = _
  cases frame.isLazy <;> rfl

/-- Operands are passed alike. -/
theorem Simulates.operand_step (sim : Simulates dressed globals blocked perform refer)
    (setting : Setting dressed globals perform refer)
    (opens : Opens dressed globals blocked reading m path)
    (mapping : Mapping (Wears dressed) e other) (suits : e.All (Suits scope.isLazy))
    (plain : e.isBind = false) (frames : Frames reading frame scope) {policy : Policy}
    {byName : Bool} (chooses : Chooses dressed scope.isLazy policy byName) :
    Follows dressed m ((Task.operand policy other frame).plan.run perform)
      (((Query.operand byName e scope path).course globals).run refer)
      (Gives dressed globals (Apart path) reading m (Passed dressed globals frame byName)) := by
  have value : ∀ task : Run (Value × Frame), Follows dressed m task (refer (.eval e scope path))
        (Gives dressed globals (Apart path) reading m (Valued dressed frame)) ->
      Follows dressed m task (((Query.operand false e scope path).course globals).run refer)
        (Gives dressed globals (Apart path) reading m (Passed dressed globals frame false)) := by
    intro task follows
    refine follows.map ?_
    rintro value val m' ⟨more, moves, agrees, means, same⟩
    exact ⟨more, moves, agrees, means.holds, same, fun _ => ⟨val, rfl⟩⟩
  rw [operand_plan, frames.isLazy]
  cases inLazy : scope.isLazy with
  | false =>
    rw [if_neg nofun, Plan.run_sub]
    cases byName with
    | true => cases inLazy.symm.trans (chooses.inLazy rfl)
    | false => exact value _ (sim.eval opens mapping suits plain frames)
  | true =>
    rw [if_pos rfl]
    cases policy with
    | delay =>
      obtain rfl := chooses.delayed rfl inLazy
      rw [Plan.run_sub]
      exact setting.below (opens.delayed_follows setting frames inLazy mapping suits plain)
    | strict =>
      rw [Plan.run_sub]
      cases byName with
      | false => exact value _ (sim.evalForced opens mapping suits plain frames)
      | true =>
        -- only where nothing is dressed: the value is known already when it is asked for by name
        cases dressed with
        | true => cases chooses.strict rfl rfl
        | false =>
          intro value m' ran
          obtain ⟨val, answered, more, moves, agrees, means, same⟩ :=
            sim.evalForced opens mapping suits plain frames value m' ran
          rw [setting.all rfl] at answered ⊢
          obtain ⟨entry, found, evaluates⟩ := operand_evaluates inLazy answered
          exact ⟨entry, (refer_eq _).symm.trans found, more, moves, agrees,
            .value means evaluates, same, nofun⟩

end Trampoline.ByName
